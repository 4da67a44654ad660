import Xv6.Console.Model
import Xv6.Lib.Ring

/-!
# The line discipline

`Line` says what typing does, without a buffer: the characters of the line
under the cursor can be erased, and at the end of a line, at Control-D or
with `INPUT_BUF_SIZE` characters unread they are committed.

The history of a run has the line and the characters that the readers took.
`Sound` relates it to `cons`: the characters between `r` and `w` are the
committed ones that nobody has taken, and those between `w` and `e` are the
line under the cursor.  The counters wrap modulo `2 ^ 32`.
-/

namespace Xv6.Console

open Xv6.Lib Function

/-! ## Typing -/

/-- The committed characters, and the line under the cursor. -/
structure Line where
  committed : List UInt8
  pending : List UInt8

/-- A character is typed when the readers have taken `taken` of the committed
ones. -/
def Line.type (l : Line) (taken : Nat) (ch : UInt8) : Line :=
  if ch = C 'P' then l
  else if ch = C 'U' then { l with pending := [] }
  else if ch = C 'H' ∨ ch = delete then { l with pending := l.pending.dropLast }
  else if ch ≠ 0 ∧ l.committed.length + l.pending.length < taken + INPUT_BUF_SIZE then
    let ch := if ch = carriageReturn then newline else ch
    let pending := l.pending ++ [ch]
    if ch = newline ∨ ch = C 'D' ∨
        l.committed.length + pending.length = taken + INPUT_BUF_SIZE then
      ⟨l.committed ++ pending, []⟩
    else { l with pending := pending }
  else l

/-! ## The history -/

/-- A character that a reader took: it was copied out, or it was a
boundary. -/
inductive Taken
  | data (p : Caller) (ch : UInt8)
  | boundary (p : Caller) (ch : UInt8)
  deriving DecidableEq

def Taken.byte : Taken → UInt8
  | .data _ ch | .boundary _ ch => ch

/-- What has been typed, and what the readers took. -/
structure History where
  line : Line
  taken : List Taken

/-- What is left of the argument of the call. -/
def Pc.left : Pc → Option Int32
  | .loop _ n | .asleep _ n | .woken _ n | .done _ n => some n
  | .idle _ | .read _ => none

/-- The history after a step.  A reader has taken a character if `r` has
advanced, and copied it out if there is less left of its argument. -/
def History.record (h : History) (s : Sys) (l : Step) (s' : Sys) : History :=
  match l with
  | .intr ch => { h with line := h.line.type h.taken.length ch }
  | .go p _ =>
      if s'.cons.r = s.cons.r then h
      else
        let ch := s.cons.byte s.cons.r
        { h with taken := h.taken ++
            [if (s'.pc p).left = (s.pc p).left then .boundary p ch else .data p ch] }
  | _ => h

def History.start : History := ⟨⟨[], []⟩, []⟩

/-- The buffers of the callers are valid. -/
def CopiesOut : Step → Prop
  | .go _ e => e.copyout = true
  | _ => True

instance : ∀ l, Decidable (CopiesOut l)
  | .go _ _ => inferInstanceAs (Decidable (_ = _))
  | .intr _ | .read _ _ | .kill _ => inferInstanceAs (Decidable True)

/-- The characters between two counters. -/
def Cons.between (c : Cons) (i j : UInt32) : List UInt8 :=
  (List.range (j - i).toNat).map (fun k => c.byte (i + UInt32.ofNat k))

/-! ## The invariant -/

/-- The console holds the characters that are left of the history. -/
structure Holding (c : Cons) (taken : List UInt8) (l : Line) : Prop where
  queue : ∃ unread, l.committed = taken ++ unread ∧
    Ring INPUT_BUF_SIZE c.buf taken.length (unread ++ l.pending)
  r : Counts c.r.toBitVec taken.length
  w : Counts c.w.toBitVec l.committed.length
  e : Counts c.e.toBitVec (l.committed.length + l.pending.length)
  line : newline ∉ l.pending

theorem toNat_size : (UInt32.ofNat INPUT_BUF_SIZE).toNat = INPUT_BUF_SIZE := rfl

variable {ch : UInt8} {e : Env} {pc : Pc} {target : UInt32} {n : Int32}

namespace Holding

variable {c : Cons} {taken : List UInt8} {l : Line} (hc : Holding c taken l)
include hc

theorem bounds : taken.length ≤ l.committed.length ∧
    l.committed.length + l.pending.length ≤ taken.length + INPUT_BUF_SIZE := by
  obtain ⟨unread, hcommitted, hring⟩ := hc.queue
  have hbound := hring.bound
  rw [List.length_append] at hbound
  rw [hcommitted, List.length_append]
  omega

/-- `r <= w <= e <= r + INPUT_BUF_SIZE`, as distances. -/
theorem ordered : (c.w - c.r).toNat ≤ (c.e - c.r).toNat ∧ (c.e - c.r).toNat ≤ INPUT_BUF_SIZE := by
  obtain ⟨hlow, hhigh⟩ := hc.bounds
  have hw := hc.w
  have he := hc.e
  obtain ⟨n, hn⟩ := Nat.exists_eq_add_of_le hlow
  rw [hn] at hw he hhigh
  rw [Nat.add_assoc] at he
  simp only [INPUT_BUF_SIZE] at *
  have hrw : (c.w - c.r).toNat = n := hc.r.sub hw (by omega)
  have hre : (c.e - c.r).toNat = n + l.pending.length := hc.r.sub he (by omega)
  omega

theorem sub_r : (c.e - c.r).toNat = l.committed.length + l.pending.length - taken.length := by
  obtain ⟨hlow, hhigh⟩ := hc.bounds
  have he := hc.e
  rw [show l.committed.length + l.pending.length =
    taken.length + (l.committed.length + l.pending.length - taken.length) by omega] at he
  simp only [INPUT_BUF_SIZE] at hhigh
  exact hc.r.sub he (by omega)

theorem sub_w : (c.e - c.w).toNat = l.pending.length := by
  obtain ⟨hlow, hhigh⟩ := hc.bounds
  simp only [INPUT_BUF_SIZE] at hhigh
  exact hc.w.sub hc.e (by omega)

theorem e_eq_w : c.e = c.w ↔ l.pending = [] := by
  obtain ⟨hlow, hhigh⟩ := hc.bounds
  simp only [INPUT_BUF_SIZE] at hhigh
  rw [eq_comm, ← UInt32.toBitVec_inj, hc.w.eq_iff hc.e (by omega), List.length_eq_zero_iff]

/-- The last character of the line. -/
theorem last {front : List UInt8} (hline : l.pending = front ++ [ch]) : c.byte (c.e - 1) = ch := by
  obtain ⟨unread, hcommitted, hring⟩ := hc.queue
  have he := hc.e
  rw [hline, hcommitted, List.length_append, List.length_append, List.length_singleton] at he
  rw [← Nat.add_assoc] at he
  have hcell := hring.cell (unread.length + front.length) (by rw [hline]; simp)
  have hpos : (c.e - 1).toNat % INPUT_BUF_SIZE =
      (taken.length + unread.length + front.length) % INPUT_BUF_SIZE := he.pred.cell (by decide)
  rw [Cons.byte, hpos, Nat.add_assoc, hcell]
  simp [hline]

/-- Erasing the last character. -/
theorem dropLast {front : List UInt8} (hline : l.pending = front ++ [ch]) :
    Holding { c with e := c.e - 1 } taken { l with pending := front } := by
  obtain ⟨unread, hcommitted, hring⟩ := hc.queue
  have he := hc.e
  have hnew := hc.line
  rw [hline] at hring he hnew
  rw [← List.append_assoc] at hring
  refine ⟨⟨unread, hcommitted, hring.take⟩, hc.r, hc.w, ?_, ?_⟩
  · rw [List.length_append, List.length_singleton, ← Nat.add_assoc] at he
    exact he.pred
  · intro hmem
    exact hnew (List.mem_append_left _ hmem)

theorem erase : Holding c.erase taken { l with pending := l.pending.dropLast } := by
  unfold Cons.erase
  rcases List.eq_nil_or_concat l.pending with hnil | ⟨front, ch, hline⟩
  · rw [if_neg (fun hne => hne (hc.e_eq_w.mpr hnil)), hnil]
    rw [show ({ l with pending := List.dropLast [] } : Line) = l by rw [List.dropLast_nil, ← hnil]]
    exact hc
  · rw [List.concat_eq_append] at hline
    rw [if_pos, hline, List.dropLast_concat]
    · exact hc.dropLast hline
    · intro heq
      rw [hc.e_eq_w, hline] at heq
      simp at heq

/-- Control-U removes the line, which has no newline in it. -/
theorem killLoop : Holding (Cons.killLoop l.pending.length c) taken { l with pending := [] } := by
  generalize hk : l.pending.length = k
  induction k generalizing c l with
  | zero =>
    have hnil := List.length_eq_zero_iff.mp hk
    rw [← hnil]
    exact hc
  | succ k ih =>
    rcases List.eq_nil_or_concat l.pending with hnil | ⟨front, ch, hline⟩
    · rw [hnil] at hk
      cases hk
    rw [List.concat_eq_append] at hline
    have hne : c.e ≠ c.w := by
      intro heq
      rw [hc.e_eq_w, hline] at heq
      simp at heq
    have hch : c.byte (c.e - 1) ≠ newline := by
      rw [hc.last hline]
      rintro rfl
      exact hc.line (by rw [hline]; simp)
    rw [Cons.killLoop, if_pos ⟨hne, hch⟩]
    refine ih (l := { l with pending := front }) (hc.dropLast hline) ?_
    rw [hline, List.length_append, List.length_singleton] at hk
    exact Nat.succ.inj hk

theorem kill : Holding c.kill taken { l with pending := [] } := by
  rw [Cons.kill, hc.sub_w]
  exact hc.killLoop

theorem room : c.e - c.r < UInt32.ofNat INPUT_BUF_SIZE ↔
    l.committed.length + l.pending.length < taken.length + INPUT_BUF_SIZE := by
  obtain ⟨hlow, hhigh⟩ := hc.bounds
  rw [UInt32.lt_iff_toNat_lt, hc.sub_r, toNat_size]
  omega

/-- A character is stored behind the line. -/
theorem store (hroom : l.committed.length + l.pending.length < taken.length + INPUT_BUF_SIZE)
    (ch : UInt8) :
    ∃ unread, l.committed = taken ++ unread ∧
      Ring INPUT_BUF_SIZE (update c.buf (c.e.toNat % INPUT_BUF_SIZE) ch) taken.length
        (unread ++ (l.pending ++ [ch])) := by
  obtain ⟨unread, hcommitted, hring⟩ := hc.queue
  have hlt : (unread ++ l.pending).length < INPUT_BUF_SIZE := by
    rw [hcommitted, List.length_append] at hroom
    rw [List.length_append]
    omega
  have hpos : taken.length + (unread ++ l.pending).length =
      l.committed.length + l.pending.length := by
    rw [hcommitted, List.length_append, List.length_append, Nat.add_assoc]
  have hcell : c.e.toNat % INPUT_BUF_SIZE =
      (l.committed.length + l.pending.length) % INPUT_BUF_SIZE := hc.e.cell (by decide)
  have hpush := hring.push (a := ch) hlt
  rw [hpos, ← hcell, List.append_assoc] at hpush
  exact ⟨unread, hcommitted, hpush⟩

theorem put (hroom : l.committed.length + l.pending.length < taken.length + INPUT_BUF_SIZE)
    (ch : UInt8) :
    Holding (c.put ch).1 taken
      (if ch = newline ∨ ch = C 'D' ∨
          l.committed.length + (l.pending ++ [ch]).length = taken.length + INPUT_BUF_SIZE then
        ⟨l.committed ++ (l.pending ++ [ch]), []⟩
      else { l with pending := l.pending ++ [ch] }) := by
  obtain ⟨unread, hcommitted, hring⟩ := hc.store hroom ch
  obtain ⟨hlow, hhigh⟩ := hc.bounds
  have he := hc.e.succ
  have hlen : (l.pending ++ [ch]).length = l.pending.length + 1 := by simp
  -- the buffer is full for the counters if it is for the lengths
  have hfull : c.e + 1 - c.r = UInt32.ofNat INPUT_BUF_SIZE ↔
      l.committed.length + (l.pending ++ [ch]).length = taken.length + INPUT_BUF_SIZE := by
    have hsub : (c.e + 1 - c.r).toNat = l.committed.length + l.pending.length + 1 - taken.length := by
      rw [show l.committed.length + l.pending.length + 1 =
        taken.length + (l.committed.length + l.pending.length + 1 - taken.length) by omega] at he
      simp only [INPUT_BUF_SIZE] at hroom
      exact hc.r.sub he (by omega)
    rw [← UInt32.toNat_inj, hsub, hlen, toNat_size]
    omega
  rw [Nat.add_assoc, ← hlen] at he
  unfold Cons.put
  simp only [hfull]
  split
  · refine ⟨⟨unread ++ (l.pending ++ [ch]), ?_, ?_⟩, hc.r, ?_, ?_, List.not_mem_nil⟩
    · rw [hcommitted, List.append_assoc]
    · rw [List.append_nil]
      exact hring
    · rw [List.length_append]
      exact he
    · rw [List.length_append]
      exact he
  · rename_i hopen
    refine ⟨⟨unread, hcommitted, hring⟩, hc.r, hc.w, he, ?_⟩
    intro hmem
    rcases List.mem_append.mp hmem with hmem | hmem
    · exact hc.line hmem
    · exact hopen (Or.inl (List.mem_singleton.mp hmem).symm)

/-- `consoleintr` does to the buffer what typing does to the line. -/
theorem intr (ch : UInt8) : Holding (c.intr ch).1 taken (l.type taken.length ch) := by
  unfold Cons.intr Line.type
  split
  · exact hc
  split
  · exact hc.kill
  split
  · exact hc.erase
  simp only [hc.room]
  split
  · rename_i hroom
    exact hc.put hroom.2 _
  · exact hc

/-- With a committed character that nobody has taken, `r` is at the first. -/
theorem take (hne : c.r ≠ c.w) :
    Holding { c with r := c.r + 1 } (taken ++ [c.byte c.r]) l := by
  obtain ⟨unread, hcommitted, hring⟩ := hc.queue
  cases unread with
  | nil =>
    have hw := hc.w
    rw [hcommitted, List.append_nil] at hw
    exact absurd (UInt32.toBitVec_inj.mp ((hc.r.eq_iff (n := 0) hw (by decide)).mpr rfl)) hne
  | cons ch rest =>
    obtain ⟨hch, hrest⟩ := hring.pop
    have hpos : c.r.toNat % INPUT_BUF_SIZE = taken.length % INPUT_BUF_SIZE := hc.r.cell (by decide)
    have hbyte : c.byte c.r = ch := by rw [Cons.byte, hpos, hch]
    have hlen : (taken ++ [ch]).length = taken.length + 1 := by simp
    rw [hbyte]
    refine ⟨⟨rest, ?_, ?_⟩, ?_, hc.w, hc.e, hc.line⟩
    · rw [hcommitted, List.append_assoc]
      rfl
    · rw [hlen]
      exact hrest
    · rw [hlen]
      exact hc.r.succ

end Holding

/-- The characters between two counters are those of the cells. -/
theorem between_eq {c : Cons} {i j : UInt32} {k : Nat} {xs : List UInt8}
    (hi : Counts i.toBitVec k) (hj : Counts j.toBitVec (k + xs.length)) (hshort : xs.length < 2 ^ 32)
    (hcell : ∀ m (h : m < xs.length), c.buf ((k + m) % INPUT_BUF_SIZE) = xs[m]) :
    c.between i j = xs := by
  have hlen : (j - i).toNat = xs.length := hi.sub hj hshort
  rw [Cons.between, hlen]
  apply List.ext_getElem
  · simp
  · intro m hm hm'
    have hpos : (i + UInt32.ofNat m).toNat % INPUT_BUF_SIZE = (k + m) % INPUT_BUF_SIZE :=
      (hi.add m).cell (by decide)
    rw [List.getElem_map, List.getElem_range, Cons.byte, hpos]
    exact hcell m hm'

namespace Holding

variable {c : Cons} {taken : List UInt8} {l : Line} (hc : Holding c taken l)
include hc

/-- The committed characters are those taken and those between `r` and `w`. -/
theorem committed_eq : l.committed = taken ++ c.between c.r c.w := by
  obtain ⟨unread, hcommitted, hring⟩ := hc.queue
  have hw := hc.w
  have hbound := hring.bound
  rw [hcommitted, List.length_append] at hw
  rw [List.length_append] at hbound
  simp only [INPUT_BUF_SIZE] at hbound
  rw [between_eq hc.r hw (by omega) hring.take.cell, hcommitted]

/-- The line is between `w` and `e`. -/
theorem pending_eq : l.pending = c.between c.w c.e := by
  obtain ⟨unread, hcommitted, hring⟩ := hc.queue
  obtain ⟨hlow, hhigh⟩ := hc.bounds
  simp only [INPUT_BUF_SIZE] at hhigh
  symm
  apply between_eq hc.w hc.e (by omega)
  intro m hm
  have hcell := hring.cell (unread.length + m) (by rw [List.length_append]; omega)
  rw [hcommitted, List.length_append, Nat.add_assoc, hcell, List.getElem_append_right (by omega)]
  simp

end Holding

/-! ## Runs -/

/-- The place has the argument and what is left of it. -/
def Pc.args : Pc → Option (UInt32 × Int32)
  | .loop target n | .asleep target n | .woken target n | .done target n => some (target, n)
  | .idle _ | .read _ => none

/-- The invariant of a run. -/
structure Sound (s : Sys) (h : History) : Prop where
  holding : Holding s.cons (h.taken.map Taken.byte) h.line
  data : ∀ p ch, .data p ch ∈ h.taken → ch ≠ C 'D'
  boundary : ∀ p ch, .boundary p ch ∈ h.taken → ch = C 'D'
  left : ∀ p target n, (s.pc p).args = some (target, n) → n.toUInt32 ≤ target

variable {s s' : Sys} {h : History} {p : Caller}

theorem args_wake (pc : Pc) : pc.wake.args = pc.args := by
  cases pc <;> rfl

/-- A step that only moves processes. -/
theorem Sound.move (t : Sys) (hs : Sound s h) (hcons : t.cons = s.cons)
    (hpc : ∀ p target n, (t.pc p).args = some (target, n) →
      (s.pc p).args = some (target, n) ∨ n.toUInt32 = target) : Sound t h := by
  refine ⟨hcons ▸ hs.holding, hs.data, hs.boundary, ?_⟩
  intro p target n hargs
  rcases hpc p target n hargs with hold | hnew
  · exact hs.left p target n hold
  · exact UInt32.le_of_eq hnew

/-- One process goes on at a place with the same arguments. -/
theorem Sound.go (hs : Sound s h) (hcons : s'.cons = s.cons) (hpc : s'.pc = update s.pc p pc)
    (hargs : ∀ target n, pc.args = some (target, n) →
      (s.pc p).args = some (target, n) ∨ n.toUInt32 = target) :
    Sound s' (h.record s (.go p e) s') := by
  have hsame : h.record s (.go p e) s' = h := if_pos (by rw [hcons])
  rw [hsame]
  apply hs.move _ hcons
  intro q target n hq
  rw [hpc] at hq
  by_cases hqp : q = p
  · subst hqp
    rw [update_self] at hq
    exact hargs target n hq
  · rw [update_of_ne hqp] at hq
    exact Or.inl hq

/-- A reader takes a character. -/
theorem Sound.take (hs : Sound s h) (hne : s.cons.r ≠ s.cons.w) {item : Taken}
    (hbyte : item.byte = s.cons.byte s.cons.r) (hdata : ∀ q ch, item = .data q ch → ch ≠ C 'D')
    (hboundary : ∀ q ch, item = .boundary q ch → ch = C 'D')
    (hargs : ∀ target n, pc.args = some (target, n) → n.toUInt32 ≤ target) :
    Sound (s.take.setPc p pc) { h with taken := h.taken ++ [item] } := by
  constructor
  case holding =>
    rw [List.map_append, List.map_singleton, hbyte]
    exact hs.holding.take hne
  case data =>
    intro q ch hmem
    rcases List.mem_append.mp hmem with hmem | hmem
    · exact hs.data q ch hmem
    · exact hdata q ch (List.mem_singleton.mp hmem).symm
  case boundary =>
    intro q ch hmem
    rcases List.mem_append.mp hmem with hmem | hmem
    · exact hs.boundary q ch hmem
    · exact hboundary q ch (List.mem_singleton.mp hmem).symm
  case left =>
    intro q target n hq
    by_cases hqp : q = p
    · subst hqp
      simp only [Sys.setPc, update_self] at hq
      exact hargs target n hq
    · simp only [Sys.setPc, update_of_ne hqp] at hq
      exact hs.left q target n hq

theorem succ_ne (r : UInt32) : r + 1 ≠ r := by
  intro heq
  have hnat := congrArg UInt32.toNat heq
  rw [UInt32.toNat_add, UInt32.toNat_one] at hnat
  have hlt := r.toNat_lt
  omega

theorem record_boundary (hleft : pc.left = (s.pc p).left) :
    h.record s (.go p e) (s.take.setPc p pc) =
      { h with taken := h.taken ++ [.boundary p (s.cons.byte s.cons.r)] } := by
  have hpc : (s.take.setPc p pc).pc p = pc := update_self _ _ _
  simp only [History.record, hpc, hleft]
  exact if_neg (succ_ne _)

theorem record_data (hleft : pc.left ≠ (s.pc p).left) : h.record s (.go p e) (s.take.setPc p pc) =
      { h with taken := h.taken ++ [.data p (s.cons.byte s.cons.r)] } := by
  have hpc : (s.take.setPc p pc).pc p = pc := update_self _ _ _
  simp only [History.record, hpc, hleft]
  exact if_neg (succ_ne _)

/-- What is left of the argument stays below it. -/
theorem pred_le (hpos : 0 < n) (hle : n.toUInt32 ≤ target) :
    (n - 1).toUInt32 ≤ target ∧ n - 1 ≠ n := by
  have hne : n.toUInt32.toNat ≠ 0 := by
    intro hzero
    have hn : n = 0 := congrArg Int32.ofUInt32 (UInt32.toNat_inj.mp hzero)
    rw [hn] at hpos
    exact absurd hpos (by decide)
  have hsub : (n - 1).toUInt32.toNat = n.toUInt32.toNat - 1 := by
    have hone : (Int32.toUInt32 1).toNat = 1 := rfl
    have hlt := n.toUInt32.toNat_lt
    rw [Int32.toUInt32_sub, UInt32.toNat_sub, hone]
    omega
  constructor
  · rw [UInt32.le_iff_toNat_le] at *
    omega
  · intro heq
    rw [heq] at hsub
    omega

theorem Sound.pass (hs : Sound s h) (hpc : s.pc p = .loop target n) (hout : e.copyout = true) :
    Sound (pass s p e target n) (h.record s (.go p e) (pass s p e target n)) := by
  have hargs : (s.pc p).args = some (target, n) := by rw [hpc]; rfl
  have hle := hs.left p target n hargs
  unfold Console.pass
  split
  · rename_i hpos
    obtain ⟨hle', hne'⟩ := pred_le hpos hle
    split
    · split
      · exact hs.go rfl rfl nofun
      · exact hs.go rfl rfl (fun _ _ heq => Or.inl (hargs.trans heq))
    · rename_i hsome
      dsimp only
      split
      · rename_i hch
        split
        · exact hs.go rfl rfl (fun _ _ heq => Or.inl (hargs.trans heq))
        · rw [record_boundary (by rw [hpc]; rfl)]
          apply hs.take hsome rfl
          · intro q ch heq
            cases heq
          · intro q ch heq
            cases heq
            exact hch
          · intro _ _ heq
            cases heq
            exact hle
      · rename_i hch
        rw [if_neg (by rw [hout]; decide)]
        have hleft : ∀ pc : Pc, pc.left = some (n - 1) → pc.left ≠ (s.pc p).left := by
          intro pc hn heq
          rw [hn, hpc] at heq
          exact hne' (Option.some.inj heq)
        split
        · rw [record_data (hleft _ rfl)]
          apply hs.take hsome rfl
          · intro q ch heq
            cases heq
            exact hch
          · intro q ch heq
            cases heq
          · intro _ _ heq
            cases heq
            exact hle'
        · rw [record_data (hleft _ rfl)]
          apply hs.take hsome rfl
          · intro q ch heq
            cases heq
            exact hch
          · intro q ch heq
            cases heq
          · intro _ _ heq
            cases heq
            exact hle'
  · exact hs.go rfl rfl (fun _ _ heq => Or.inl (hargs.trans heq))

theorem Sound.readStep (hs : Sound s h) (hout : e.copyout = true) (hnext : readStep s p e = some s')
    : Sound s' (h.record s (.go p e) s') := by
  have hacquire : ∀ {pc : Pc}, s.acquire p pc = some s' →
      s'.cons = s.cons ∧ s'.pc = update s.pc p pc := by
    intro pc hlock
    unfold Sys.acquire at hlock
    split at hlock
    · cases hlock
      exact ⟨rfl, rfl⟩
    · cases hlock
  unfold Console.readStep at hnext
  cases hpc : s.pc p with
  | idle ret =>
    rw [hpc] at hnext
    cases hnext
  | asleep target n =>
    rw [hpc] at hnext
    cases hnext
  | read n =>
    rw [hpc] at hnext
    obtain ⟨hcons, hmove⟩ := hacquire hnext
    apply hs.go hcons hmove
    intro target m heq
    cases heq
    exact Or.inr rfl
  | loop target n =>
    rw [hpc] at hnext
    cases hnext
    exact hs.pass hpc hout
  | woken target n =>
    rw [hpc] at hnext
    obtain ⟨hcons, hmove⟩ := hacquire hnext
    apply hs.go hcons hmove
    intro target' m heq
    rw [hpc]
    exact Or.inl heq
  | done target n =>
    rw [hpc] at hnext
    cases hnext
    exact hs.go rfl rfl (fun _ _ heq => nomatch heq)

theorem Sound.intr (hs : Sound s h) (hnext : next s (.intr ch) = some s') :
    Sound s' (h.record s (.intr ch) s') := by
  have hholding := hs.holding.intr ch
  rw [List.length_map] at hholding
  unfold next at hnext
  dsimp only at hnext
  obtain ⟨-, ⟨⟩⟩ := Option.ite_none_right_eq_some.mp hnext
  split
  · refine ⟨hholding, hs.data, hs.boundary, ?_⟩
    intro p target n hargs
    apply hs.left p target n
    rw [← args_wake]
    exact hargs
  · exact ⟨hholding, hs.data, hs.boundary, hs.left⟩

theorem Sound.step (hs : Sound s h) {l : Step} (hok : CopiesOut l) (hnext : next s l = some s') :
    Sound s' (h.record s l s') := by
  cases l with
  | intr ch => exact hs.intr hnext
  | go p e => exact hs.readStep hok hnext
  | kill p =>
    obtain rfl := Option.some.inj hnext
    refine hs.move (s.setPc p (s.pc p).wake) rfl ?_
    intro q target n hq
    left
    by_cases hqp : q = p
    · subst hqp
      simpa only [Sys.setPc, update_self, args_wake] using hq
    · simpa only [Sys.setPc, update_of_ne hqp] using hq
  | read p n =>
    unfold next at hnext
    dsimp only at hnext
    split at hnext
    · obtain rfl := Option.some.inj hnext
      refine hs.move (s.setPc p (.read n)) rfl ?_
      intro q target m hq
      left
      by_cases hqp : q = p
      · subst hqp
        simp only [Sys.setPc, update_self] at hq
        cases hq
      · simpa only [Sys.setPc, update_of_ne hqp] using hq
    · cases hnext

/-- A fresh console, and nothing has been typed. -/
def Started (x : Sys × History) : Prop := Fresh x.1 ∧ x.2 = History.start

theorem Fresh.sound (hs : Fresh s) : Sound s History.start := by
  obtain ⟨hr, hw, he, -, hpc⟩ := hs
  constructor
  case holding =>
    refine ⟨⟨[], rfl, Ring.nil⟩, ?_, ?_, ?_, List.not_mem_nil⟩
    · rw [hr]
      exact Counts.zero
    · rw [hw]
      exact Counts.zero
    · rw [he]
      exact Counts.zero
  case data => exact fun _ _ hmem => nomatch hmem
  case boundary => exact fun _ _ hmem => nomatch hmem
  case left =>
    intro p target n hargs
    rw [hpc] at hargs
    cases hargs

/-- The call of `p` finds a Control-D. -/
def AtBoundary (s : Sys) (p : Caller) (target : UInt32) (n : Int32) : Prop :=
  s.pc p = .loop target n ∧ 0 < n ∧ s.cons.r ≠ s.cons.w ∧ s.cons.byte s.cons.r = C 'D'

/-- At a Control-D the call ends.  With no characters copied, it takes the
Control-D and returns 0, and otherwise it leaves it. -/
def EndsAt (x y : Sys × History) (p : Caller) (target : UInt32) (n : Int32) : Prop :=
  y.1.pc p = .done target n ∧
    (n.toUInt32 = target ∧ result target n = 0 ∧ y.2.taken = x.2.taken ++ [.boundary p (C 'D')] ∨
      n.toUInt32 < target ∧ y.2.taken = x.2.taken ∧ y.1.cons = x.1.cons)

theorem Sound.endsAt (hs : Sound s h) (hat : AtBoundary s p target n)
    (hnext : next s (.go p e) = some s') :
    EndsAt (s, h) (s', h.record s (.go p e) s') p target n := by
  obtain ⟨hpc, hpos, hsome, hch⟩ := hat
  have hle := hs.left p target n (by rw [hpc]; rfl)
  have hpass : Console.pass s p e target n = s' := by
    simp only [next, Console.readStep, hpc] at hnext
    exact Option.some.inj hnext
  unfold Console.pass at hpass
  rw [if_pos hpos, if_neg hsome] at hpass
  dsimp only at hpass
  rw [if_pos hch] at hpass
  split at hpass
  · rename_i hlt
    subst hpass
    refine ⟨update_self _ _ _, Or.inr ⟨hlt, ?_, rfl⟩⟩
    exact congrArg History.taken (if_pos rfl)
  · rename_i hge
    subst hpass
    have heq : n.toUInt32 = target := by
      rw [← UInt32.toNat_inj]
      rw [UInt32.lt_iff_toNat_lt] at hge
      rw [UInt32.le_iff_toNat_le] at hle
      omega
    refine ⟨update_self _ _ _, Or.inl ⟨heq, ?_, ?_⟩⟩
    · rw [result, heq, UInt32.sub_self]
      rfl
    · rw [record_boundary (by rw [hpc]; rfl), hch]

theorem killLoop_kept (k : Nat) (c : Cons) : (Cons.killLoop k c).buf = c.buf ∧
    (Cons.killLoop k c).r = c.r ∧ (Cons.killLoop k c).w = c.w := by
  induction k generalizing c with
  | zero => exact ⟨rfl, rfl, rfl⟩
  | succ k ih =>
    unfold Cons.killLoop
    split
    · exact ih _
    · exact ⟨rfl, rfl, rfl⟩

/-- Erasing changes neither the buffer nor what is committed. -/
theorem erase_kept (hch : ch = C 'H' ∨ ch = delete ∨ ch = C 'U')
    (hnext : next s (.intr ch) = some s') :
    s'.cons.buf = s.cons.buf ∧ s'.cons.r = s.cons.r ∧ s'.cons.w = s.cons.w := by
  have hkept : (s.cons.intr ch).1.buf = s.cons.buf ∧ (s.cons.intr ch).1.r = s.cons.r ∧
      (s.cons.intr ch).1.w = s.cons.w := by
    unfold Cons.intr
    rcases hch with rfl | rfl | rfl
    · rw [if_neg (by decide), if_neg (by decide), if_pos (by decide)]
      unfold Cons.erase
      split <;> exact ⟨rfl, rfl, rfl⟩
    · rw [if_neg (by decide), if_neg (by decide), if_pos (by decide)]
      unfold Cons.erase
      split <;> exact ⟨rfl, rfl, rfl⟩
    · rw [if_neg (by decide), if_pos rfl]
      exact killLoop_kept _ _
  unfold next at hnext
  dsimp only at hnext
  obtain ⟨-, ⟨⟩⟩ := Option.ite_none_right_eq_some.mp hnext
  split
  · exact hkept
  · exact hkept

/-- In every run with valid buffers: the counters are in order, modulo
`2 ^ 32`.  The committed characters are those that the readers took and then
those between `r` and `w`, and the line under the cursor is between `w` and
`e`.  A Control-D is never data, and at each one a call ends.  Erasing changes
no committed character. -/
theorem console_lines (x : Sys × History)
    (hx : ReachWhen (fun _ l => CopiesOut l) (instrument next History.record) Started x) :
    ((x.1.cons.w - x.1.cons.r).toNat ≤ (x.1.cons.e - x.1.cons.r).toNat ∧
      (x.1.cons.e - x.1.cons.r).toNat ≤ INPUT_BUF_SIZE) ∧
    x.2.line.committed = x.2.taken.map Taken.byte ++ x.1.cons.between x.1.cons.r x.1.cons.w ∧
    x.2.line.pending = x.1.cons.between x.1.cons.w x.1.cons.e ∧
    (∀ p ch, .data p ch ∈ x.2.taken → ch ≠ C 'D') ∧
    (∀ p ch, .boundary p ch ∈ x.2.taken → ch = C 'D') ∧
    (∀ p e y target n, AtBoundary x.1 p target n →
      instrument next History.record x (.go p e) = some y → EndsAt x y p target n) ∧
    ∀ ch s', ch = C 'H' ∨ ch = delete ∨ ch = C 'U' → next x.1 (.intr ch) = some s' →
      s'.cons.buf = x.1.cons.buf ∧ s'.cons.r = x.1.cons.r ∧ s'.cons.w = x.1.cons.w := by
  have hs : Sound x.1 x.2 := by
    apply hx.invariant (I := fun x => Sound x.1 x.2)
    · intro x hstart
      rw [hstart.2]
      exact hstart.1.sound
    · intro x l y hs hok hnext
      obtain ⟨hstep, hrec⟩ := instrument_eq_some hnext
      rw [hrec]
      exact hs.step hok hstep
  refine ⟨hs.holding.ordered, hs.holding.committed_eq, hs.holding.pending_eq, hs.data, hs.boundary,
    ?_, ?_⟩
  · intro p e y target n hat hnext
    obtain ⟨hstep, hrec⟩ := instrument_eq_some hnext
    have hend := hs.endsAt hat hstep
    rw [← hrec] at hend
    exact hend
  · intro ch s' hch hnext
    exact erase_kept hch hnext

/-- A console that nobody has used. -/
def freshSys : Sys := ⟨⟨fun _ => 0, 0, 0, 0⟩, none, fun _ => .idle none⟩

/-- Somebody types two characters, erases the second one, types another and
Control-D, and process 1 reads. -/
def typeRun : List Step :=
  [.intr 97, .intr 98, .intr (C 'H'), .intr 99, .intr (C 'D'), .read 1 10] ++
    List.replicate 5 (.go 1 ⟨false, true⟩)

theorem console_lines_typeRun : ∃ x,
    ReachWhen (fun _ l => CopiesOut l) (instrument next History.record) Started x ∧
      x.2.taken = [.data 1 97, .data 1 99] ∧
      x.2.line.committed = [97, 99] ++ x.1.cons.between x.1.cons.r x.1.cons.w := by
  obtain ⟨x, hx, htaken⟩ : ∃ x,
      ReachWhen (fun _ l => CopiesOut l) (instrument next History.record) Started x ∧
        x.2.taken = [.data 1 97, .data 1 99] :=
    exists_reachWhen_of_run typeRun (s := (freshSys, History.start))
      ⟨⟨rfl, rfl, rfl, rfl, fun _ => rfl⟩, rfl⟩ (by decide +kernel)
  have hcommitted := (console_lines x hx).2.1
  rw [htaken] at hcommitted
  exact ⟨x, hx, htaken, hcommitted⟩

end Xv6.Console
