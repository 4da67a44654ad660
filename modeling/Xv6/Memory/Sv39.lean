import Mathlib.Tactic.IntervalCases
import Xv6.Memory.UserMemory
import Xv6.Memory.Words

/-!
# Page tables in memory

`walk`, `mappages` and `uvmunmap` of `kernel/vm.c` on the words of the table
pages.  A pointer to a page-table entry is the page it is in and its index.

`leaf` is the map that a table in memory is: the valid leaf entries, by
virtual page.  `Tables` says that the pages of the table are distinct and
allocated.  A store into a leaf entry changes the map at one page, because the
index of a page in the three levels determines the page, and a new table page
changes it nowhere.  `pagetable_map` puts this together for `mappages` and
`uvmunmap`.
-/

namespace Xv6.Memory.Sv39

open Xv6.Lib Function

/-! ## The functions -/

/-- `PTE_V`. -/
def PTE_V : Nat := 1

/-- `PA2PTE`. -/
def pa2pte (pa : Nat) : Nat := (pa >>> 12) <<< 10

/-- `PTE2PA`. -/
def pte2pa (pte : Nat) : Nat := (pte >>> 10) <<< 12 % 2 ^ 64

/-- `PTE_FLAGS`. -/
def pteFlags (pte : Nat) : Nat := pte &&& 0x3FF

/-- `PX`. -/
def px (level va : Nat) : Nat := (va >>> (12 + 9 * level)) &&& 0x1FF

/-- `*pte`. -/
def entry (m : Mem) (pte : Frame × Nat) : Nat := loadWord (m.bytes pte.1) pte.2

/-- `*pte = w`. -/
def setEntry (pte : Frame × Nat) (w : Nat) (m : Mem) : Mem :=
  m.write pte.1 (storeWord (m.bytes pte.1) pte.2 w)

/-- The page with the address that an entry holds. -/
def pageOf (pte : Nat) : Frame := pte2pa pte / PGSIZE

/-- The loop of `walk`, from `level` down. -/
def walkLoop (alloc : Bool) (va : Nat) : Nat → Frame → Mem →
    Except Panic (Option (Frame × Nat) × Mem)
  | 0, pagetable, m => .ok (some (pagetable, px 0 va), m)
  | level + 1, pagetable, m =>
      let pte := (pagetable, px (level + 1) va)
      if entry m pte &&& PTE_V ≠ 0 then walkLoop alloc va level (pageOf (entry m pte)) m
      else if alloc = false then .ok (none, m)
      else do
        let (r, m) ← kalloc m
        match r with
        | none => .ok (none, m)
        | some f =>
            walkLoop alloc va level f
              (setEntry pte (pa2pte (f * PGSIZE) ||| PTE_V) (m.write f zeroPage))

/-- `walk`. -/
def walk (pagetable : Frame) (va : Nat) (alloc : Bool) (m : Mem) :
    Except Panic (Option (Frame × Nat) × Mem) :=
  if va ≥ MAXVA then .error (.msg "walk") else walkLoop alloc va 2 pagetable m

/-- The loop of `mappages`.  `walk` panics before the first argument is 0. -/
def mappagesLoop (pagetable : Frame) (last perm : Nat) : Nat → Nat → Nat → Mem →
    Except Panic (Bool × Mem)
  | 0, _, _, _ => .error (.msg "walk")
  | n + 1, a, pa, m => do
      let (pte, m) ← walk pagetable a true m
      match pte with
      | none => .ok (false, m)
      | some pte =>
          if entry m pte &&& PTE_V ≠ 0 then .error (.msg "mappages: remap")
          else
            let m := setEntry pte (pa2pte pa ||| perm ||| PTE_V) m
            if a = last then .ok (true, m)
            else
              mappagesLoop pagetable last perm n ((a + PGSIZE) % 2 ^ 64) ((pa + PGSIZE) % 2 ^ 64) m

/-- `mappages`.  The result says whether it is 0. -/
def mappages (pagetable : Frame) (va size pa perm : Nat) (m : Mem) : Except Panic (Bool × Mem) :=
  if size = 0 then .error (.msg "mappages: size")
  else
    mappagesLoop pagetable (pgrounddown ((va + size - 1) % 2 ^ 64)) perm (MAXVPN + 1)
      (pgrounddown va) pa m

/-- The loop of `uvmunmap`, up to `stop`.  `walk` panics before the first
argument is 0. -/
def uvmunmapLoop (L : Layout) (pagetable : Frame) (doFree : Bool) (stop : Nat) : Nat → Nat → Mem →
    Except Panic Mem
  | 0, _, _ => .error (.msg "walk")
  | n + 1, a, m =>
      if a < stop then do
        let (pte, m) ← walk pagetable a false m
        match pte with
        | none => .error (.msg "uvmunmap: walk")
        | some pte =>
            if entry m pte &&& PTE_V = 0 then .error (.msg "uvmunmap: not mapped")
            else if pteFlags (entry m pte) = PTE_V then .error (.msg "uvmunmap: not a leaf")
            else do
              let m ← if doFree then kfree L (pageOf (entry m pte)) m else .ok m
              uvmunmapLoop L pagetable doFree stop n ((a + PGSIZE) % 2 ^ 64) (setEntry pte 0 m)
      else .ok m

/-- `uvmunmap`. -/
def uvmunmap (L : Layout) (pagetable : Frame) (va npages : Nat) (doFree : Bool) (m : Mem) :
    Except Panic Mem :=
  if va % PGSIZE ≠ 0 then .error (.msg "uvmunmap: not aligned")
  else
    uvmunmapLoop L pagetable doFree ((va + npages * PGSIZE) % 2 ^ 64) (MAXVPN + 1) va m

/-- What `walk` finds for an address: the physical address and the flags. -/
def lookup (pagetable : Frame) (va : Nat) (m : Mem) : Option (Nat × Nat) :=
  match walk pagetable va false m with
  | .ok (some pte, m) =>
      if entry m pte &&& PTE_V = 0 then none
      else some (pte2pa (entry m pte), pteFlags (entry m pte))
  | _ => none

/-! ## Entries -/

section Entries

variable {m : Mem} {p q : Frame × Nat} {w : Nat}

theorem entry_setEntry (hp : p.2 < 512) (hw : w < 2 ^ 64) : entry (setEntry p w m) p = w := by
  show loadWord (update m.bytes p.1 _ p.1) p.2 = w
  rw [update_self, loadWord_storeWord _ hp, Nat.mod_eq_of_lt hw]

theorem entry_setEntry_of_ne (hq : q.2 < 512) (hne : q ≠ p) :
    entry (setEntry p w m) q = entry m q := by
  show loadWord (update m.bytes p.1 _ q.1) q.2 = loadWord (m.bytes q.1) q.2
  by_cases hf : q.1 = p.1
  · have hi : q.2 ≠ p.2 := fun hi => hne (Prod.ext hf hi)
    rw [hf, update_self, loadWord_storeWord_of_ne _ hq hi]
  · rw [update_of_ne hf]

theorem entry_of_bytes {m' : Mem} (h : m'.bytes p.1 = m.bytes p.1) : entry m' p = entry m p := by
  rw [entry, entry, h]

theorem entry_zeroPage (f : Frame) (i : Nat) : entry (m.write f zeroPage) (f, i) = 0 := by
  show loadWord (update m.bytes f zeroPage f) i = 0
  rw [update_self]
  rfl

theorem valid_iff : w &&& PTE_V ≠ 0 ↔ w % 2 = 1 := by
  rw [PTE_V, Nat.and_one_is_mod]
  omega

/-- An entry that `mappages` or `walk` stores, as a number. -/
theorem pte_eq (pa : Nat) {perm : Nat} (hperm : perm < 2 ^ 10) :
    pa2pte pa ||| perm ||| PTE_V = pa / 2 ^ 12 * 2 ^ 10 + (perm ||| PTE_V) := by
  have hlt : perm ||| PTE_V < 2 ^ 10 := Nat.or_lt_two_pow hperm (by decide)
  rw [Nat.or_assoc, pa2pte, ← Nat.shiftLeft_add_eq_or_of_lt hlt, Nat.shiftLeft_eq,
    Nat.shiftRight_eq_div_pow]

theorem pte2pa_eq (w : Nat) : pte2pa w = w / 2 ^ 10 * 2 ^ 12 % 2 ^ 64 := by
  rw [pte2pa, Nat.shiftLeft_eq, Nat.shiftRight_eq_div_pow]

theorem pteFlags_eq (w : Nat) : pteFlags w = w % 2 ^ 10 := Nat.and_two_pow_sub_one_eq_mod w 10

theorem or_valid (perm : Nat) : (perm ||| PTE_V) % 2 = 1 := by
  rw [← Nat.and_one_is_mod, PTE_V, Nat.and_or_distrib_right, Nat.and_self]
  have hle : perm &&& 1 ≤ 1 := Nat.and_le_right
  interval_cases perm &&& 1 <;> rfl

/-- The entry for a table page. -/
theorem pageOf_pte {n : Nat} (hn : n < 2 ^ 52) : pageOf (n * 2 ^ 10 + 1) = n := by
  rw [pageOf, pte2pa_eq]
  show (n * 2 ^ 10 + 1) / 2 ^ 10 * 2 ^ 12 % 2 ^ 64 / 4096 = n
  omega

end Entries

/-! ## Tables -/

/-- A place in the tree of tables. -/
inductive Node
  | root
  | mid (i : Nat)
  | low (i j : Nat)
  deriving DecidableEq

/-- The table below an entry. -/
def below (m : Mem) (f : Frame) (i : Nat) : Option Frame :=
  if entry m (f, i) % 2 = 1 then some (pageOf (entry m (f, i))) else none

/-- The table at a place. -/
def table (m : Mem) (root : Frame) : Node → Option Frame
  | .root => some root
  | .mid i => below m root i
  | .low i j => (below m root i).bind (fun f => below m f j)

/-- The places that addresses below `MAXVA` lead to. -/
def Node.Used : Node → Prop
  | .root => True
  | .mid i => i < 256
  | .low i j => i < 256 ∧ j < 512

/-- The place of the last table for a virtual page. -/
def Node.last (v : Nat) : Node := .low (Memory.px 2 v) (Memory.px 1 v)

/-- The valid leaf entry of a virtual page. -/
def leaf (m : Mem) (root : Frame) (v : Nat) : Option Nat :=
  if v < MAXVPN then
    (table m root (.last v)).bind (fun f =>
      if entry m (f, Memory.px 0 v) % 2 = 1 then some (entry m (f, Memory.px 0 v)) else none)
  else none

/-- The pages of the table are distinct and allocated. -/
structure Tables (L : Layout) (m : Mem) (root : Frame) : Prop where
  ok : Ok L m
  held : ∀ n f, n.Used → table m root n = some f → 1 ≤ m.refcnt f
  distinct : ∀ n n' f, n.Used → n'.Used → table m root n = some f → table m root n' = some f →
    n = n'

theorem px_lt (level v : Nat) : Memory.px level v < 512 := Nat.mod_lt _ (by decide)

theorem Node.last_used {v : Nat} (hv : v < MAXVPN) : (Node.last v).Used := by
  refine ⟨?_, px_lt 1 v⟩
  unfold Memory.px
  rw [MAXVPN_eq] at hv
  omega

theorem Node.last_inj {v v' : Nat} (hv : v < MAXVPN) (hv' : v' < MAXVPN)
    (hlast : Node.last v' = Node.last v) (hpx : Memory.px 0 v' = Memory.px 0 v) : v' = v := by
  obtain ⟨h2, h1⟩ := Node.low.inj hlast
  unfold Memory.px at *
  rw [MAXVPN_eq] at hv hv'
  omega

section Frame

variable {L : Layout} {m m' : Mem} {root : Frame}

theorem below_congr {f : Frame} {i : Nat} (h : entry m' (f, i) = entry m (f, i)) :
    below m' f i = below m f i := by
  rw [below, below, h]

/-- The tables are where they were if the entries above the last level are
the same. -/
theorem table_congr (hroot : ∀ i, i < 256 → entry m' (root, i) = entry m (root, i))
    (hmid : ∀ i f j, i < 256 → j < 512 → table m root (.mid i) = some f →
      entry m' (f, j) = entry m (f, j)) (n : Node) (hn : n.Used) :
    table m' root n = table m root n := by
  cases n with
  | root => rfl
  | mid i => exact below_congr (hroot i hn)
  | low i j =>
    obtain ⟨hi, hj⟩ := hn
    rw [table, table, below_congr (hroot i hi)]
    cases hf : below m root i with
    | none => rw [Option.bind_none, Option.bind_none]
    | some f =>
      rw [Option.bind_some, Option.bind_some]
      exact below_congr (hmid i f j hi hj hf)

/-- The entry of a page is the same if its last table and the word there are. -/
theorem leaf_congr {v : Nat} (htable : v < MAXVPN → table m' root (.last v) = table m root (.last v))
    (hentry : ∀ f, v < MAXVPN → table m root (.last v) = some f →
      entry m' (f, Memory.px 0 v) = entry m (f, Memory.px 0 v)) :
    leaf m' root v = leaf m root v := by
  unfold leaf
  by_cases hv : v < MAXVPN
  · rw [if_pos hv, if_pos hv, htable hv]
    cases hf : table m root (.last v) with
    | none => rw [Option.bind_none, Option.bind_none]
    | some f => rw [Option.bind_some, Option.bind_some, hentry f hv hf]
  · rw [if_neg hv, if_neg hv]

/-- Nothing happens to the pages of the table. -/
theorem table_of_bytes (hbytes : ∀ n f, n.Used → table m root n = some f → m'.bytes f = m.bytes f) :
    (∀ n : Node, n.Used → table m' root n = table m root n) ∧ leaf m' root = leaf m root := by
  have htable : ∀ n : Node, n.Used → table m' root n = table m root n :=
    table_congr (fun i _ => entry_of_bytes (hbytes .root root trivial rfl))
      (fun i f j hi _ hf => entry_of_bytes (hbytes (.mid i) f hi hf))
  refine ⟨htable, ?_⟩
  funext v
  exact leaf_congr (fun hv => htable _ (Node.last_used hv))
    (fun f hv hf => entry_of_bytes (hbytes _ f (Node.last_used hv) hf))

/-- The tables stay where they are. -/
theorem Tables.congr (h : Tables L m root) (hok : Ok L m')
    (htable : ∀ n : Node, n.Used → table m' root n = table m root n)
    (hheld : ∀ n f, n.Used → table m root n = some f → 1 ≤ m'.refcnt f) : Tables L m' root := by
  refine ⟨hok, ?_, ?_⟩
  · intro n f hn hf
    exact hheld n f hn (htable n hn ▸ hf)
  · intro n n' f hn hn' hf hf'
    exact h.distinct n n' f hn hn' (htable n hn ▸ hf) (htable n' hn' ▸ hf')

/-! ## A store into a leaf entry -/

/-- The tables after a store into an entry of the last level. -/
theorem Tables.table_setLeaf (h : Tables L m root) {v : Nat} (hv : v < MAXVPN) {t : Frame}
    (ht : table m root (.last v) = some t) (i w : Nat) (n : Node) (hn : n.Used) :
    table (setEntry (t, i) w m) root n = table m root n := by
  have hother : ∀ n f, n.Used → n ≠ .last v → table m root n = some f → f ≠ t := by
    rintro n f hn hne hf rfl
    exact hne (h.distinct n _ f hn (Node.last_used hv) hf ht)
  refine table_congr ?_ ?_ n hn
  · intro k hk
    have hne := hother .root root trivial (by rintro ⟨⟩) rfl
    exact entry_setEntry_of_ne (show k < 512 by omega) (fun he => hne (Prod.ext_iff.mp he).1)
  · intro k f j hk hj hf
    have hne := hother (.mid k) f hk (by rintro ⟨⟩) hf
    exact entry_setEntry_of_ne hj (fun he => hne (Prod.ext_iff.mp he).1)

/-- The map after it. -/
theorem Tables.leaf_setLeaf (h : Tables L m root) {v : Nat} (hv : v < MAXVPN) {t : Frame}
    (ht : table m root (.last v) = some t) {w : Nat} (hw : w < 2 ^ 64) :
    leaf (setEntry (t, Memory.px 0 v) w m) root =
      update (leaf m root) v (if w % 2 = 1 then some w else none) := by
  have htable := h.table_setLeaf hv ht (Memory.px 0 v) w
  funext v'
  by_cases he : v' = v
  · rw [he, update_self, leaf, if_pos hv, htable _ (Node.last_used hv), ht,
      Option.bind_some, entry_setEntry (px_lt 0 v) hw]
  · rw [update_of_ne he]
    refine leaf_congr (fun hv' => htable _ (Node.last_used hv')) ?_
    intro f hv' hf
    refine entry_setEntry_of_ne (px_lt 0 v') ?_
    intro heq
    obtain ⟨hft, hpx⟩ := Prod.mk.inj heq
    have hlast := h.distinct _ _ t (Node.last_used hv') (Node.last_used hv) (hft ▸ hf) ht
    exact he (Node.last_inj hv hv' hlast hpx)

theorem Tables.setLeaf (h : Tables L m root) {v : Nat} (hv : v < MAXVPN) {t : Frame}
    (ht : table m root (.last v) = some t) (i w : Nat) : Tables L (setEntry (t, i) w m) root := by
  exact h.congr ⟨h.ok.nodup, h.ok.free_iff, h.ok.unmanaged⟩ (h.table_setLeaf hv ht i w) h.held

/-! ## A new table -/

/-- The place below an entry. -/
def Node.child : Node → Nat → Node
  | .root, i => .mid i
  | .mid i, j => .low i j
  | .low i j, _ => .low i j

/-- The entry `i` of the table `t` gets a new table `f` of zeroes. -/
structure Extends (m m' : Mem) (t : Frame) (i : Nat) (f : Frame) : Prop where
  new : below m' t i = some f
  zero : ∀ j, j < 512 → entry m' (f, j) = 0
  same : ∀ g j, j < 512 → g ≠ f → (g, j) ≠ (t, i) → entry m' (g, j) = entry m (g, j)

section New

variable {t f : Frame} {n : Node} {i : Nat}

theorem Tables.ne_of_fresh (h : Tables L m root) (hfresh : m.refcnt f = 0) {n : Node} {g : Frame}
    (hn : n.Used) (hg : table m root n = some g) : g ≠ f := by
  rintro rfl
  have := h.held n g hn hg
  omega

theorem below_zero {g : Frame} {j : Nat} (h : entry m (g, j) = 0) : below m g j = none := by
  rw [below, h]
  exact if_neg (by decide)

/-- The tables below a table, after it. -/
theorem Extends.below_eq (he : Extends m m' t i f) {g : Frame} {j : Nat} (hj : j < 512)
    (hg : g ≠ f) : below m' g j = if (g, j) = (t, i) then some f else below m g j := by
  by_cases hgj : (g, j) = (t, i)
  · obtain ⟨rfl, rfl⟩ := Prod.mk.inj hgj
    rw [if_pos rfl]
    exact he.new
  · rw [if_neg hgj]
    exact below_congr (he.same g j hj hg hgj)

variable (he : Extends m m' t i f) (h : Tables L m root) (hfresh : m.refcnt f = 0) (hn : n.Used)
  (hlast : ∀ i j, n ≠ .low i j) (ht : table m root n = some t) (hnone : below m t i = none)
include he h hfresh hn hlast ht hnone

/-- The tables after it. -/
theorem Extends.table_eq (n' : Node) (hn' : n'.Used) :
    table m' root n' = if n' = n.child i then some f else table m root n' := by
  have hroot : root ≠ f := h.ne_of_fresh hfresh (n := .root) trivial rfl
  -- the changed table is at one place
  have hplace : ∀ n1 g, n1.Used → table m root n1 = some g → (g = t ↔ n1 = n) := by
    intro n1 g hn1 hg
    refine ⟨?_, ?_⟩
    · rintro rfl
      exact h.distinct n1 n g hn1 hn hg ht
    · rintro rfl
      exact Option.some.inj (hg.symm.trans ht)
  have hmid : ∀ k, k < 256 → table m' root (.mid k) =
      if Node.mid k = n.child i then some f else table m root (.mid k) := by
    intro k hk
    rw [table, he.below_eq (show k < 512 by omega) hroot]
    refine if_congr ?_ rfl rfl
    rw [Prod.mk.injEq, hplace .root root trivial rfl]
    cases n with
    | root => simp [Node.child]
    | mid k' => simp [Node.child]
    | low k' j => exact absurd rfl (hlast k' j)
  cases n' with
  | root =>
    rw [if_neg]
    · rfl
    · cases n <;> rintro ⟨⟩
  | mid k => exact hmid k hn'
  | low k j =>
    obtain ⟨hk, hj⟩ := hn'
    have hlow : ∀ m, table m root (.low k j) = (table m root (.mid k)).bind (below m · j) :=
      fun _ => rfl
    rw [hlow, hlow, hmid k hk]
    by_cases hnew : Node.mid k = n.child i
    · -- the new table has no table below it
      have hold : table m root (.mid k) = none := by
        cases n with
        | root =>
          cases ht
          cases hnew
          exact hnone
        | mid k' => cases hnew
        | low k' j => exact absurd rfl (hlast k' j)
      have hne : Node.low k j ≠ n.child i := hnew ▸ nofun
      rw [if_pos hnew, if_neg hne, hold, Option.bind_some, Option.bind_none]
      exact below_zero (he.zero j hj)
    · rw [if_neg hnew]
      cases hg : table m root (.mid k) with
      | none =>
        have hne : Node.low k j ≠ n.child i := by
          rintro hlow
          cases n with
          | root => cases hlow
          | mid k' =>
            cases hlow
            rw [hg] at ht
            cases ht
          | low k' j => exact absurd rfl (hlast k' j)
        rw [if_neg hne, Option.bind_none, Option.bind_none]
      | some g =>
        have hgf : g ≠ f := h.ne_of_fresh hfresh (n := .mid k) hk hg
        rw [Option.bind_some, Option.bind_some, he.below_eq hj hgf]
        refine if_congr ?_ rfl rfl
        rw [Prod.mk.injEq, hplace (.mid k) g hk hg]
        cases n with
        | root => simp [Node.child]
        | mid k' => simp [Node.child]
        | low k' j => exact absurd rfl (hlast k' j)

/-- The map after it. -/
theorem Extends.leaf_eq : leaf m' root = leaf m root := by
  funext v
  unfold leaf
  by_cases hv : v < MAXVPN
  · rw [if_pos hv, if_pos hv,
      he.table_eq h hfresh hn hlast ht hnone _ (Node.last_used hv)]
    by_cases hc : Node.last v = n.child i
    · -- the table was not there, and the new one has no valid entry
      have hold : table m root (.last v) = none := by
        cases n with
        | root => cases hc
        | mid k =>
          have ht' : below m root k = some t := ht
          rw [hc, Node.child, table, ht', Option.bind_some]
          exact hnone
        | low k j => exact absurd rfl (hlast k j)
      rw [if_pos hc, hold, Option.bind_some, Option.bind_none, he.zero _ (px_lt 0 v)]
      exact if_neg (by decide)
    · rw [if_neg hc]
      cases hg : table m root (.last v) with
      | none => rw [Option.bind_none, Option.bind_none]
      | some g =>
        have hgf : g ≠ f := h.ne_of_fresh hfresh (Node.last_used hv) hg
        have hgt : g ≠ t := by
          rintro rfl
          exact hlast _ _ (h.distinct n _ g hn (Node.last_used hv) ht hg)
        rw [Option.bind_some, Option.bind_some,
          he.same g _ (px_lt 0 v) hgf (fun heq => hgt (Prod.mk.inj heq).1)]
  · rw [if_neg hv, if_neg hv]

theorem Extends.tables (hok : Ok L m') (hcount : ∀ g, m'.refcnt g = m.refcnt g + one f g) :
    Tables L m' root := by
  have htable := he.table_eq h hfresh hn hlast ht hnone
  have hcases : ∀ n' g, n'.Used → table m' root n' = some g →
      (n' = n.child i ∧ g = f) ∨ (n' ≠ n.child i ∧ table m root n' = some g) := by
    intro n' g hn' hg
    rw [htable n' hn'] at hg
    by_cases hc : n' = n.child i
    · rw [if_pos hc] at hg
      exact Or.inl ⟨hc, (Option.some.inj hg).symm⟩
    · rw [if_neg hc] at hg
      exact Or.inr ⟨hc, hg⟩
  refine ⟨hok, ?_, ?_⟩
  · intro n' g hn' hg
    rw [hcount g]
    rcases hcases n' g hn' hg with ⟨_, rfl⟩ | ⟨_, hg⟩
    · rw [one_self]
      omega
    · have := h.held n' g hn' hg
      omega
  · intro n1 n2 g h1 h2 hg1 hg2
    rcases hcases n1 g h1 hg1 with ⟨rfl, rfl⟩ | ⟨_, hg1⟩
    · rcases hcases n2 g h2 hg2 with ⟨rfl, _⟩ | ⟨_, hg2⟩
      · rfl
      · exact absurd rfl (h.ne_of_fresh hfresh h2 hg2)
    · rcases hcases n2 g h2 hg2 with ⟨rfl, rfl⟩ | ⟨_, hg2⟩
      · exact absurd rfl (h.ne_of_fresh hfresh h1 hg1)
      · exact h.distinct n1 n2 g h1 h2 hg1 hg2

end New

end Frame

/-! ## `walk` -/

theorem px_eq (level va : Nat) : px level va = Memory.px level (va / PGSIZE) := by
  have hmask : px level va = va >>> (12 + 9 * level) % 2 ^ 9 := Nat.and_two_pow_sub_one_eq_mod _ 9
  rw [hmask, Nat.shiftRight_eq_div_pow, Nat.pow_add, ← Nat.div_div_eq_div_mul]
  rfl

/-- The place that `walk` has come to at a level. -/
def Node.at (v : Nat) : Nat → Node
  | 0 => .last v
  | 1 => .mid (Memory.px 2 v)
  | _ => .root

section Walk

variable {L : Layout} {m m' : Mem} {root t f : Frame} {v va level : Nat}

theorem Node.at_used (hv : v < MAXVPN) : ∀ level, (Node.at v level).Used
  | 0 => Node.last_used hv
  | 1 => (Node.last_used hv).1
  | _ + 2 => trivial

theorem Node.at_succ_ne (v level : Nat) (i j : Nat) : Node.at v (level + 1) ≠ .low i j := by
  cases level with
  | zero => rintro ⟨⟩
  | succ level => rintro ⟨⟩

theorem table_at (hlevel : level < 2) (ht : table m root (.at v (level + 1)) = some t) :
    table m root (.at v level) = below m t (Memory.px (level + 1) v) := by
  obtain rfl | rfl : level = 0 ∨ level = 1 := by omega
  · have ht' : below m root (Memory.px 2 v) = some t := ht
    rw [Node.at, Node.last, table, ht', Option.bind_some]
  · cases ht
    rfl

theorem Node.at_child (hlevel : level < 2) :
    (Node.at v (level + 1)).child (Memory.px (level + 1) v) = Node.at v level := by
  obtain rfl | rfl : level = 0 ∨ level = 1 := by omega
  · rfl
  · rfl

theorem table_last_none (h : table m root (.at v level) = none) :
    table m root (.last v) = none := by
  cases level with
  | zero => exact h
  | succ level =>
    cases level with
    | zero =>
      have h' : below m root (Memory.px 2 v) = none := h
      rw [Node.last, table, h', Option.bind_none]
    | succ level => cases h

theorem below_valid {i : Nat} (h : entry m (t, i) &&& PTE_V ≠ 0) :
    below m t i = some (pageOf (entry m (t, i))) := if_pos (valid_iff.mp h)

theorem below_invalid {i : Nat} (h : ¬ entry m (t, i) &&& PTE_V ≠ 0) : below m t i = none :=
  if_neg (mt valid_iff.mpr h)

/-- `walk` without `alloc`. -/
theorem walkLoop_find (hlevel : level ≤ 2) (ht : table m root (.at (va / PGSIZE) level) = some t) :
    walkLoop false va level t m =
      .ok ((table m root (.last (va / PGSIZE))).map (·, Memory.px 0 (va / PGSIZE)), m) := by
  induction level generalizing t with
  | zero =>
    have ht' : table m root (.last (va / PGSIZE)) = some t := ht
    rw [walkLoop, px_eq, ht', Option.map_some]
  | succ level ih =>
    have hstep := table_at (by omega) ht
    rw [walkLoop, px_eq]
    dsimp only
    by_cases hvalid : entry m (t, Memory.px (level + 1) (va / PGSIZE)) &&& PTE_V ≠ 0
    · rw [if_pos hvalid]
      rw [below_valid hvalid] at hstep
      exact ih (by omega) hstep
    · rw [if_neg hvalid, if_pos rfl]
      rw [below_invalid hvalid] at hstep
      rw [table_last_none hstep, Option.map_none]

/-- The page that `kalloc` gives to `walk`, after `memset` and with its
entry. -/
theorem extends_kalloc {m1 : Mem} {i : Nat} (ha : Allocated L m m1 f) (hi : i < 512)
    (ht : t ≠ f) :
    Extends m (setEntry (t, i) (pa2pte (f * PGSIZE) ||| PTE_V) (m1.write f zeroPage)) t i f := by
  have hf := ha.managed.2
  unfold PHYSTOP at hf
  simp only [Frame] at *
  have hpte : pa2pte (f * PGSIZE) ||| PTE_V = f * 2 ^ 10 + 1 := by
    have := pte_eq (f * PGSIZE) (show 0 < 2 ^ 10 by decide)
    rw [Nat.or_zero, Nat.zero_or] at this
    rw [this]
    unfold PGSIZE PTE_V
    omega
  have hentry : ∀ g j, j < 512 → (g, j) ≠ (t, i) →
      entry (setEntry (t, i) (pa2pte (f * PGSIZE) ||| PTE_V) (m1.write f zeroPage)) (g, j) =
        entry (m1.write f zeroPage) (g, j) := fun g j hj hne => entry_setEntry_of_ne hj hne
  refine ⟨?_, ?_, ?_⟩
  · rw [below, hpte, entry_setEntry hi (by omega), if_pos (by omega)]
    rw [pageOf_pte (by omega)]
  · intro j hj
    rw [hentry f j hj (fun heq => ht (Prod.mk.inj heq).1.symm)]
    exact entry_zeroPage f j
  · intro g j hj hg hne
    rw [hentry g j hj hne]
    refine entry_of_bytes ?_
    exact (update_of_ne hg _ _).trans (ha.others g hg)

/-- `walk` with `alloc` does not change the map. -/
theorem walkLoop_alloc (h : Tables L m root) (hva : va / PGSIZE < MAXVPN) (hlevel : level ≤ 2)
    (ht : table m root (.at (va / PGSIZE) level) = some t) :
    ∃ r m', walkLoop true va level t m = .ok (r, m') ∧ Tables L m' root ∧
      leaf m' root = leaf m root ∧
      (r = none → m.freelist.length < level) ∧
      ∀ pte, r = some pte → ∃ t', pte = (t', Memory.px 0 (va / PGSIZE)) ∧
        table m' root (.last (va / PGSIZE)) = some t' := by
  induction level generalizing t m with
  | zero =>
    refine ⟨some (t, px 0 va), m, rfl, h, rfl, nofun, ?_⟩
    intro pte hpte
    cases hpte
    exact ⟨t, by rw [px_eq], ht⟩
  | succ level ih =>
    have hstep := table_at (by omega) ht
    rw [walkLoop, px_eq]
    dsimp only
    by_cases hvalid : entry m (t, Memory.px (level + 1) (va / PGSIZE)) &&& PTE_V ≠ 0
    · rw [if_pos hvalid]
      rw [below_valid hvalid] at hstep
      obtain ⟨r, m', hrun, htables, hleaf, hnull, hr⟩ := ih h (by omega) hstep
      exact ⟨r, m', hrun, htables, hleaf, fun hn => Nat.lt_succ_of_lt (hnull hn), hr⟩
    · rw [if_neg hvalid, if_neg (by decide)]
      have hnone := below_invalid hvalid
      cases hfree : m.freelist with
      | nil =>
        rw [kalloc_none hfree]
        exact ⟨none, _, rfl, h.congr ⟨h.ok.nodup, h.ok.free_iff, h.ok.unmanaged⟩
          (fun _ _ => rfl) h.held, rfl, fun _ => Nat.succ_pos level, nofun⟩
      | cons f rest =>
        obtain ⟨m1, hrun, ha⟩ := kalloc_some h.ok hfree
        have hused := Node.at_used hva (level + 1)
        have htf := h.ne_of_fresh ha.unused hused ht
        have he := extends_kalloc ha (px_lt (level + 1) (va / PGSIZE)) htf
        have hlast := Node.at_succ_ne (va / PGSIZE) level
        have hok := ha.shift.ok h.ok
        have h' := he.tables h ha.unused hused hlast ht hnone
          ⟨hok.nodup, hok.free_iff, hok.unmanaged⟩ ha.shift.balance
        have hnext := he.table_eq h ha.unused hused hlast ht hnone _
          (Node.at_used hva level)
        rw [Node.at_child (by omega), if_pos rfl] at hnext
        obtain ⟨r, m', hrun', htables, hleaf, hnull, hr⟩ := ih h' (by omega) hnext
        have hrest : m1.freelist = rest := (List.cons.inj (hfree.symm.trans ha.freelist)).2.symm
        rw [hrun]
        refine ⟨r, m', hrun', htables, hleaf.trans ?_, ?_, hr⟩
        · exact he.leaf_eq h ha.unused hused hlast ht hnone
        · intro hn
          have hlt : m1.freelist.length < level := hnull hn
          rw [hrest] at hlt
          exact Nat.succ_lt_succ hlt

theorem vpn_lt (hva : va < MAXVA) : va / PGSIZE < MAXVPN :=
  Nat.div_lt_of_lt_mul (by rw [Nat.mul_comm]; exact hva)

theorem walk_find (hva : va < MAXVA) :
    walk root va false m =
      .ok ((table m root (.last (va / PGSIZE))).map (·, Memory.px 0 (va / PGSIZE)), m) := by
  rw [walk, if_neg (by omega)]
  exact walkLoop_find (Nat.le_refl 2) rfl

theorem walk_alloc (h : Tables L m root) (hva : va < MAXVA) :
    ∃ r m', walk root va true m = .ok (r, m') ∧ Tables L m' root ∧
      leaf m' root = leaf m root ∧
      (r = none → m.freelist.length < 2) ∧
      ∀ pte, r = some pte → ∃ t, pte = (t, Memory.px 0 (va / PGSIZE)) ∧
        table m' root (.last (va / PGSIZE)) = some t := by
  rw [walk, if_neg (by omega)]
  exact walkLoop_alloc h (vpn_lt hva) (Nat.le_refl 2) rfl

end Walk

/-! ## The map -/

section Map

variable {L : Layout} {m m' : Mem} {root t : Frame} {v va : Nat}

theorem leaf_of_table (hv : v < MAXVPN) (ht : table m root (.last v) = some t) :
    leaf m root v = if entry m (t, Memory.px 0 v) % 2 = 1 then some (entry m (t, Memory.px 0 v))
      else none := by
  rw [leaf, if_pos hv, ht, Option.bind_some]

/-- A mapped page has a last table. -/
theorem table_of_leaf {w : Nat} (h : leaf m root v = some w) :
    v < MAXVPN ∧ ∃ t, table m root (.last v) = some t ∧ entry m (t, Memory.px 0 v) = w ∧
      w % 2 = 1 := by
  by_cases hv : v < MAXVPN
  · refine ⟨hv, ?_⟩
    cases ht : table m root (.last v) with
    | none =>
      rw [leaf, if_pos hv, ht, Option.bind_none] at h
      cases h
    | some t =>
      rw [leaf_of_table hv ht] at h
      by_cases hodd : entry m (t, Memory.px 0 v) % 2 = 1
      · rw [if_pos hodd] at h
        have hw := Option.some.inj h
        exact ⟨t, rfl, hw, hw ▸ hodd⟩
      · rw [if_neg hodd] at h
        cases h
  · rw [leaf, if_neg hv] at h
    cases h

/-- What `walk` finds is the map. -/
theorem lookup_eq (hva : va < MAXVA) :
    lookup root va m =
      (leaf m root (va / PGSIZE)).map (fun w => (pte2pa w, pteFlags w)) := by
  have hv := vpn_lt hva
  rw [lookup, walk_find hva]
  cases ht : table m root (.last (va / PGSIZE)) with
  | none =>
    rw [leaf, if_pos hv, ht, Option.bind_none]
    rfl
  | some t =>
    rw [leaf_of_table hv ht]
    dsimp only [Option.map_some]
    by_cases hodd : entry m (t, Memory.px 0 (va / PGSIZE)) % 2 = 1
    · rw [if_neg (valid_iff.mpr hodd), if_pos hodd, Option.map_some]
    · rw [if_pos (not_not.mp (mt valid_iff.mp hodd)), if_neg hodd, Option.map_none]

/-! ## `mappages` -/

/-- The bytes from `va` to `va + size` are in one page. -/
def OnePage (va size : Nat) : Prop :=
  0 < size ∧ pgrounddown ((va + size - 1) % 2 ^ 64) = pgrounddown va

theorem mappages_spec (h : Tables L m root) (hva : va < MAXVA) {size : Nat}
    (hone : OnePage va size) (hfree : leaf m root (va / PGSIZE) = none) {pa perm : Nat}
    (hpa : pa < 2 ^ 64) (hperm : perm < 2 ^ 10) :
    ∃ r m', mappages root va size pa perm m = .ok (r, m') ∧ Tables L m' root ∧
      (r = false → m.freelist.length < 2) ∧
      leaf m' root = if r then
        update (leaf m root) (va / PGSIZE) (some (pa2pte pa ||| perm ||| PTE_V))
      else leaf m root := by
  obtain ⟨hsize, hlast⟩ := hone
  obtain ⟨r, m1, hwalk, h1, hleaf, hnull, hr⟩ := walk_alloc h (pgrounddown_lt_MAXVA.mpr hva)
  rw [pgrounddown_div] at hr
  have hv := vpn_lt hva
  rw [mappages, if_neg (by omega), hlast, mappagesLoop, hwalk]
  dsimp only [bind, Except.bind]
  cases r with
  | none => exact ⟨false, m1, rfl, h1, fun _ => hnull rfl, hleaf⟩
  | some pte =>
    obtain ⟨t, rfl, ht⟩ := hr pte rfl
    have hodd : ¬ entry m1 (t, Memory.px 0 (va / PGSIZE)) % 2 = 1 := by
      intro hodd
      rw [← hleaf, leaf_of_table hv ht, if_pos hodd] at hfree
      cases hfree
    have hbits := or_valid perm
    have hor : perm ||| PTE_V < 2 ^ 10 := Nat.or_lt_two_pow hperm (by decide)
    have hw := pte_eq pa hperm
    refine ⟨true, setEntry (t, Memory.px 0 (va / PGSIZE)) (pa2pte pa ||| perm ||| PTE_V) m1, ?_,
      h1.setLeaf hv ht _ _, nofun, ?_⟩
    · dsimp only
      rw [if_neg (mt valid_iff.mp hodd), if_pos rfl]
    · rw [h1.leaf_setLeaf hv ht (by omega), hleaf, if_pos rfl, if_pos (by omega)]

/-! ## `uvmunmap` -/

/-- The pages that the map leads to. -/
def mapped (m : Mem) (root : Frame) (v : Nat) : Option Frame := (leaf m root v).map pageOf

/-- The entries of the pages in `s` have references of their own, besides
those of the pages of the table. -/
structure Freeable (m : Mem) (root : Frame) (s : Finset Nat) : Prop where
  counted : ∀ f, tally s (mapped m root) f ≤ m.refcnt f
  tables : ∀ n f, n.Used → table m root n = some f → tally s (mapped m root) f < m.refcnt f

/-- The body of the loop, for a page that is mapped. -/
theorem unmap_step (h : Tables L m root) (doFree : Bool) {s : Finset Nat} (hs : v ∈ s)
    (hcount : doFree = true → Freeable m root s) {w : Nat} (hw : leaf m root v = some w)
    (ht : table m root (.last v) = some t) :
    ∃ m1, (if doFree then kfree L (pageOf w) m else .ok m) = .ok m1 ∧
      Tables L (setEntry (t, Memory.px 0 v) 0 m1) root ∧
      leaf (setEntry (t, Memory.px 0 v) 0 m1) root = update (leaf m root) v none ∧
      (doFree = true → Freeable (setEntry (t, Memory.px 0 v) 0 m1) root s) := by
  have hv := (table_of_leaf hw).1
  cases doFree with
  | false =>
    refine ⟨m, rfl, h.setLeaf hv ht _ _, ?_, nofun⟩
    rw [h.leaf_setLeaf hv ht (by decide)]
    rfl
  | true =>
    obtain ⟨hcounted, htables⟩ := hcount rfl
    have hpage : mapped m root v = some (pageOf w) := by rw [mapped, hw, Option.map_some]
    have hpos := tally_pos hs hpage
    have hle := hcounted (pageOf w)
    obtain ⟨m1, hrun, hshift, _, _⟩ := kfree_spec h.ok (hpos.trans hle)
    have hbalance : ∀ g, m1.refcnt g + one (pageOf w) g = m.refcnt g := hshift.balance
    -- a page of the table has one more reference
    have hmore : ∀ n g, n.Used → table m root n = some g → one (pageOf w) g < m.refcnt g := by
      intro n g hn hg
      by_cases hgw : g = pageOf w
      · have := htables n g hn hg
        rw [hgw, one_self]
        rw [hgw] at this
        omega
      · rw [one_of_ne hgw]
        exact h.held n g hn hg
    have hbytes : ∀ n g, n.Used → table m root n = some g → m1.bytes g = m.bytes g :=
      fun n g hn hg => hshift.frame (hmore n g hn hg)
    obtain ⟨htable1, hleaf1⟩ := table_of_bytes hbytes
    have h1 : Tables L m1 root := by
      refine h.congr (hshift.ok h.ok) htable1 ?_
      intro n g hn hg
      have h1 := hbalance g
      have h2 := hmore n g hn hg
      omega
    have ht1 : table m1 root (.last v) = some t := (htable1 _ (Node.last_used hv)).trans ht
    have hleaf' : leaf (setEntry (t, Memory.px 0 v) 0 m1) root =
        update (leaf m root) v none := by
      rw [h1.leaf_setLeaf hv ht1 (by decide), hleaf1]
      rfl
    have hmapped : mapped (setEntry (t, Memory.px 0 v) 0 m1) root =
        update (mapped m root) v none := by
      funext v'
      rw [mapped, hleaf']
      by_cases hv' : v' = v
      · rw [hv', update_self, update_self, Option.map_none]
      · rw [update_of_ne hv', update_of_ne hv', mapped]
    have hclear := tally_clear hs hpage
    have hclear' : ∀ g, tally s (mapped m root) g =
        tally s (update (mapped m root) v none) g + one (pageOf w) g :=
      fun g => congrFun hclear g
    refine ⟨m1, hrun, h1.setLeaf hv ht1 _ _, hleaf', fun _ => ⟨?_, ?_⟩⟩
    · intro g
      have h2 := hcounted g
      have h3 := hclear' g
      have h4 := hbalance g
      rw [hmapped]
      show _ ≤ m1.refcnt g
      omega
    · intro n g hn hg
      rw [h1.table_setLeaf hv ht1 _ _ n hn, htable1 n hn] at hg
      have h2 := htables n g hn hg
      have h3 := hclear' g
      have h4 := hbalance g
      rw [hmapped]
      show _ < m1.refcnt g
      omega

theorem uvmunmapLoop_spec (doFree : Bool) {s : Finset Nat} :
    ∀ (k n v : Nat) (m : Mem), k < n → v + k ≤ MAXVPN → Tables L m root →
      (∀ v', v ≤ v' → v' < v + k → v' ∈ s) → (doFree = true → Freeable m root s) →
      (∀ v', v ≤ v' → v' < v + k → ∃ w, leaf m root v' = some w ∧ pteFlags w ≠ PTE_V) →
      ∃ m', uvmunmapLoop L root doFree ((v + k) * PGSIZE) n (v * PGSIZE) m = .ok m' ∧
        Tables L m' root ∧
        ∀ v', leaf m' root v' = if v ≤ v' ∧ v' < v + k then none else leaf m root v' := by
  intro k
  induction k with
  | zero =>
    intro n v m hn _ h _ _ _
    obtain ⟨n, rfl⟩ : ∃ n', n = n' + 1 := ⟨n - 1, by omega⟩
    refine ⟨m, ?_, h, ?_⟩
    · rw [uvmunmapLoop, Nat.add_zero, if_neg (Nat.lt_irrefl _)]
    · intro v'
      rw [if_neg (by omega)]
  | succ k ih =>
    intro n v m hn hmax h hs hcount hmapped
    obtain ⟨n, rfl⟩ : ∃ n', n = n' + 1 := ⟨n - 1, by omega⟩
    obtain ⟨w, hw, hflags⟩ := hmapped v (Nat.le_refl v) (by omega)
    obtain ⟨hv, t, ht, he, hodd⟩ := table_of_leaf hw
    obtain ⟨m1, hfree, h1, hleaf1, hcount1⟩ :=
      unmap_step h doFree (hs v (Nat.le_refl v) (by omega)) hcount hw ht
    have hnext : (v * PGSIZE + PGSIZE) % 2 ^ 64 = (v + 1) * PGSIZE := by
      rw [MAXVPN_eq] at hv
      unfold PGSIZE
      omega
    have hstop : v + (k + 1) = v + 1 + k := by omega
    have hva : v * PGSIZE < MAXVA := Nat.mul_lt_mul_of_pos_right hv (by decide)
    have hdiv : v * PGSIZE / PGSIZE = v := Nat.mul_div_cancel v (by decide)
    have hwalk : walk root (v * PGSIZE) false m = .ok (some (t, Memory.px 0 v), m) := by
      rw [walk_find hva, hdiv, ht]
      rfl
    obtain ⟨m', hrun, h', hleaf'⟩ := ih n (v + 1) (setEntry (t, Memory.px 0 v) 0 m1) (by omega)
      (by omega) h1 (fun v' hv' hlt => hs v' (by omega) (by omega)) hcount1
      (fun v' hv' hlt => by
        rw [hleaf1, update_of_ne (by omega)]
        exact hmapped v' (by omega) (by omega))
    refine ⟨m', ?_, h', ?_⟩
    · have hlt : v * PGSIZE < (v + (k + 1)) * PGSIZE :=
        Nat.mul_lt_mul_of_pos_right (by omega) (by decide)
      have hvalid : w &&& PTE_V ≠ 0 := valid_iff.mpr hodd
      rw [uvmunmapLoop, if_pos hlt, hwalk]
      dsimp only [bind, Except.bind]
      rw [he, if_neg hvalid, if_neg hflags, hnext, hstop]
      cases doFree with
      | false =>
        cases hfree
        exact hrun
      | true =>
        rw [if_pos rfl] at hfree
        rw [if_pos rfl, hfree]
        exact hrun
    · intro v'
      rw [hleaf' v', hleaf1]
      by_cases hvv : v' = v
      · rw [hvv, update_self, if_neg (by omega), if_pos (by omega)]
      · rw [update_of_ne hvv]
        exact if_congr (by omega) rfl rfl

/-! ## Finite maps -/

/-- The table that `uvmcreate` makes. -/
theorem tables_new {m1 : Mem} {f : Frame} (h : Ok L m) (ha : Allocated L m m1 f) :
    Tables L (m1.write f zeroPage) f ∧ leaf (m1.write f zeroPage) f = fun _ => none := by
  have hbelow : ∀ i, below (m1.write f zeroPage) f i = none := fun i =>
    below_zero (entry_zeroPage f i)
  have hlow : ∀ i j, table (m1.write f zeroPage) f (.low i j) = none := by
    intro i j
    rw [table, hbelow, Option.bind_none]
  have hroot : ∀ n g, table (m1.write f zeroPage) f n = some g → n = .root ∧ g = f := by
    intro n g hg
    cases n with
    | root => exact ⟨rfl, (Option.some.inj hg).symm⟩
    | mid i =>
      rw [table, hbelow] at hg
      cases hg
    | low i j =>
      rw [hlow] at hg
      cases hg
  have hok := ha.shift.ok h
  refine ⟨⟨⟨hok.nodup, hok.free_iff, hok.unmanaged⟩, ?_, ?_⟩, ?_⟩
  · intro n g _ hg
    rw [(hroot n g hg).2]
    exact Nat.le_of_eq ha.alone.symm
  · intro n n' g _ _ hg hg'
    rw [(hroot n g hg).1, (hroot n' g hg').1]
  · funext v
    rw [leaf, Node.last, hlow, Option.bind_none, ite_self]

/-- The flags and the address that `mappages` stores. -/
theorem pte_fields {pa perm : Nat} (hpa : pa < 2 ^ 64) (hpage : pa % PGSIZE = 0)
    (hperm : perm < 2 ^ 10) :
    pte2pa (pa2pte pa ||| perm ||| PTE_V) = pa ∧
      pteFlags (pa2pte pa ||| perm ||| PTE_V) = perm ||| PTE_V := by
  have hor : perm ||| PTE_V < 2 ^ 10 := Nat.or_lt_two_pow hperm (by decide)
  unfold PGSIZE at hpage
  rw [pte2pa_eq, pteFlags_eq, pte_eq pa hperm]
  generalize perm ||| PTE_V = flags at *
  omega

/-- A page table is a finite map.  A `mappages` of one page that was not
mapped returns 0 and sets what `walk` finds there, or returns -1, and nothing
else that `walk` finds changes.  `uvmunmap` of pages that are mapped removes
these pages. -/
theorem pagetable_map (h : Tables L m root) :
    (∀ va size pa perm, va < MAXVA → OnePage va size → pa < 2 ^ 64 → pa % PGSIZE = 0 →
      perm < 2 ^ 10 → lookup root va m = none →
      ∃ r m', mappages root va size pa perm m = .ok (r, m') ∧ Tables L m' root ∧
        (r = false → m.freelist.length < 2) ∧
        ∀ va', va' < MAXVA → lookup root va' m' =
          if r = true ∧ va' / PGSIZE = va / PGSIZE then some (pa, perm ||| PTE_V)
          else lookup root va' m) ∧
    ∀ va npages doFree, va % PGSIZE = 0 →
      (∀ i, i < npages → va + i * PGSIZE < MAXVA ∧
        ∃ q, lookup root (va + i * PGSIZE) m = some q ∧ q.2 ≠ PTE_V) →
      (doFree = true →
        Freeable m root (Finset.Ico (va / PGSIZE) (va / PGSIZE + npages))) →
      ∃ m', uvmunmap L root va npages doFree m = .ok m' ∧ Tables L m' root ∧
        ∀ va', va' < MAXVA → lookup root va' m' =
          if va ≤ va' ∧ va' < va + npages * PGSIZE then none else lookup root va' m := by
  constructor
  · intro va size pa perm hva hone hpa hpage hperm hfree
    rw [lookup_eq hva, Option.map_eq_none_iff] at hfree
    obtain ⟨hfst, hsnd⟩ := pte_fields hpa hpage hperm
    obtain ⟨r, m', hrun, h', hnull, hleaf⟩ := mappages_spec h hva hone hfree hpa hperm
    refine ⟨r, m', hrun, h', hnull, ?_⟩
    intro va' hva'
    rw [lookup_eq hva', lookup_eq hva', hleaf]
    cases r with
    | false => rw [if_neg (by decide), if_neg (fun hand => Bool.noConfusion hand.1)]
    | true =>
      rw [if_pos rfl]
      by_cases hpg : va' / PGSIZE = va / PGSIZE
      · rw [hpg, update_self, if_pos ⟨rfl, rfl⟩, Option.map_some, hfst, hsnd]
      · rw [update_of_ne hpg, if_neg (fun hand => hpg hand.2)]
  · intro va npages doFree haligned hmapped hcount
    obtain ⟨v, rfl⟩ : ∃ v, va = v * PGSIZE :=
      ⟨va / PGSIZE, (Nat.div_mul_cancel (Nat.dvd_of_mod_eq_zero haligned)).symm⟩
    have hdiv : ∀ v, v * PGSIZE / PGSIZE = v := fun v => Nat.mul_div_cancel v (by decide)
    rw [hdiv] at hcount
    have hpages : ∀ v', v ≤ v' → v' < v + npages →
        v' < MAXVPN ∧ ∃ w, leaf m root v' = some w ∧ pteFlags w ≠ PTE_V := by
      intro v' hle hlt
      obtain ⟨hva, q, hq, hflags⟩ := hmapped (v' - v) (by omega)
      have heq : v * PGSIZE + (v' - v) * PGSIZE = v' * PGSIZE := by
        rw [← Nat.add_mul, Nat.add_sub_cancel' hle]
      rw [heq] at hva hq
      rw [lookup_eq hva, hdiv] at hq
      obtain ⟨w, hw, rfl⟩ := Option.map_eq_some_iff.mp hq
      exact ⟨(table_of_leaf hw).1, w, hw, hflags⟩
    cases npages with
    | zero =>
      refine ⟨m, ?_, h, ?_⟩
      · have hle := Nat.mod_le (v * PGSIZE) (2 ^ 64)
        rw [uvmunmap, if_neg (fun hne => hne haligned), uvmunmapLoop, Nat.zero_mul, Nat.add_zero,
          if_neg (by omega)]
      · intro va' _
        rw [if_neg (by omega)]
    | succ n =>
      have hmax : v + n < MAXVPN := (hpages (v + n) (by omega) (by omega)).1
      obtain ⟨m', hrun, h', hleaf⟩ := uvmunmapLoop_spec doFree
        (s := Finset.Ico v (v + (n + 1))) (n + 1) (MAXVPN + 1) v m (by omega) (by omega) h
        (fun v' hle hlt => Finset.mem_Ico.mpr ⟨hle, hlt⟩) hcount
        (fun v' hle hlt => (hpages v' hle hlt).2)
      refine ⟨m', ?_, h', ?_⟩
      · have hstop : (v * PGSIZE + (n + 1) * PGSIZE) % 2 ^ 64 = (v + (n + 1)) * PGSIZE := by
          have hle : (v + (n + 1)) * PGSIZE ≤ MAXVPN * PGSIZE := Nat.mul_le_mul_right _ hmax
          rw [← Nat.add_mul]
          exact Nat.mod_eq_of_lt (hle.trans_lt (by decide))
        rw [uvmunmap, if_neg (fun hne => hne haligned), hstop]
        exact hrun
      · intro va' hva'
        rw [lookup_eq hva', lookup_eq hva', hleaf]
        have hiff : (v ≤ va' / PGSIZE ∧ va' / PGSIZE < v + (n + 1)) ↔
            (v * PGSIZE ≤ va' ∧ va' < v * PGSIZE + (n + 1) * PGSIZE) := by
          unfold PGSIZE
          omega
        by_cases hin : v ≤ va' / PGSIZE ∧ va' / PGSIZE < v + (n + 1)
        · rw [if_pos hin, if_pos (hiff.mp hin), Option.map_none]
        · rw [if_neg hin, if_neg (mt hiff.mpr hin)]

/-- A page is mapped in a new table, and unmapped. -/
theorem pagetable_map_new :
    ∃ (L : Layout) (m : Mem) (root : Frame), Tables L m root ∧
      ∃ m', mappages root 5000 100 0x80001000 6 m = .ok (true, m') ∧
        lookup root 4096 m' = some (0x80001000, 7) ∧
        ∃ m'', uvmunmap L root 4096 1 false m' = .ok m'' ∧ lookup root 4096 m'' = none := by
  let L : Layout := ⟨PHYSTOP - 100, 0x80000⟩
  obtain ⟨m, _, hok, _, _, hlist⟩ := kinit_spec L (fun _ => zeroPage)
  have hlen : m.freelist.length = 100 := by
    rw [hlist, List.length_reverse, List.length_range']
    decide
  obtain ⟨f, rest, hfree⟩ := List.exists_cons_of_length_pos (by omega : 0 < m.freelist.length)
  obtain ⟨m₁, _, ha⟩ := kalloc_some hok hfree
  obtain ⟨htables, hleaf⟩ := tables_new hok ha
  have hlen₁ : (m₁.write f zeroPage).freelist.length = 99 := by
    rw [ha.freelist, List.length_cons] at hlen
    exact Nat.succ.inj hlen
  have hempty : lookup f 5000 (m₁.write f zeroPage) = none := by
    rw [lookup_eq (by decide), hleaf]
    rfl
  obtain ⟨r, m', hrun, htables', hnull, hlookup⟩ := (pagetable_map htables).1 5000 100 0x80001000 6
    (by decide) ⟨by decide, by decide⟩ (by decide) (by decide) (by decide) hempty
  have hr : r = true := by
    cases r with
    | true => rfl
    | false =>
      have := hnull rfl
      omega
  subst hr
  have hpage : lookup f 4096 m' = some (0x80001000, 7) := by
    rw [hlookup 4096 (by decide), if_pos ⟨rfl, by decide⟩]
    rfl
  obtain ⟨m'', hrun', _, hgone⟩ := (pagetable_map htables').2 4096 1 false (by decide)
    (fun i hi => by
      obtain rfl : i = 0 := by omega
      exact ⟨by decide, _, hpage, by decide⟩) nofun
  refine ⟨L, _, f, htables, m', hrun, hpage, m'', hrun', ?_⟩
  rw [hgone 4096 (by decide), if_pos ⟨by decide, by decide⟩]

end Map

end Xv6.Memory.Sv39
