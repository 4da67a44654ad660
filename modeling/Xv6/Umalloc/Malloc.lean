import Mathlib.Data.List.Pairwise
import Xv6.Umalloc.Free

/-!
# `malloc` keeps the tiling

The loop of `malloc` goes once around the free list.  If it finds a block that
is large enough, `Tiled.carve` takes it, or its tail end.  If it comes back to
`freep`, `morecore` asks `sbrk` for a region.  For a moment that region is an
allocated block (`Tiled.extend`), and `free` makes it a free one.  Then the
second time around finds a block.
-/

namespace Xv6.Umalloc

open Xv6.Lib Function

variable {base : Nat} {h h' : Heap} {F U : List Block} {b p : Block} {n : Nat}

/-! ## Taking a block -/

theorem nodup_ring (hgap : (ring base F).Pairwise Gap) :
    ((ring base F).map Block.addr).Nodup := by
  rw [List.Nodup, List.pairwise_map]
  apply hgap.imp
  intro a c hac
  unfold Gap Block.stop at hac
  omega

/-- A block of the ring is known by its address. -/
theorem ring_ext (hgap : (ring base F).Pairwise Gap) {a c : Block} (ha : a ∈ ring base F)
    (hc : c ∈ ring base F) (haddr : a.addr = c.addr) : a = c :=
  List.inj_on_of_nodup_map (nodup_ring hgap) ha hc haddr

/-- A free block and the block that leads to it. -/
theorem Tiled.split (ht : Tiled base h F U) {a c : Block} (ha : a ∈ ring base F) (hc : c ∈ F)
    (hptr : h.ptr a.addr = c.addr) : ∃ A B, ring base F = A ++ a :: c :: B := by
  obtain ⟨A, B, hsplit⟩ := List.append_of_mem ha
  have hchain := ht.chain_from hsplit
  rw [hptr] at hchain
  cases B with
  | nil =>
    have hbase : c.addr = base := hchain.path
    have hpos := (ht.pos c (Or.inl hc)).2
    simp only [UNIT] at hpos
    omega
  | cons d B =>
    have hd : d ∈ ring base F := by rw [hsplit]; simp
    obtain rfl := ring_ext ht.gap (mem_ring.mpr (Or.inr hc)) hd hchain.path.1
    exact ⟨A, B, hsplit⟩

/-- A block of `n` units has been taken at the address `q`. -/
structure Taken (base : Nat) (h h' : Heap) (F' U : List Block) (q n : Nat) : Prop where
  tiled : Tiled base h' F' (⟨q, n⟩ :: U)
  same : ∀ u ∈ U, ∀ x, u.Meets x → h'.mem x = h.mem x

instance : Std.Symm Apart := ⟨fun _ _ => Apart.symm⟩

/-- The free blocks are divided into the block that is taken and other free
blocks. -/
theorem Tiled.take {F' : List Block} (ht : Tiled base h F U)
    (hchain : Chain h' base (ring base F') base) (hgap : (ring base F').Pairwise Gap)
    (hfreep : h'.freep ∈ (ring base F').map Block.addr) (hregions : h'.regions = h.regions)
    (hpos : ∀ c, c ∈ F' ∨ c = b → 0 < c.size ∧ base + UNIT ≤ c.addr)
    (hsize : h'.size b.addr = b.size) (hapart : ∀ c ∈ F', Apart c b)
    (hcovers : ∀ x, Covered F' x ∨ b.Covers x ↔ Covered F x)
    (hsame : ∀ u ∈ U, ∀ x, u.Meets x → h'.mem x = h.mem x) :
    Taken base h h' F' U b.addr b.size := by
  have hfree : ∀ c, c ∈ F' ∨ c = b → ∀ u ∈ U, Apart c u := by
    intro c hc u hu
    refine apart_of_covers (hpos c hc).1 (ht.pos u (Or.inr hu)).1 (fun x hx => ?_)
    obtain ⟨d, hd, hdx⟩ := (hcovers x).mp (hc.imp (fun hc => ⟨c, hc, hx⟩) (fun hc : c = b => hc ▸ hx))
    exact ⟨d, (ht.pos d (Or.inl hd)).1, ht.apart d hd u hu, hdx⟩
  refine ⟨?_, hsame⟩
  constructor
  case circle => exact ⟨base, hchain.path⟩
  case freep => exact hfreep
  case size =>
    intro c hc
    rcases hc with hc | hc
    · exact hchain.size c hc
    · rcases List.mem_cons.mp hc with rfl | hc
      · exact hsize
      · exact ht.size_kept hc (hsame c hc)
  case gap => exact hgap
  case pos =>
    intro c hc
    rw [List.mem_cons, ← or_assoc] at hc
    exact hc.elim (hpos c) (fun hc => ht.pos c (Or.inr hc))
  case apart =>
    intro c hc u hu
    rcases List.mem_cons.mp hu with rfl | hu
    · exact hapart c hc
    · exact hfree c (Or.inl hc) u hu
  case used => exact List.pairwise_cons.mpr ⟨hfree b (Or.inr rfl), ht.used⟩
  case cover =>
    intro x
    rw [hregions, ← ht.cover, covered_cons, ← or_assoc, hcovers]

section Carve

variable {A B : List Block} (ht : Tiled base h F U)
include ht

/-- The whole block is taken out of the list. -/
theorem carve_exact {a : Block} (hsplit : ring base F = A ++ a :: p :: B) (hp : p ∈ F) :
    ∃ F', Taken base h { h.set a.addr { h.mem a.addr with ptr := h.ptr p.addr } with
      freep := a.addr } F' U p.addr p.size := by
  obtain ⟨F', hF'⟩ : ∃ F', ring base F' = A ++ a :: B := by
    rcases ring_split hsplit with ⟨rfl, rfl, _⟩ | ⟨A', rfl, _⟩
    · exact ⟨B, rfl⟩
    · exact ⟨A' ++ a :: B, rfl⟩
  have hsub : (ring base F').Sublist (ring base F) := by
    rw [hF', hsplit]
    exact ((List.sublist_cons_self p B).cons_cons a).append_left A
  have hfree : F'.Sublist F := List.cons_sublist_cons.mp hsub
  obtain ⟨-, hpB, hAa, haB, hAB⟩ := gap_split (hsplit ▸ ht.gap)
  have hlinked : Chain (h.set a.addr { h.mem a.addr with ptr := h.ptr p.addr }) base
      (ring base F') base := by
    have hchain := ht.chain
    rw [hsplit] at hchain
    obtain ⟨m, hA, hrest⟩ := chain_append.mp hchain
    obtain ⟨rfl, hsize, hrest⟩ := chain_cons.mp hrest
    obtain ⟨-, -, hB⟩ := chain_cons.mp hrest
    rw [hF']
    refine chain_append.mpr ⟨a.addr, hA.congr ?_, chain_cons.mpr ⟨rfl, ?_, ?_⟩⟩
    · exact fun c hc => update_of_ne (Nat.ne_of_lt (hAa c hc).lt) _ _
    · exact (size_set_ptr _ _ _).trans hsize
    · rw [ptr_set_self]
      exact hB.congr (fun c hc =>
        update_of_ne (Nat.ne_of_gt (haB c (List.mem_cons_of_mem p hc)).lt) _ _)
  refine ⟨F', ht.take ⟨hlinked.path, hlinked.size⟩ (ht.gap.sublist hsub) ?_ rfl ?_ ?_ ?_ ?_ ?_⟩
  · rw [hF']
    simp
  · intro c hc
    exact ht.pos c (Or.inl (hc.elim hfree.mem (fun hc => hc ▸ hp)))
  · exact (size_set_ptr _ _ _).trans (ht.size p (Or.inl (mem_ring.mpr (Or.inr hp))))
  · intro c hc
    have hmem : c ∈ A ++ a :: B := hF' ▸ mem_ring.mpr (Or.inr hc)
    rw [List.mem_append, List.mem_cons] at hmem
    rcases hmem with hc | rfl | hc
    · exact Or.inl (Nat.le_of_lt (hAB c hc p List.mem_cons_self))
    · exact Or.inl (Nat.le_of_lt (haB p List.mem_cons_self))
    · exact Or.inr (Nat.le_of_lt ((List.pairwise_cons.mp hpB).1 c hc))
  · intro x
    rw [← covered_ring, ← covered_ring (F := F), hF', hsplit, covered_append, covered_append,
      covered_cons, covered_cons, covered_cons, or_assoc, or_assoc, or_comm (b := p.Covers x)]
  · intro u hu x hx
    apply update_of_ne
    rintro rfl
    apply ht.not_header hu hx
    rw [hsplit]
    simp

/-- The tail end of a block is cut off: only two sizes change. -/
theorem carve_tail (hp : p ∈ F) (hn : 0 < n) (hlt : n < p.size) {q : Nat}
    (hq : q = p.addr + UNIT * (p.size - n)) (hptr : ∀ x, h'.ptr x = h.ptr x)
    (hhead : h'.size p.addr = p.size - n) (htail : h'.size q = n)
    (hsame : ∀ x, x ≠ p.addr → x ≠ q → h'.mem x = h.mem x) (hregions : h'.regions = h.regions)
    (hfreep : h'.freep ∈ (ring base F).map Block.addr) : ∃ F', Taken base h h' F' U q n := by
  obtain ⟨A, B, rfl⟩ := List.append_of_mem hp
  obtain ⟨hppos, hpaddr⟩ := ht.pos p (Or.inl hp)
  obtain ⟨hA, hB, hAp, hpB, hAB⟩ := gap_split (A := ⟨base, 0⟩ :: A) ht.gap
  have hchain : Chain h base ((⟨base, 0⟩ :: A) ++ p :: B) base := ht.chain
  obtain ⟨m, hchainA, hrest⟩ := chain_append.mp hchain
  obtain ⟨rfl, -, hchainB⟩ := chain_cons.mp hrest
  simp only [Gap, Block.stop, UNIT] at hq hAp hpB hpaddr
  refine ⟨A ++ ⟨p.addr, p.size - n⟩ :: B,
    ht.take (b := ⟨q, n⟩) ?_ ?_ ?_ hregions ?_ htail ?_ ?_ ?_⟩
  · show Chain h' base ((⟨base, 0⟩ :: A) ++ ⟨p.addr, p.size - n⟩ :: B) base
    refine chain_append.mpr ⟨p.addr, hchainA.congr ?_, chain_cons.mpr ⟨rfl, hhead, ?_⟩⟩
    · intro c hc
      have hgap := hAp c hc
      exact hsame _ (by omega) (by omega)
    · rw [hptr]
      refine hchainB.congr ?_
      intro c hc
      have hgap := hpB c hc
      exact hsame _ (by omega) (by omega)
  · show ((⟨base, 0⟩ :: A) ++ ⟨p.addr, p.size - n⟩ :: B).Pairwise Gap
    refine List.pairwise_append.mpr ⟨hA, List.pairwise_cons.mpr ⟨?_, hB⟩,
      fun a ha => List.forall_mem_cons.mpr ⟨hAp a ha, hAB a ha⟩⟩
    intro c hc
    have hgap := hpB c hc
    simp only [Gap, Block.stop, UNIT]
    omega
  · simpa [ring] using hfreep
  · intro c hc
    simp only [List.mem_append, List.mem_cons] at hc
    rcases hc with (hc | rfl | hc) | rfl
    · exact ht.pos c (by simp [hc])
    · exact ⟨Nat.sub_pos_of_lt hlt, hpaddr⟩
    · exact ht.pos c (by simp [hc])
    · exact ⟨hn, by simp only [UNIT]; omega⟩
  · intro c hc
    simp only [Apart, Block.stop, UNIT]
    rcases List.mem_append.mp hc with hc | hc
    · have hgap := hAp c (List.mem_cons_of_mem _ hc)
      omega
    · rcases List.mem_cons.mp hc with rfl | hc
      · exact Or.inl (Nat.le_of_eq hq.symm)
      · have hgap := hpB c hc
        omega
  · intro x
    have hparts : p.Covers x ↔
        (⟨p.addr, p.size - n⟩ : Block).Covers x ∨ (⟨q, n⟩ : Block).Covers x := by
      simp only [hq, Block.Covers, Block.stop, UNIT]
      omega
    rw [covered_append, covered_append, covered_cons, covered_cons, hparts]
    tauto
  · intro u hu x hx
    have hapart := ht.apart p hp u hu
    simp only [Apart, Block.Meets, Block.stop, UNIT] at hapart hx
    exact hsame x (by omega) (by omega)

end Carve

/-- Taking `n` units from a free block that has as many. -/
theorem Tiled.carve (ht : Tiled base h F U) {a : Block} (ha : a ∈ ring base F) (hp : p ∈ F)
    (hptr : h.ptr a.addr = p.addr) (hn : 0 < n) (hle : n ≤ p.size) :
    ∃ F' q, (carve n a.addr p.addr h).1 = q + UNIT ∧
      Taken base h (carve n a.addr p.addr h).2 F' U q n := by
  have hsize : h.size p.addr = p.size := ht.size p (Or.inl (mem_ring.mpr (Or.inr hp)))
  unfold Umalloc.carve
  split
  · rename_i heq
    obtain rfl : p.size = n := hsize.symm.trans heq
    obtain ⟨A, B, hsplit⟩ := ht.split ha hp hptr
    obtain ⟨F', hF'⟩ := carve_exact ht hsplit hp
    exact ⟨F', p.addr, rfl, hF'⟩
  · rename_i hne
    rw [hsize] at hne ⊢
    have hlt : n < p.size := by omega
    have hne : p.addr ≠ p.addr + UNIT * (p.size - n) := by
      simp only [UNIT]
      omega
    refine Exists.imp (fun F' hF' => ⟨_, rfl, hF'⟩)
      (carve_tail ht hp hn hlt rfl ?_ ?_ ?_ ?_ ?_ ?_)
    · exact fun x => (ptr_set_size _ _ _).trans (ptr_set_size _ _ _)
    · exact (size_set_of_ne hne _).trans (size_set_self _ _)
    · exact size_set_self _ _
    · intro x hx hxq
      simp [Heap.set, hx, hxq]
    · rfl
    · exact List.mem_map_of_mem ha

/-! ## More core -/

/-- The region that `sbrk` gives is above the static data and above all the
earlier regions. -/
def Fresh (base : Nat) (regions : List (Nat × Nat)) (a : Nat) : Prop :=
  base + UNIT ≤ a ∧ ∀ r ∈ regions, r.1 + r.2 ≤ a

/-- All the blocks are below a fresh address. -/
theorem Tiled.below (ht : Tiled base h F U) {a : Nat} (hfresh : Fresh base h.regions a)
    {c : Block} (hc : c ∈ F ∨ c ∈ U) : c.stop ≤ a := by
  have hpos := (ht.pos c hc).1
  -- the last byte of the block is in a region
  have hlast : c.Covers (c.stop - 1) := by
    simp only [Block.Covers, Block.stop, UNIT]
    omega
  have hcov : Covered F (c.stop - 1) ∨ Covered U (c.stop - 1) :=
    hc.imp (fun hc => ⟨c, hc, hlast⟩) (fun hc => ⟨c, hc, hlast⟩)
  obtain ⟨r, hr, -, hlt⟩ := (ht.cover _).mp hcov
  have hle := hfresh.2 r hr
  simp only [Block.Covers] at hlast
  omega

/-- A fresh region as one block of `m` units. -/
theorem Tiled.extend (ht : Tiled base h F U) {a m : Nat} (hfresh : Fresh base h.regions a)
    (hm : 0 < m) (rest : List (Option Nat)) :
    Tiled base (Heap.set { h with answers := rest, regions := (a, UNIT * m) :: h.regions } a
      { h.mem a with size := m }) F (⟨a, m⟩ :: U) := by
  have hne : ∀ c, c ∈ ring base F ∨ c ∈ U → c.addr ≠ a := by
    intro c hc
    have hcases : c = ⟨base, 0⟩ ∨ (c ∈ F ∨ c ∈ U) := by
      rw [mem_ring] at hc
      tauto
    rcases hcases with rfl | hcases
    · have hle := hfresh.1
      simp only [UNIT] at *
      omega
    · have hle := ht.below hfresh hcases
      have hpos := (ht.pos c hcases).1
      simp only [Block.stop, UNIT] at hle
      omega
  constructor
  case circle => exact ht.circle.congr (fun x _ => ptr_set_size _ _ _)
  case freep => exact ht.freep
  case size =>
    intro c hc
    rw [List.mem_cons, or_left_comm] at hc
    rcases hc with rfl | hc
    · exact size_set_self _ _
    · exact (size_set_of_ne (hne c hc) _).trans (ht.size c hc)
  case gap => exact ht.gap
  case pos =>
    intro c hc
    rw [List.mem_cons, or_left_comm] at hc
    rcases hc with rfl | hc
    · exact ⟨hm, hfresh.1⟩
    · exact ht.pos c hc
  case apart =>
    intro c hc u hu
    rcases List.mem_cons.mp hu with rfl | hu
    · exact Or.inl (ht.below hfresh (Or.inl hc))
    · exact ht.apart c hc u hu
  case used =>
    refine List.pairwise_cons.mpr ⟨?_, ht.used⟩
    intro u hu
    exact Or.inr (ht.below hfresh (Or.inr hu))
  case cover =>
    intro x
    have hcover := ht.cover x
    simp only [Heap.set, covered_cons, List.mem_cons, exists_eq_or_imp, ← hcover, Block.Covers,
      Block.stop]
    exact or_left_comm

/-- What `sbrk` may answer when `m` units are asked for: nothing, or a fresh
region.  The number of bytes has to fit, and the new block has to fit
together with the free blocks that it touches. -/
def Grants (base : Nat) (h : Heap) (F : List Block) (m : Nat) : Prop :=
  ∀ a rest, h.answers = some a :: rest →
    Fresh base h.regions a ∧ UNIT * m < 2 ^ 31 ∧ joined F ⟨a, m⟩ < 2 ^ 32

theorem sbrkArg_of_lt {m : Nat} (hm : UNIT * m < 2 ^ 31) : sbrkArg m = (UNIT * m : Nat) := by
  have hcomm : (m : Int) * (UNIT : Int) = (UNIT * m : Nat) := by rw [Int.natCast_mul, Int.mul_comm]
  unfold sbrkArg
  rw [hcomm, Int.bmod_eq_of_le (by omega) (by omega)]

/-- `morecore` gives nothing, or there is a free block with as many units. -/
theorem Tiled.morecore (ht : Tiled base h F U) (hgrants : Grants base h F (coreUnits n)) :
    ∃ fuel r h' F', (∀ k, Umalloc.morecore (fuel + k) n h = some (r, h')) ∧ Tiled base h' F' U ∧
      (∀ u ∈ U, ∀ x, u.Meets x → h'.mem x = h.mem x) ∧
      (r = 0 ∨ r = h'.freep ∧ ∃ c ∈ ring base F', n ≤ c.size) := by
  have hunits : n ≤ coreUnits n ∧ 0 < coreUnits n := by
    unfold coreUnits
    split <;> omega
  have hfails : ∀ rest, Tiled base { h with answers := rest } F U := fun _ =>
    ⟨ht.circle, ht.freep, ht.size, ht.gap, ht.pos, ht.apart, ht.used, ht.cover⟩
  unfold Umalloc.morecore sbrk
  cases hans : h.answers with
  | nil => exact ⟨0, 0, h, F, fun _ => rfl, ht, fun _ _ _ _ => rfl, Or.inl rfl⟩
  | cons answer rest =>
    cases answer with
    | none => exact ⟨0, 0, _, F, fun _ => rfl, hfails rest, fun _ _ _ _ => rfl, Or.inl rfl⟩
    | some a =>
      obtain ⟨hfresh, hbytes, hfits⟩ := hgrants a rest hans
      have htiled := ht.extend hfresh hunits.2 rest
      obtain ⟨fuel, h', F', hfree, hr⟩ := htiled.free hfits
      refine ⟨fuel, h'.freep, h', F', ?_, hr.tiled, ?_, Or.inr ⟨rfl, ?_⟩⟩
      · intro k
        dsimp only
        rw [sbrkArg_of_lt hbytes, Int.toNat_natCast, hfree k]
        rfl
      · intro u hu x hx
        rw [hr.same u hu x hx]
        apply update_of_ne
        -- the new header is above the other blocks
        have hle := ht.below hfresh (Or.inr hu)
        exact Nat.ne_of_lt (Nat.lt_of_lt_of_le hx.2 hle)
      · obtain ⟨c, hc, hle⟩ := hr.big
        exact ⟨c, hc, Nat.le_trans hunits.1 hle⟩

/-! ## The loop -/

/-- The loop goes past blocks that are too small. -/
theorem mallocLoop_path {l : List Nat} {prevp q z : Nat} (hpath : Path h.ptr q l z)
    (hprev : h.ptr prevp = q) (hsmall : ∀ y ∈ l, h.size y < n ∧ y ≠ h.freep) :
    ∃ prevp', (prevp' = prevp ∨ prevp' ∈ l) ∧ h.ptr prevp' = z ∧
      ∀ k, mallocLoop n (l.length + k) prevp q h = mallocLoop n k prevp' z h := by
  induction l generalizing prevp q with
  | nil =>
    obtain rfl : q = z := hpath
    exact ⟨prevp, Or.inl rfl, hprev, fun k => by rw [List.length_nil, Nat.zero_add]⟩
  | cons y l ih =>
    obtain ⟨rfl, hpath⟩ := hpath
    obtain ⟨hlt, hne⟩ := hsmall q List.mem_cons_self
    obtain ⟨prevp', hmem, hptr, hloop⟩ :=
      ih hpath rfl (fun y hy => hsmall y (List.mem_cons_of_mem q hy))
    refine ⟨prevp', Or.inr ?_, hptr, ?_⟩
    · rcases hmem with rfl | hmem
      · exact List.mem_cons_self
      · exact List.mem_cons_of_mem q hmem
    · intro k
      rw [List.length_cons, Nat.succ_add, mallocLoop, if_neg (Nat.not_le.mpr hlt), if_neg hne]
      exact hloop k

/-- One time around the free list, from behind `freep` back to it. -/
theorem Tiled.around (ht : Tiled base h F U) :
    ∃ l, Path h.ptr (h.ptr h.freep) l h.freep ∧ h.freep ∉ l ∧
      ∀ y, y ∈ (ring base F).map Block.addr ↔ y ∈ l ++ [h.freep] := by
  obtain ⟨l, hpath, hmem, hnot⟩ := ht.circle.path_from ht.freep
  refine ⟨l, hpath, hnot (nodup_ring ht.gap), ?_⟩
  intro y
  rw [hmem, List.mem_append, List.mem_singleton, or_comm]

/-- With a free block that is large enough, the loop takes one. -/
theorem Tiled.loop_found (ht : Tiled base h F U) (hn : 0 < n)
    (hbig : ∃ c ∈ ring base F, n ≤ c.size) :
    ∃ fuel F' q h', (∀ k, mallocLoop n (fuel + k) h.freep (h.ptr h.freep) h =
      some (q + UNIT, h')) ∧ Taken base h h' F' U q n := by
  obtain ⟨l, hpath, hnot, hmem⟩ := ht.around
  have hsome : ((l ++ [h.freep]).find? (fun y => n ≤ h.size y)).isSome := by
    obtain ⟨c, hc, hle⟩ := hbig
    refine List.find?_isSome.mpr ⟨c.addr, (hmem _).mp (List.mem_map_of_mem hc), ?_⟩
    rw [ht.size c (Or.inl hc), decide_eq_true hle]
  obtain ⟨y, hfind⟩ := Option.isSome_iff_exists.mp hsome
  obtain ⟨hy, l1, l2, hsplit, hl1⟩ := List.find?_eq_some_iff_append.mp hfind
  -- the way to the first block that is large enough
  have hway : Path h.ptr (h.ptr h.freep) l1 y := by
    have hround : Path h.ptr (h.ptr h.freep) (l ++ [h.freep]) (h.ptr h.freep) :=
      path_append.mpr ⟨h.freep, hpath, rfl, rfl⟩
    rw [hsplit] at hround
    obtain ⟨m, hm, rfl, -⟩ := path_append.mp hround
    exact hm
  have hnot1 : h.freep ∉ l1 := by
    have hl : l = l1 ++ (y :: l2).dropLast := by
      rw [← List.dropLast_append_cons, ← hsplit, List.dropLast_concat]
    intro hmem1
    apply hnot
    rw [hl]
    exact List.mem_append_left _ hmem1
  obtain ⟨prevp, hprev, hptr, hloop⟩ := mallocLoop_path hway rfl
    (fun z hz => ⟨by simpa using hl1 z hz, fun he => hnot1 (he ▸ hz)⟩)
  have hring : ∀ z, z ∈ l1 ∨ z = y ∨ z ∈ l2 → ∃ c ∈ ring base F, c.addr = z := by
    intro z hz
    apply List.mem_map.mp
    rw [hmem, hsplit, List.mem_append, List.mem_cons]
    exact hz
  obtain ⟨c, hc, rfl⟩ := hring y (Or.inr (Or.inl rfl))
  obtain ⟨a, ha, rfl⟩ : ∃ a ∈ ring base F, a.addr = prevp := by
    rcases hprev with rfl | hprev
    · exact List.mem_map.mp ht.freep
    · exact hring prevp (Or.inl hprev)
  rw [decide_eq_true_eq, ht.size c (Or.inl hc)] at hy
  have hfree : c ∈ F := by
    rcases mem_ring.mp hc with rfl | hfree
    · exact absurd hy (Nat.not_le.mpr hn)
    · exact hfree
  obtain ⟨F', q, hq, htaken⟩ := ht.carve ha hfree hptr hn hy
  refine ⟨l1.length + 1, F', q, _, ?_, htaken⟩
  intro k
  rw [Nat.add_assoc, hloop, Nat.add_comm 1 k, mallocLoop, if_pos (by rwa [ht.size c (Or.inl hc)]),
    ← hq]

theorem Tiled.freep_ne (ht : Tiled base h F U) (hbase : 0 < base) : h.freep ≠ 0 := by
  obtain ⟨c, hc, haddr⟩ := List.mem_map.mp ht.freep
  rcases mem_ring.mp hc with rfl | hc
  · exact haddr ▸ Nat.ne_of_gt hbase
  · have hpos := (ht.pos c (Or.inl hc)).2
    omega

/-- What `malloc` leaves: a block of `n` units, or no more than there was. -/
inductive Malloced (base : Nat) (h h' : Heap) (U : List Block) (n : Nat) : Nat → Prop
  | none (F' : List Block) : Tiled base h' F' U →
      (∀ u ∈ U, ∀ x, u.Meets x → h'.mem x = h.mem x) → Malloced base h h' U n 0
  | some (F' : List Block) (q : Nat) : Taken base h h' F' U q n →
      Malloced base h h' U n (q + UNIT)

/-- The loop ends.  It calls `morecore` only if no free block is large
enough. -/
theorem Tiled.loop (ht : Tiled base h F U) (hbase : 0 < base) (hn : 0 < n)
    (hgrants : (∀ c ∈ F, c.size < n) → Grants base h F (coreUnits n)) :
    ∃ fuel r h', (∀ k, mallocLoop n (fuel + k) h.freep (h.ptr h.freep) h = some (r, h')) ∧
      Malloced base h h' U n r := by
  by_cases hbig : ∃ c ∈ ring base F, n ≤ c.size
  · obtain ⟨fuel, F', q, h', hloop, htaken⟩ := ht.loop_found hn hbig
    exact ⟨fuel, q + UNIT, h', hloop, .some F' q htaken⟩
  have hsmall : ∀ c ∈ ring base F, c.size < n := by
    intro c hc
    exact Nat.not_le.mp (fun hle => hbig ⟨c, hc, hle⟩)
  have hsize : ∀ y ∈ (ring base F).map Block.addr, h.size y < n := by
    intro y hy
    obtain ⟨c, hc, rfl⟩ := List.mem_map.mp hy
    rw [ht.size c (Or.inl hc)]
    exact hsmall c hc
  -- all the way around, and then for more
  obtain ⟨l, hpath, hnot, hmem⟩ := ht.around
  obtain ⟨prevp, -, -, hloop⟩ := mallocLoop_path hpath rfl
    (fun z hz => ⟨hsize z ((hmem z).mpr (by simp [hz])), fun he => hnot (he ▸ hz)⟩)
  obtain ⟨fuel1, r, h1, F1, hcore, ht1, hsame1, hr⟩ :=
    ht.morecore (hgrants (fun c hc => hsmall c (mem_ring.mpr (Or.inr hc))))
  have hfull : ¬ n ≤ h.size h.freep := Nat.not_le.mpr (hsize _ ht.freep)
  rcases hr with rfl | ⟨rfl, hfound⟩
  · refine ⟨l.length + (fuel1 + 1), 0, h1, ?_, .none F1 ht1 hsame1⟩
    intro k
    rw [show l.length + (fuel1 + 1) + k = l.length + (fuel1 + k + 1) by omega, hloop,
      mallocLoop, if_neg hfull, if_pos rfl, hcore]
    rfl
  · obtain ⟨fuel2, F2, q, h2, hloop2, htaken⟩ := ht1.loop_found hn hfound
    refine ⟨l.length + (fuel1 + fuel2 + 1), q + UNIT, h2, ?_, .some F2 q ⟨htaken.tiled, ?_⟩⟩
    · intro k
      rw [show l.length + (fuel1 + fuel2 + 1) + k = l.length + (fuel1 + (fuel2 + k) + 1) by omega,
        hloop, mallocLoop, if_neg hfull, if_pos rfl, hcore, Option.bind_some]
      dsimp only
      rw [if_neg (ht1.freep_ne hbase), show fuel1 + (fuel2 + k) = fuel2 + (fuel1 + k) by omega, hloop2]
    · intro u hu x hx
      rw [htaken.same u hu x hx, hsame1 u hu x hx]

end Xv6.Umalloc
