import Mathlib.Data.List.Pairwise
import Xv6.Umalloc.Model

/-!
# The blocks of the heap

`Tiled` is the invariant of the allocator.  The free list is `base`, as a
block of size 0, and then the free blocks in the order of their addresses,
with a gap between any two.  The free and the allocated blocks are apart, and
together they cover the regions that `sbrk` has given.

`walk_freeStop` says where the loop of `free` stops: at the block before the
one that is freed, whatever `freep` is.
-/

namespace Xv6.Umalloc

open Xv6.Lib

/-- The address behind the block. -/
def Block.stop (b : Block) : Nat := b.addr + UNIT * b.size

/-- The block has the byte `x`. -/
def Block.Covers (b : Block) (x : Nat) : Prop := b.addr ≤ x ∧ x < b.stop

/-- A header at the address `x` shares a byte with the block. -/
def Block.Meets (b : Block) (x : Nat) : Prop := b.addr < x + UNIT ∧ x < b.stop

/-- One of the blocks has the byte `x`. -/
def Covered (L : List Block) (x : Nat) : Prop := ∃ b ∈ L, b.Covers x

/-- No byte is in both blocks. -/
def Apart (a b : Block) : Prop := a.stop ≤ b.addr ∨ b.stop ≤ a.addr

/-- There is a gap between the blocks. -/
def Gap (a b : Block) : Prop := a.stop < b.addr

/-- The free list: the static header, and the free blocks. -/
def ring (base : Nat) (F : List Block) : List Block := ⟨base, 0⟩ :: F

/-- `F` are the free blocks, `U` the allocated ones. -/
structure Tiled (base : Nat) (h : Heap) (F U : List Block) : Prop where
  circle : Circle h.ptr ((ring base F).map Block.addr)
  freep : h.freep ∈ (ring base F).map Block.addr
  size : ∀ b, b ∈ ring base F ∨ b ∈ U → h.size b.addr = b.size
  gap : (ring base F).Pairwise Gap
  pos : ∀ b, b ∈ F ∨ b ∈ U → 0 < b.size ∧ base + UNIT ≤ b.addr
  apart : ∀ b ∈ F, ∀ u ∈ U, Apart b u
  used : U.Pairwise Apart
  cover : ∀ x, Covered F x ∨ Covered U x ↔ ∃ r ∈ h.regions, r.1 ≤ x ∧ x < r.1 + r.2

variable {base : Nat} {h h' : Heap} {F U : List Block} {b p : Block}

theorem mem_ring : b ∈ ring base F ↔ b = ⟨base, 0⟩ ∨ b ∈ F := List.mem_cons

variable {a : Block} {L A B : List Block} {x q z : Nat}

theorem Apart.symm {b : Block} (h : Apart a b) : Apart b a := Or.symm h

@[simp] theorem covered_cons : Covered (b :: L) x ↔ b.Covers x ∨ Covered L x := by
  simp [Covered]

@[simp] theorem covered_append {L' : List Block} :
    Covered (L ++ L') x ↔ Covered L x ∨ Covered L' x := by
  simp [Covered, or_and_right, exists_or]

/-- The static header is no memory from `sbrk`. -/
theorem covered_ring : Covered (ring base F) x ↔ Covered F x := by
  have hbase : ¬ (⟨base, 0⟩ : Block).Covers x := by
    simp only [Block.Covers, Block.stop]
    omega
  rw [ring, covered_cons]
  exact or_iff_right hbase

/-- Two blocks of some size are apart if they share no byte. -/
theorem apart_iff {b : Block} (ha : 0 < a.size) (hb : 0 < b.size) :
    Apart a b ↔ ∀ x, a.Covers x → ¬ b.Covers x := by
  simp only [Apart, Block.Covers, Block.stop, UNIT]
  constructor
  · intro h x hx
    omega
  · intro h
    have h1 := h a.addr
    have h2 := h b.addr
    omega

/-- No header of the free list shares a byte with an allocated block. -/
theorem Tiled.not_header (ht : Tiled base h F U) {u : Block} (hu : u ∈ U) (hx : u.Meets x) :
    x ∉ (ring base F).map Block.addr := by
  intro hmem
  obtain ⟨c, hc, rfl⟩ := List.mem_map.mp hmem
  have hpos := (ht.pos u (Or.inr hu)).2
  rcases mem_ring.mp hc with rfl | hc
  · simp only [Block.Meets, Block.stop, UNIT] at *
    omega
  · have hapart := ht.apart c hc u hu
    have hcpos := (ht.pos c (Or.inl hc)).1
    simp only [Apart, Block.Meets, Block.stop, UNIT] at *
    omega

/-! ## One header changes -/

@[simp] theorem ptr_set_self (a : Nat) (x : Header) : (h.set a x).ptr a = x.ptr := by
  simp [Heap.set, Heap.ptr]

@[simp] theorem size_set_self (a : Nat) (x : Header) : (h.set a x).size a = x.size := by
  simp [Heap.set, Heap.size]

theorem ptr_set_of_ne {a : Nat} (hq : q ≠ a) (x : Header) : (h.set a x).ptr q = h.ptr q := by
  simp [Heap.set, Heap.ptr, hq]

theorem size_set_of_ne {a : Nat} (hq : q ≠ a) (x : Header) : (h.set a x).size q = h.size q := by
  simp [Heap.set, Heap.size, hq]

/-- A new size leaves the links as they are. -/
theorem ptr_set_size (a n q : Nat) : (h.set a { h.mem a with size := n }).ptr q = h.ptr q := by
  by_cases hq : q = a
  · rw [hq, ptr_set_self]
    rfl
  · exact ptr_set_of_ne hq _

/-- A new link leaves the sizes as they are. -/
theorem size_set_ptr (a n q : Nat) : (h.set a { h.mem a with ptr := n }).size q = h.size q := by
  by_cases hq : q = a
  · rw [hq, size_set_self]
    rfl
  · exact size_set_of_ne hq _

/-! ## Sorted blocks -/

theorem Block.le_stop (b : Block) : b.addr ≤ b.stop := Nat.le_add_right _ _

theorem Gap.lt {c : Block} (h : Gap a c) : a.addr < c.addr := Nat.lt_of_le_of_lt a.le_stop h

instance : Std.Symm (fun a c => Gap a c ∨ Gap c a) := ⟨fun _ _ => Or.symm⟩

/-- Of two blocks, one is before the other. -/
theorem gap_or (hgap : L.Pairwise Gap) {c : Block} (ha : a ∈ L) (hc : c ∈ L) (hne : a ≠ c) :
    Gap a c ∨ Gap c a :=
  (hgap.imp (S := fun a c => Gap a c ∨ Gap c a) Or.inl).forall ha hc hne

/-- Split a sorted list behind its last block below an address. -/
theorem exists_pred {r : Block} (hgap : (r :: L).Pairwise Gap) (hr : r.addr < x) :
    ∃ A p B, r :: L = A ++ p :: B ∧ p.addr < x ∧ ∀ c ∈ B, x ≤ c.addr := by
  induction L generalizing r with
  | nil => exact ⟨[], r, [], rfl, hr, by simp⟩
  | cons n L ih =>
    have htail := hgap.of_cons
    by_cases hn : n.addr < x
    · obtain ⟨A, p, B, hsplit, hp, hB⟩ := ih htail hn
      exact ⟨r :: A, p, B, by rw [hsplit]; rfl, hp, hB⟩
    · refine ⟨[], r, n :: L, rfl, hr, ?_⟩
      intro c hc
      rcases List.mem_cons.mp hc with rfl | hc
      · omega
      · have hlt := ((List.pairwise_cons.mp htail).1 c hc).lt
        omega

/-- The gaps around one place. -/
theorem gap_split (hgap : (A ++ p :: B).Pairwise Gap) :
    A.Pairwise Gap ∧ B.Pairwise Gap ∧ (∀ a ∈ A, Gap a p) ∧ (∀ c ∈ B, Gap p c) ∧
      ∀ a ∈ A, ∀ c ∈ B, Gap a c := by
  obtain ⟨hA, hpB, hcross⟩ := List.pairwise_append.mp hgap
  obtain ⟨hp, hB⟩ := List.pairwise_cons.mp hpB
  refine ⟨hA, hB, fun a ha => hcross a ha p (by simp), hp, fun a ha c hc => ?_⟩
  exact hcross a ha c (by simp [hc])

/-! ## Linked blocks -/

/-- From `q` the links lead through the blocks `L` to `z`, and the sizes are in
the headers. -/
structure Chain (h : Heap) (q : Nat) (L : List Block) (z : Nat) : Prop where
  path : Path h.ptr q (L.map Block.addr) z
  size : ∀ c ∈ L, h.size c.addr = c.size

theorem chain_append : Chain h q (A ++ B) z ↔ ∃ m, Chain h q A m ∧ Chain h m B z := by
  constructor
  · rintro ⟨hpath, hsize⟩
    rw [List.map_append] at hpath
    obtain ⟨m, hA, hB⟩ := path_append.mp hpath
    exact ⟨m, ⟨hA, fun c hc => hsize c (List.mem_append_left B hc)⟩,
      ⟨hB, fun c hc => hsize c (List.mem_append_right A hc)⟩⟩
  · rintro ⟨m, hA, hB⟩
    refine ⟨?_, fun c hc => (List.mem_append.mp hc).elim (hA.size c) (hB.size c)⟩
    rw [List.map_append]
    exact path_append.mpr ⟨m, hA.path, hB.path⟩

theorem chain_cons :
    Chain h q (b :: L) z ↔ q = b.addr ∧ h.size b.addr = b.size ∧ Chain h (h.ptr b.addr) L z := by
  constructor
  · rintro ⟨⟨hq, hpath⟩, hsize⟩
    exact ⟨hq, hsize b List.mem_cons_self, hpath, fun c hc => hsize c (List.mem_cons_of_mem b hc)⟩
  · rintro ⟨hq, hb, hL⟩
    exact ⟨⟨hq, hL.path⟩, List.forall_mem_cons.mpr ⟨hb, hL.size⟩⟩

/-- Only the headers of the blocks matter. -/
theorem Chain.congr (hc : Chain h q L z) (hsame : ∀ c ∈ L, h'.mem c.addr = h.mem c.addr) :
    Chain h' q L z := by
  constructor
  · apply hc.path.congr
    intro a ha
    obtain ⟨c, hc, rfl⟩ := List.mem_map.mp ha
    exact congrArg Header.ptr (hsame c hc)
  · intro c hmem
    exact (congrArg Header.size (hsame c hmem)).trans (hc.size c hmem)

theorem Tiled.chain (ht : Tiled base h F U) : Chain h base (ring base F) base := by
  obtain ⟨s, hs⟩ := ht.circle
  obtain rfl : s = base := hs.1
  exact ⟨hs, fun c hc => ht.size c (Or.inl hc)⟩

/-- The chain from one place of the free list on. -/
theorem Tiled.chain_from (ht : Tiled base h F U) (hsplit : ring base F = A ++ p :: B) :
    Chain h (h.ptr p.addr) B base := by
  have hchain := ht.chain
  rw [hsplit] at hchain
  obtain ⟨m, -, hpB⟩ := chain_append.mp hchain
  exact (chain_cons.mp hpB).2.2

theorem Tiled.base_le (ht : Tiled base h F U) (hb : b ∈ ring base F) : base ≤ b.addr := by
  rcases mem_ring.mp hb with rfl | hF
  · exact Nat.le_refl _
  · exact Nat.le_of_add_right_le (ht.pos b (Or.inl hF)).2

/-! ## Where `free` stops -/

/-- `p` is the block of the ring before the address `bp`, `A` are the blocks
before it and `B` those behind. -/
structure Around (base : Nat) (F : List Block) (bp : Nat) (A : List Block) (p : Block)
    (B : List Block) : Prop where
  split : ring base F = A ++ p :: B
  pred : p.addr < bp
  upper : ∀ c ∈ B, bp < c.addr

/-- The loop of `free` stops at a block that is below `bp`, if all the blocks
behind it are above `bp`. -/
theorem Tiled.freeStop_iff (ht : Tiled base h F U) {bp : Nat} (hbase : base < bp)
    (hp : p ∈ ring base F) : freeStop h bp p.addr = true ↔
      p.addr < bp ∧ ∀ c ∈ ring base F, p.addr < c.addr → bp < c.addr := by
  have hle := ht.base_le hp
  obtain ⟨A, B, hsplit⟩ := List.append_of_mem hp
  obtain ⟨-, hB, hA, hpB, -⟩ := gap_split (hsplit ▸ ht.gap)
  have hchain := ht.chain_from hsplit
  have hbehind : (∀ c ∈ ring base F, p.addr < c.addr → bp < c.addr) ↔ ∀ c ∈ B, bp < c.addr := by
    rw [hsplit]
    constructor
    · intro h c hc
      exact h c (by simp [hc]) (hpB c hc).lt
    · intro h c hc hlt
      rcases List.mem_append.mp hc with hc | hc
      · exact absurd (hA c hc).lt (Nat.lt_asymm hlt)
      · rcases List.mem_cons.mp hc with rfl | hc
        · exact absurd hlt (Nat.lt_irrefl _)
        · exact h c hc
  rw [hbehind]
  simp only [freeStop, Bool.or_eq_true, Bool.and_eq_true, decide_eq_true_eq]
  cases B with
  | nil =>
    -- the next address is `base`
    have hptr : h.ptr p.addr = base := hchain.path
    simp only [hptr, List.not_mem_nil, false_implies, implies_true, and_true]
    omega
  | cons n B =>
    have hptr : h.ptr p.addr = n.addr := hchain.path.1
    have hlt := (hpB n List.mem_cons_self).lt
    have hn : (∀ c ∈ n :: B, bp < c.addr) ↔ bp < n.addr := by
      refine ⟨fun h => h n List.mem_cons_self, fun h => List.forall_mem_cons.mpr ⟨h, ?_⟩⟩
      intro c hc
      exact Nat.lt_trans h ((List.pairwise_cons.mp hB).1 c hc).lt
    rw [hn, hptr]
    omega

theorem Tiled.walk_freeStop (ht : Tiled base h F U) {bp : Nat} (hbase : base < bp)
    (ha : Around base F bp A p B) :
    ∃ fuel, ∀ k, walk h.ptr (freeStop h bp) (fuel + k) h.freep = some p.addr := by
  have hp : p ∈ ring base F := by rw [ha.split]; simp
  obtain ⟨-, -, hA, -, -⟩ := gap_split (ha.split ▸ ht.gap)
  have hupper : ∀ c ∈ ring base F, p.addr < c.addr → bp < c.addr := by
    intro c hc hlt
    rw [ha.split, List.mem_append, List.mem_cons] at hc
    rcases hc with hc | rfl | hc
    · exact absurd (hA c hc).lt (Nat.lt_asymm hlt)
    · exact absurd hlt (Nat.lt_irrefl _)
    · exact ha.upper c hc
  refine ht.circle.walk ht.freep (List.mem_map_of_mem hp)
    ((ht.freeStop_iff hbase hp).mpr ⟨ha.pred, hupper⟩) ?_
  intro q hq hne
  obtain ⟨c, hc, rfl⟩ := List.mem_map.mp hq
  rw [Bool.eq_false_iff, Ne, ht.freeStop_iff hbase hc]
  rintro ⟨hlt, hup⟩
  -- one of `c` and `p` is behind the other
  rcases gap_or ht.gap hc hp (fun heq => hne (congrArg Block.addr heq)) with hgap | hgap
  · exact Nat.lt_asymm ha.pred (hup p hp hgap.lt)
  · exact Nat.lt_asymm hlt (hupper c hc hgap.lt)

end Xv6.Umalloc
