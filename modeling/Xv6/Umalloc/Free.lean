import Xv6.Umalloc.Tiling

/-!
# `free` keeps the tiling

The block that `free` is given goes behind the block before it.  It is joined
to its upper neighbour first, while no link leads to it, and then to its lower
one.  Both are the same step, `join`: the header of a block gets a link to the
next block, or takes that block's units and its link.  On the lists of blocks
the step is `glue`.

The sizes of the joined blocks are added as `uint`, so `Tiled.free` asks that
the block and the free blocks that touch it have fewer than `2 ^ 32` units.
-/

namespace Xv6.Umalloc

open Xv6.Lib Function

variable {base : Nat} {h h' : Heap} {F U L : List Block} {b c p : Block}

/-! ## The size of the joined blocks -/

/-- The block with the free blocks that touch it, in units. -/
def joined (F : List Block) (b : Block) : Nat :=
  (F.filter (fun c => c.stop = b.addr ∨ b.stop = c.addr)).foldl (fun n c => n + c.size) b.size

theorem foldl_size_mono {L L' : List Block} (hsub : L.Sublist L') {n m : Nat} (hnm : n ≤ m) :
    L.foldl (fun n c => n + c.size) n ≤ L'.foldl (fun n c => n + c.size) m := by
  induction hsub generalizing n m with
  | slnil => exact hnm
  | cons c _ ih => exact ih (Nat.le_trans hnm (Nat.le_add_right _ _))
  | cons_cons c _ ih => exact ih (Nat.add_le_add_right hnm _)

/-- Some of the free blocks that touch a block. -/
theorem le_joined (hsub : L.Sublist F) (htouch : ∀ c ∈ L, c.stop = b.addr ∨ b.stop = c.addr) :
    L.foldl (fun n c => n + c.size) b.size ≤ joined F b := by
  apply foldl_size_mono _ (Nat.le_refl _)
  have hfilter := hsub.filter (fun c => decide (c.stop = b.addr ∨ b.stop = c.addr))
  rwa [List.filter_eq_self.mpr (fun c hc => decide_eq_true (htouch c hc))] at hfilter

/-! ## One join -/

/-- Put a block before a list.  If it touches the first block of the list, the
two become one. -/
def glue (b : Block) : List Block → List Block
  | [] => [b]
  | n :: L => if b.stop = n.addr then ⟨b.addr, b.size + n.size⟩ :: L else b :: n :: L

theorem covers_join {a b : Block} (hstop : a.stop = b.addr) (x : Nat) :
    (⟨a.addr, a.size + b.size⟩ : Block).Covers x ↔ a.Covers x ∨ b.Covers x := by
  simp only [Block.Covers, Block.stop, UNIT] at *
  omega

theorem covered_glue {x : Nat} : Covered (glue b L) x ↔ b.Covers x ∨ Covered L x := by
  cases L with
  | nil => exact covered_cons
  | cons n L =>
    rw [glue]
    split
    · rw [covered_cons, covers_join ‹_›, covered_cons, or_assoc]
    · exact covered_cons

/-- A block of the result is one of the blocks, with as many units or more. -/
theorem mem_glue (hc : c ∈ glue b L) : ∃ d ∈ b :: L, d.addr = c.addr ∧ d.size ≤ c.size := by
  cases L with
  | nil => exact ⟨c, hc, rfl, Nat.le_refl _⟩
  | cons n L =>
    rw [glue] at hc
    split at hc
    · rcases List.mem_cons.mp hc with rfl | hc
      · exact ⟨b, by simp, rfl, Nat.le_add_right _ _⟩
      · exact ⟨c, by simp [hc], rfl, Nat.le_refl _⟩
    · exact ⟨c, hc, rfl, Nat.le_refl _⟩

/-- No block gets lost. -/
theorem glue_large (hc : c ∈ b :: L) : ∃ d ∈ glue b L, c.size ≤ d.size := by
  cases L with
  | nil => exact ⟨c, hc, Nat.le_refl _⟩
  | cons n L =>
    rw [glue]
    split
    · rw [List.mem_cons, List.mem_cons] at hc
      rcases hc with rfl | rfl | hc
      · exact ⟨_, List.mem_cons_self, Nat.le_add_right _ _⟩
      · exact ⟨_, List.mem_cons_self, Nat.le_add_left _ _⟩
      · exact ⟨c, List.mem_cons_of_mem _ hc, Nat.le_refl _⟩
    · exact ⟨c, hc, Nat.le_refl _⟩

theorem addr_glue (b : Block) (L : List Block) : b.addr ∈ (glue b L).map Block.addr := by
  cases L with
  | nil => exact List.mem_cons_self
  | cons n L =>
    rw [glue]
    split
    · exact List.mem_cons_self
    · exact List.mem_cons_self

theorem gap_glue (hgap : L.Pairwise Gap) (hle : ∀ c ∈ L, b.stop ≤ c.addr) :
    (glue b L).Pairwise Gap := by
  cases L with
  | nil => exact List.pairwise_singleton _ _
  | cons n L =>
    obtain ⟨hn, hL⟩ := List.pairwise_cons.mp hgap
    rw [glue]
    split
    · rename_i htouch
      refine List.pairwise_cons.mpr ⟨?_, hL⟩
      intro c hc
      have hnc := hn c hc
      simp only [Gap, Block.stop, UNIT] at *
      omega
    · rename_i hne
      have hbn : Gap b n := Nat.lt_of_le_of_ne (hle n List.mem_cons_self) hne
      refine List.pairwise_cons.mpr ⟨List.forall_mem_cons.mpr ⟨hbn, ?_⟩, hgap⟩
      intro c hc
      exact Nat.lt_trans hbn (hn c hc).lt

/-- Link the block at `a` to the next block at `q`, or join the two. -/
def join (h : Heap) (a q : Nat) : Heap :=
  if a + UNIT * h.size a = q then
    h.set a { h.mem a with size := (h.size a + h.size q) % 2 ^ 32, ptr := h.ptr q }
  else h.set a { h.mem a with ptr := q }

theorem joinUpper_eq (h : Heap) (bp p : Nat) : joinUpper h bp p = join h bp (h.ptr p) := rfl

theorem joinLower_eq (h : Heap) (bp p : Nat) : joinLower h bp p = join h p bp := rfl

theorem join_mem {a x : Nat} (hx : x ≠ a) (q : Nat) : (join h a q).mem x = h.mem x := by
  unfold join
  split
  · exact update_of_ne hx _ _
  · exact update_of_ne hx _ _

theorem join_sbrk (h : Heap) (a q : Nat) :
    (join h a q).regions = h.regions ∧ (join h a q).answers = h.answers := by
  unfold join
  split
  · exact ⟨rfl, rfl⟩
  · exact ⟨rfl, rfl⟩

/-- A block before a chain of blocks. -/
theorem Chain.glue {q z : Nat} (hL : Chain h q L z) (hb : h.size b.addr = b.size)
    (hlt : ∀ c ∈ L, b.addr < c.addr) (hz : L = [] → b.stop ≠ z)
    (hfits : ∀ n ∈ L.head?, b.stop = n.addr → b.size + n.size < 2 ^ 32) :
    Chain (join h b.addr q) b.addr (glue b L) z := by
  have hstop : b.addr + UNIT * h.size b.addr = b.stop := by rw [hb]; rfl
  have hsame : ∀ c ∈ L, (join h b.addr q).mem c.addr = h.mem c.addr :=
    fun c hc => join_mem (Nat.ne_of_gt (hlt c hc)) q
  unfold join at hsame ⊢
  rw [hstop] at hsame ⊢
  cases L with
  | nil =>
    obtain rfl : q = z := hL.path
    rw [if_neg (hz rfl)]
    refine chain_cons.mpr ⟨rfl, (size_set_ptr _ _ _).trans hb, ptr_set_self _ _, by simp⟩
  | cons n L =>
    obtain ⟨rfl, hn, hrest⟩ := chain_cons.mp hL
    rw [Umalloc.glue]
    split
    · rename_i htouch
      rw [if_pos htouch] at hsame
      refine chain_cons.mpr ⟨rfl, ?_, ?_⟩
      · rw [size_set_self, hb, hn]
        exact Nat.mod_eq_of_lt (hfits n rfl htouch)
      · rw [ptr_set_self]
        exact hrest.congr (fun c hc => hsame c (List.mem_cons_of_mem n hc))
    · rename_i hne
      rw [if_neg hne] at hsame
      refine chain_cons.mpr ⟨rfl, (size_set_ptr _ _ _).trans hb, ?_⟩
      rw [ptr_set_self]
      exact hL.congr hsame

/-! ## The two joins of `free` -/

/-- A place in the ring is `base` itself or a free block. -/
theorem ring_split {A B : List Block} (hsplit : ring base F = A ++ p :: B) :
    (A = [] ∧ p = ⟨base, 0⟩ ∧ F = B) ∨ ∃ A', A = ⟨base, 0⟩ :: A' ∧ F = A' ++ p :: B := by
  cases A with
  | nil =>
    obtain ⟨hp, hF⟩ := List.cons.inj hsplit
    exact Or.inl ⟨rfl, hp.symm, hF⟩
  | cons a A' =>
    obtain ⟨ha, hF⟩ := List.cons.inj hsplit
    exact Or.inr ⟨A', by rw [← ha], hF⟩

theorem Tiled.addr_gt (ht : Tiled base h F U) (hb : b ∈ U) : base < b.addr :=
  Nat.lt_of_lt_of_le (Nat.lt_add_of_pos_right (by decide)) (ht.pos b (Or.inr hb)).2

/-- The static header is apart from the allocated blocks, too. -/
theorem Tiled.ring_apart (ht : Tiled base h F U) (hc : c ∈ ring base F) (hb : b ∈ U) :
    Apart c b := by
  rcases mem_ring.mp hc with rfl | hc
  · exact Or.inl (Nat.le_of_lt (ht.addr_gt hb))
  · exact ht.apart c hc b hb

/-- The place of an allocated block. -/
theorem Tiled.exists_around (ht : Tiled base h F U) (hb : b ∈ U) :
    ∃ A p B, Around base F b.addr A p B := by
  obtain ⟨A, p, B, hsplit, hp, hB⟩ := exists_pred ht.gap (ht.addr_gt hb)
  refine ⟨A, p, B, hsplit, hp, fun c hc => Nat.lt_of_le_of_ne (hB c hc) ?_⟩
  have hmem : c ∈ ring base F := by
    rw [show ring base F = A ++ p :: B from hsplit]
    simp [hc]
  have hapart := ht.ring_apart hmem hb
  have hle := hB c hc
  have hpos := (ht.pos b (Or.inr hb)).1
  rcases mem_ring.mp hmem with rfl | hF
  · have hgt := ht.addr_gt hb
    exact Nat.ne_of_gt hgt
  · have hcpos := (ht.pos c (Or.inl hF)).1
    simp only [Apart, Block.stop, UNIT] at *
    omega

section Join

variable {A B : List Block} (ht : Tiled base h F (b :: U)) (ha : Around base F b.addr A p B)
include ht ha

theorem upper_stop (hc : c ∈ B) : b.stop ≤ c.addr := by
  have hmem : c ∈ ring base F := by rw [ha.split]; simp [hc]
  have hapart := ht.ring_apart hmem List.mem_cons_self
  have hlt := ha.upper c hc
  have hle := c.le_stop
  unfold Apart at hapart
  omega

theorem lower_stop : p.stop ≤ b.addr := by
  have hmem : p ∈ ring base F := by rw [ha.split]; simp
  have hapart := ht.ring_apart hmem List.mem_cons_self
  have hlt := ha.pred
  have hle := b.le_stop
  unfold Apart at hapart
  omega

/-- The block before the new one is a free block if the two touch. -/
theorem touches_free (htouch : p.stop = b.addr) : (p :: B).Sublist F := by
  rcases ring_split ha.split with ⟨_, rfl, _⟩ | ⟨A', _, rfl⟩
  · exact absurd htouch (Nat.ne_of_lt (ht.addr_gt List.mem_cons_self))
  · exact List.sublist_append_right A' _

theorem upper_fits (hfits : joined F b < 2 ^ 32) :
    ∀ n ∈ B.head?, b.stop = n.addr → b.size + n.size < 2 ^ 32 := by
  intro n hn htouch
  have hsub : [n].Sublist F := by
    rw [List.singleton_sublist]
    have hmem : n ∈ ring base F := by rw [ha.split]; simp [List.mem_of_mem_head? hn]
    refine (mem_ring.mp hmem).resolve_left ?_
    rintro rfl
    exact Nat.lt_asymm (ht.addr_gt List.mem_cons_self) (ha.upper _ (List.mem_of_mem_head? hn))
  have hle := le_joined (b := b) hsub (by simp [htouch])
  exact Nat.lt_of_le_of_lt hle hfits

theorem lower_fits (hfits : joined F b < 2 ^ 32) :
    ∀ n ∈ (glue b B).head?, p.stop = n.addr → p.size + n.size < 2 ^ 32 := by
  have hone : p.stop = b.addr → p.size + b.size < 2 ^ 32 := by
    intro htouch
    have hsub := ((List.nil_sublist B).cons_cons p).trans (touches_free ht ha htouch)
    have hle := le_joined (b := b) hsub (by simp [htouch])
    simp only [List.foldl_cons, List.foldl_nil] at hle
    omega
  cases B with
  | nil =>
    rintro n ⟨⟩
    exact hone
  | cons n B =>
    rw [glue]
    split
    · rename_i hupper
      rintro _ ⟨⟩ htouch
      have hsub := (((List.nil_sublist B).cons_cons n).cons_cons p).trans
        (touches_free ht ha htouch)
      have hle := le_joined (b := b) hsub (by simp [show p.stop = b.addr from htouch, hupper])
      simp only [List.foldl_cons, List.foldl_nil] at hle
      dsimp only
      omega
    · rintro _ ⟨⟩
      exact hone

/-- The blocks behind `p` are above its end. -/
theorem lower_le (hc : c ∈ glue b B) : p.stop ≤ c.addr := by
  obtain ⟨-, -, -, hpB, -⟩ := gap_split (ha.split ▸ ht.gap)
  obtain ⟨d, hd, haddr, -⟩ := mem_glue hc
  rw [← haddr]
  rcases List.mem_cons.mp hd with rfl | hd
  · exact lower_stop ht ha
  · exact Nat.le_of_lt (hpB d hd)

theorem lower_lt (hc : c ∈ glue b B) : p.addr < c.addr := by
  obtain ⟨d, hd, haddr, -⟩ := mem_glue hc
  rw [← haddr]
  rcases List.mem_cons.mp hd with rfl | hd
  · exact ha.pred
  · exact Nat.lt_trans ha.pred (ha.upper d hd)

theorem gap_freed : (A ++ glue p (glue b B)).Pairwise Gap := by
  obtain ⟨hA, hB, hAp, -, -⟩ := gap_split (ha.split ▸ ht.gap)
  have hupper := gap_glue hB (fun c hc => upper_stop ht ha hc)
  refine List.pairwise_append.mpr ⟨hA, gap_glue hupper (fun c hc => lower_le ht ha hc), ?_⟩
  intro a ha' c hc
  obtain ⟨d, hd, haddr, -⟩ := mem_glue hc
  refine Nat.lt_of_lt_of_le (hAp a ha') ?_
  rw [← haddr]
  rcases List.mem_cons.mp hd with rfl | hd
  · exact Nat.le_refl _
  · exact Nat.le_of_lt (lower_lt ht ha hd)

/-- The chain of the free list after both joins. -/
theorem chain_freed (hfits : joined F b < 2 ^ 32) :
    Chain (joinLower (joinUpper h b.addr p.addr) b.addr p.addr) base
      (A ++ glue p (glue b B)) base := by
  have hbase := ht.addr_gt List.mem_cons_self
  have hpred := ha.pred
  have hchain := ht.chain
  rw [ha.split] at hchain
  obtain ⟨m, hA, hpB⟩ := chain_append.mp hchain
  obtain ⟨rfl, hp, hB⟩ := chain_cons.mp hpB
  rw [joinUpper_eq, joinLower_eq]
  have hupper : Chain (join h b.addr (h.ptr p.addr)) b.addr (glue b B) base := by
    apply hB.glue (ht.size b (Or.inr List.mem_cons_self)) ha.upper
    · intro _ heq
      have hle := b.le_stop
      omega
    · exact upper_fits ht ha hfits
  refine chain_append.mpr ⟨p.addr, hA.congr ?_, hupper.glue ?_ ?_ ?_ (lower_fits ht ha hfits)⟩
  · intro c hc
    have hlt := ((gap_split (ha.split ▸ ht.gap)).2.2.1 c hc).lt
    rw [join_mem (Nat.ne_of_lt hlt), join_mem (by omega)]
  · unfold Heap.size
    rw [join_mem (Nat.ne_of_lt hpred)]
    exact hp
  · exact fun c hc => lower_lt ht ha hc
  · intro hnil
    obtain ⟨d, hd, -⟩ := glue_large (List.mem_cons_self (a := b) (l := B))
    rw [hnil] at hd
    cases hd

/-- Every block of the new list is an old one or the freed one, with as many
units or more. -/
theorem mem_freed (hc : c ∈ A ++ glue p (glue b B)) :
    ∃ d, (d ∈ ring base F ∨ d = b) ∧ d.addr = c.addr ∧ d.size ≤ c.size := by
  rw [ha.split]
  rcases List.mem_append.mp hc with hc | hc
  · exact ⟨c, by simp [hc], rfl, Nat.le_refl _⟩
  obtain ⟨d, hd, haddr, hsize⟩ := mem_glue hc
  rcases List.mem_cons.mp hd with rfl | hd
  · exact ⟨d, by simp, haddr, hsize⟩
  obtain ⟨e, he, haddr', hsize'⟩ := mem_glue hd
  refine ⟨e, ?_, haddr'.trans haddr, Nat.le_trans hsize' hsize⟩
  rcases List.mem_cons.mp he with rfl | he
  · exact Or.inr rfl
  · exact Or.inl (by simp [he])

/-- It is the ring of some free blocks. -/
theorem exists_freed : ∃ F', ring base F' = A ++ glue p (glue b B) := by
  rcases ring_split ha.split with ⟨rfl, rfl, _⟩ | ⟨A', rfl, _⟩
  · refine ⟨glue b B, ?_⟩
    cases hup : glue b B with
    | nil => rfl
    | cons n L =>
      have hlt : base < n.addr := lower_lt ht ha (by simp [hup])
      rw [List.nil_append, glue, if_neg (show ¬ Block.stop ⟨base, 0⟩ = n.addr from Nat.ne_of_lt hlt)]
      rfl
  · exact ⟨A' ++ glue p (glue b B), rfl⟩

end Join

/-! ## `free` keeps the tiling -/

/-- A block whose bytes are in blocks that are apart from `u` is apart from
`u`. -/
theorem apart_of_covers {u : Block} (hc : 0 < c.size) (hu : 0 < u.size)
    (hcovers : ∀ x, c.Covers x → ∃ d, 0 < d.size ∧ Apart d u ∧ d.Covers x) : Apart c u := by
  rw [apart_iff hc hu]
  intro x hx
  obtain ⟨d, hd, hapart, hdx⟩ := hcovers x hx
  exact (apart_iff hd hu).mp hapart x hdx

/-- The sizes in headers that have not changed. -/
theorem Tiled.size_kept (ht : Tiled base h F U) (hc : c ∈ U)
    (hsame : ∀ x, c.Meets x → h'.mem x = h.mem x) : h'.size c.addr = c.size := by
  have hpos := (ht.pos c (Or.inr hc)).1
  have hself : c.Meets c.addr := by
    simp only [Block.Meets, Block.stop, UNIT]
    omega
  unfold Heap.size
  rw [hsame _ hself]
  exact ht.size c (Or.inr hc)

/-- What `free` of the block `b` does. -/
structure Released (base : Nat) (h h' : Heap) (F' : List Block) (b : Block) (U : List Block) :
    Prop where
  tiled : Tiled base h' F' U
  regions : h'.regions = h.regions
  answers : h'.answers = h.answers
  big : ∃ c ∈ ring base F', b.size ≤ c.size
  same : ∀ u ∈ U, ∀ x, u.Meets x → h'.mem x = h.mem x

theorem Tiled.freed {A B : List Block} (ht : Tiled base h F (b :: U))
    (ha : Around base F b.addr A p B) (hfits : joined F b < 2 ^ 32) :
    ∃ F', Released base h
      { joinLower (joinUpper h b.addr p.addr) b.addr p.addr with freep := p.addr } F' b U := by
  obtain ⟨F', hF'⟩ := exists_freed ht ha
  have hchain := chain_freed ht ha hfits
  have hgap := gap_freed ht ha
  rw [← hF'] at hchain hgap
  obtain ⟨hused, hrest⟩ := List.pairwise_cons.mp ht.used
  have hcovers : ∀ x, Covered F' x ↔ b.Covers x ∨ Covered F x := by
    intro x
    rw [← covered_ring, ← covered_ring (F := F), hF', ha.split, covered_append, covered_append,
      covered_glue, covered_glue, covered_cons]
    tauto
  have hpos : ∀ c ∈ F', 0 < c.size ∧ base + UNIT ≤ c.addr := by
    intro c hc
    have hlt : base < c.addr := ((List.pairwise_cons.mp hgap).1 c hc).lt
    obtain ⟨d, hd, haddr, hsize⟩ := mem_freed ht ha (hF' ▸ mem_ring.mpr (Or.inr hc))
    have hd' : d ∈ F ∨ d ∈ b :: U := by
      rcases hd with hd | rfl
      · refine Or.inl ((mem_ring.mp hd).resolve_left ?_)
        rintro rfl
        exact absurd haddr (Nat.ne_of_lt hlt)
      · exact Or.inr List.mem_cons_self
    obtain ⟨hdpos, hdaddr⟩ := ht.pos d hd'
    exact ⟨Nat.lt_of_lt_of_le hdpos hsize, haddr ▸ hdaddr⟩
  have hsame : ∀ u ∈ U, ∀ x, u.Meets x →
      (joinLower (joinUpper h b.addr p.addr) b.addr p.addr).mem x = h.mem x := by
    intro u hu x hx
    have hp : x ≠ p.addr := by
      rintro rfl
      refine ht.not_header (List.mem_cons_of_mem b hu) hx (List.mem_map_of_mem ?_)
      rw [ha.split]
      simp
    have hb : x ≠ b.addr := by
      rintro rfl
      have hapart := hused u hu
      have hbpos := (ht.pos b (Or.inr List.mem_cons_self)).1
      simp only [Apart, Block.Meets, Block.stop, UNIT] at *
      omega
    rw [joinLower_eq, join_mem hp, joinUpper_eq, join_mem hb]
  have hregions : (joinLower (joinUpper h b.addr p.addr) b.addr p.addr).regions = h.regions :=
    (join_sbrk _ _ _).1.trans (join_sbrk _ _ _).1
  refine ⟨F', ?_, hregions, (join_sbrk _ _ _).2.trans (join_sbrk _ _ _).2, ?_, hsame⟩
  · constructor
    case circle => exact ⟨base, hchain.path⟩
    case freep =>
      rw [hF', List.map_append]
      exact List.mem_append_right _ (addr_glue p (glue b B))
    case size =>
      intro c hc
      rcases hc with hc | hc
      · exact hchain.size c hc
      · exact ht.size_kept (List.mem_cons_of_mem b hc) (hsame c hc)
    case gap => exact hgap
    case pos => exact fun c hc => hc.elim (hpos c) (fun hc => ht.pos c (Or.inr (by simp [hc])))
    case apart =>
      intro c hc u hu
      have hupos := (ht.pos u (Or.inr (List.mem_cons_of_mem b hu))).1
      refine apart_of_covers (hpos c hc).1 hupos (fun x hx => ?_)
      rcases (hcovers x).mp ⟨c, hc, hx⟩ with hb | ⟨d, hd, hdx⟩
      · exact ⟨b, (ht.pos b (Or.inr List.mem_cons_self)).1, hused u hu, hb⟩
      · exact ⟨d, (ht.pos d (Or.inl hd)).1, ht.apart d hd u (List.mem_cons_of_mem b hu), hdx⟩
    case used => exact hrest
    case cover =>
      intro x
      show _ ↔ ∃ r ∈ (joinLower (joinUpper h b.addr p.addr) b.addr p.addr).regions, _
      rw [hregions, ← ht.cover, hcovers, covered_cons, or_assoc, or_left_comm]
  · obtain ⟨c, hc, hle⟩ := glue_large (List.mem_cons_self (a := b) (l := B))
    obtain ⟨d, hd, hle'⟩ := glue_large (List.mem_cons_of_mem p hc)
    exact ⟨d, by rw [hF']; simp [hd], Nat.le_trans hle hle'⟩

/-- `free` of an allocated block ends, and leaves a tiling without it. -/
theorem Tiled.free (ht : Tiled base h F (b :: U)) (hfits : joined F b < 2 ^ 32) :
    ∃ fuel h' F', (∀ k, Umalloc.free (fuel + k) (b.addr + UNIT) h = some h') ∧
      Released base h h' F' b U := by
  obtain ⟨A, p, B, ha⟩ := ht.exists_around List.mem_cons_self
  obtain ⟨fuel, hwalk⟩ := ht.walk_freeStop (ht.addr_gt List.mem_cons_self) ha
  obtain ⟨F', hF'⟩ := ht.freed ha hfits
  refine ⟨fuel, _, F', ?_, hF'⟩
  intro k
  rw [Umalloc.free, Nat.add_sub_cancel, hwalk k]
  rfl

end Xv6.Umalloc
