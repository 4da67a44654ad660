import Xv6.Lib.Transition
import Xv6.Umalloc.Malloc

/-!
# Runs of a program that uses the heap

`Proper` are the rules of the heap: a program frees and writes only blocks
that it has, and `sbrk` gives fresh memory.  `Fits` is what the allocator
needs beyond them, because it counts units in 32 bits and asks `sbrk` with an
`int`.

`heap_runs` says that in every run within the two the heap is sound and the
next operation ends.  `hugeBlock_overlaps` is a run within the rules only:
`malloc` gives a block of 4 GiB out of 16 bytes.
-/

namespace Xv6.Umalloc

open Xv6.Lib

variable {base : Nat} {h h' : Heap} {F U : List Block} {b : Block} {s s' : State}

/-! ## More fuel -/

theorem free_mono {fuel ap : Nat} (hf : free fuel ap h = some h') (k : Nat) :
    free (fuel + k) ap h = some h' := by
  obtain ⟨p, hwalk, rfl⟩ := Option.map_eq_some_iff.mp hf
  rw [free, walk_mono hwalk k]
  rfl

theorem morecore_mono {fuel n : Nat} {r : Nat × Heap} (hm : morecore fuel n h = some r) (k : Nat) :
    morecore (fuel + k) n h = some r := by
  unfold morecore at *
  split at hm
  · exact hm
  · obtain ⟨h1, hfree, rfl⟩ := Option.map_eq_some_iff.mp hm
    rw [free_mono hfree k]
    rfl

theorem mallocLoop_mono {n fuel prevp p : Nat} {r : Nat × Heap}
    (hm : mallocLoop n fuel prevp p h = some r) (k : Nat) :
    mallocLoop n (fuel + k) prevp p h = some r := by
  induction fuel generalizing prevp p h with
  | zero => cases hm
  | succ fuel ih =>
    rw [Nat.succ_add, mallocLoop]
    rw [mallocLoop] at hm
    split at hm
    · rename_i hle
      rw [if_pos hle, hm]
    · rename_i hlt
      rw [if_neg hlt]
      split at hm
      · rename_i heq
        rw [if_pos heq]
        obtain ⟨⟨q, h1⟩, hcore, hrest⟩ := Option.bind_eq_some_iff.mp hm
        rw [morecore_mono hcore k, Option.bind_some]
        dsimp only at hrest ⊢
        split at hrest
        · rename_i hq
          rw [if_pos hq, hrest]
        · rename_i hq
          rw [if_neg hq]
          exact ih hrest
      · rename_i hne
        rw [if_neg hne]
        exact ih hm

/-- The same operation with another bound for its loops. -/
def Op.withFuel : Op → Nat → Op
  | .malloc nbytes answers _, fuel => .malloc nbytes answers fuel
  | .free b _, fuel => .free b fuel
  | .store b k x, _ => .store b k x

/-- The bound of an operation. -/
def Op.fuel : Op → Nat
  | .malloc _ _ fuel | .free _ fuel => fuel
  | .store _ _ _ => 0

theorem next_mono {op : Op} (hnext : next base s op = some s') (k : Nat) :
    next base s (op.withFuel (op.fuel + k)) = some s' := by
  cases op with
  | malloc nbytes answers fuel =>
    obtain ⟨r, hm, rfl⟩ := Option.map_eq_some_iff.mp hnext
    apply Option.map_eq_some_iff.mpr
    exact ⟨r, mallocLoop_mono hm k, rfl⟩
  | free b fuel =>
    obtain ⟨h1, hf, rfl⟩ := Option.map_eq_some_iff.mp hnext
    apply Option.map_eq_some_iff.mpr
    exact ⟨h1, free_mono hf k, rfl⟩
  | store b k x => exact hnext

/-! ## The rules -/

/-- The free blocks, as the free list has them. -/
structure FreeList (base : Nat) (h : Heap) (F : List Block) : Prop where
  circle : Circle h.ptr ((ring base F).map Block.addr)
  nodup : ((ring base F).map Block.addr).Nodup
  size : ∀ b ∈ F, h.size b.addr = b.size

/-- A program frees and writes only blocks that it has, and a block behind its
header only.  `sbrk` fails, or gives a fresh region of the size that it is
asked for. -/
def Proper (base : Nat) (s : State) : Op → Prop
  | .malloc nbytes answers _ => ∀ a rest, answers = some a :: rest →
      Fresh base s.heap.regions a ∧ 0 ≤ sbrkArg (coreUnits (nunits nbytes))
  | .free b _ => b ∈ s.allocated
  | .store b k _ => b ∈ s.allocated ∧ 0 < k ∧ k < b.size

/-- If `malloc` has no free block and is given a region, it is asked for at
most `2 ^ 31 - 32` bytes.  A new free block has fewer than `2 ^ 32` units
together with the free blocks that it touches. -/
def Fits (base : Nat) (s : State) : Op → Prop
  | .malloc nbytes answers _ => ∀ F a rest, FreeList base (initList base s.heap) F →
      (∀ c ∈ F, c.size < nunits nbytes) → answers = some a :: rest →
      nbytes.toNat ≤ 2 ^ 31 - 32 ∧ joined F ⟨a, coreUnits (nunits nbytes)⟩ < 2 ^ 32
  | .free b _ => ∀ F, FreeList base s.heap F → joined F b < 2 ^ 32
  | .store _ _ _ => True

/-- Nothing has been asked for yet, or the blocks tile the memory. -/
def Sound (base : Nat) (s : State) : Prop :=
  Initial s ∨ ∃ F, Tiled base s.heap F s.allocated

/-- The operation is about this block. -/
def Op.About (b : Block) : Op → Prop
  | .malloc _ _ _ => False
  | .free c _ | .store c _ _ => b = c

/-- The result of the operation: `malloc` gives nothing, or a new block with
`nbytes` bytes behind its header.  Blocks that the operation is not about keep
their contents: no header that has changed shares a byte with them. -/
structure Effect (s : State) (op : Op) (s' : State) : Prop where
  malloc : ∀ nbytes answers fuel, op = .malloc nbytes answers fuel →
    s'.allocated = s.allocated ∨
      ∃ b, s'.allocated = b :: s.allocated ∧ nbytes.toNat ≤ UNIT * (b.size - 1)
  kept : ∀ u ∈ s.allocated, ¬ op.About u → ∀ x, u.Meets x → s'.heap.mem x = s.heap.mem x

theorem Tiled.freeList (ht : Tiled base h F U) : FreeList base h F :=
  ⟨ht.circle, nodup_ring ht.gap, fun b hb => ht.size b (Or.inl (mem_ring.mpr (Or.inr hb)))⟩

/-- The order of the allocated blocks does not matter. -/
theorem Tiled.perm {U' : List Block} (ht : Tiled base h F U) (hperm : U.Perm U') :
    Tiled base h F U' := by
  have hmem : ∀ c, c ∈ U' ↔ c ∈ U := fun c => hperm.mem_iff.symm
  refine ⟨ht.circle, ht.freep, ?_, ht.gap, ?_, ?_, ?_, ?_⟩
  · intro c hc
    rw [hmem] at hc
    exact ht.size c hc
  · intro c hc
    rw [hmem] at hc
    exact ht.pos c hc
  · intro c hc u hu
    exact ht.apart c hc u ((hmem u).mp hu)
  · exact hperm.pairwise ht.used Apart.symm
  · intro x
    have hcov : Covered U' x ↔ Covered U x := by simp only [Covered, hmem]
    rw [hcov]
    exact ht.cover x

/-! ## One operation -/

/-- The operation ends, in a sound state. -/
def Ends (base : Nat) (s : State) (op : Op) : Prop :=
  ∃ fuel s', (∀ k, next base s (op.withFuel (fuel + k)) = some s') ∧ Sound base s' ∧ Effect s op s'

theorem nunits_le (nbytes : UInt32) : nbytes.toNat ≤ UNIT * (nunits nbytes - 1) := by
  simp only [nunits, UNIT]
  omega

theorem coreUnits_fits {nbytes : UInt32} (hle : nbytes.toNat ≤ 2 ^ 31 - 32) :
    UNIT * coreUnits (nunits nbytes) < 2 ^ 31 := by
  have hunits : nunits nbytes < 2 ^ 27 := by
    simp only [nunits, UNIT]
    omega
  unfold coreUnits
  simp only [UNIT]
  split
  · decide
  · omega

theorem initList_tiled (hbase : 0 < base) (hs : Sound base s) :
    ∃ F, Tiled base (initList base s.heap) F s.allocated ∧
      ∀ u ∈ s.allocated, ∀ x, u.Meets x → (initList base s.heap).mem x = s.heap.mem x := by
  rcases hs with ⟨hfreep, hregions, halloc⟩ | ⟨F, ht⟩
  · refine ⟨[], ?_, by simp [halloc]⟩
    rw [halloc, initList, if_pos hfreep]
    constructor
    case circle => exact ⟨base, rfl, ptr_set_self _ _⟩
    case freep => exact List.mem_singleton_self _
    case size =>
      intro c hc
      obtain rfl : c = ⟨base, 0⟩ := by simpa [ring] using hc
      exact size_set_self _ _
    case gap => exact List.pairwise_singleton _ _
    case pos => simp
    case apart => simp
    case used => exact List.Pairwise.nil
    case cover => simp [Covered, Heap.set, hregions]
  · rw [initList, if_neg (ht.freep_ne hbase)]
    exact ⟨F, ht, fun _ _ _ _ => rfl⟩

theorem Sound.malloc (hbase : 0 < base) (hs : Sound base s) {nbytes : UInt32}
    {answers : List (Option Nat)} {fuel : Nat} (hproper : Proper base s (.malloc nbytes answers fuel))
    (hfits : Fits base s (.malloc nbytes answers fuel)) :
    Ends base s (.malloc nbytes answers fuel) := by
  obtain ⟨F, ht, hinit⟩ := initList_tiled hbase hs
  have hlist := ht.freeList
  have hregions : (initList base s.heap).regions = s.heap.regions := by
    unfold initList
    split <;> rfl
  have hcomm : initList base { s.heap with answers := answers } =
      { initList base s.heap with answers := answers } := by
    unfold initList
    split <;> rfl
  have hn : 0 < nunits nbytes := Nat.succ_pos _
  have ht' : Tiled base { initList base s.heap with answers := answers } F s.allocated :=
    ⟨ht.circle, ht.freep, ht.size, ht.gap, ht.pos, ht.apart, ht.used, ht.cover⟩
  obtain ⟨fuel', r, h', hloop, hresult⟩ := ht'.loop hbase hn (by
    intro hsmall a rest hans
    obtain ⟨hle, hjoin⟩ := hfits F a rest hlist hsmall hans
    refine ⟨?_, coreUnits_fits hle, hjoin⟩
    dsimp only
    rw [hregions]
    exact (hproper a rest hans).1)
  have hnext : ∀ k, next base s (.malloc nbytes answers (fuel' + k)) =
      some (if r = 0 then ⟨h', s.allocated⟩
        else ⟨h', ⟨r - UNIT, h'.size (r - UNIT)⟩ :: s.allocated⟩) := by
    intro k
    unfold next Umalloc.malloc
    dsimp only
    rw [hcomm, hloop k]
    rfl
  refine ⟨fuel', _, hnext, ?_⟩
  cases hresult with
  | none F' ht' hsame =>
    refine ⟨Or.inr ⟨F', ht'⟩, fun _ _ _ _ => Or.inl rfl, ?_⟩
    intro u hu _ x hx
    exact (hsame u hu x hx).trans (hinit u hu x hx)
  | some F' q htaken =>
    have hsize : h'.size q = nunits nbytes := 
      htaken.tiled.size ⟨q, nunits nbytes⟩ (Or.inr List.mem_cons_self)
    rw [if_neg (by simp), Nat.add_sub_cancel, hsize]
    refine ⟨Or.inr ⟨F', htaken.tiled⟩, ?_, ?_⟩
    · intro nbytes' _ _ heq
      cases heq
      exact Or.inr ⟨_, rfl, nunits_le nbytes⟩
    · intro u hu _ x hx
      exact (htaken.same u hu x hx).trans (hinit u hu x hx)

theorem Sound.free (hs : Sound base s) {fuel : Nat} (hproper : Proper base s (.free b fuel))
    (hfits : Fits base s (.free b fuel)) : Ends base s (.free b fuel) := by
  rcases hs with ⟨-, -, halloc⟩ | ⟨F, ht⟩
  · rw [Proper, halloc] at hproper
    cases hproper
  have ht' := ht.perm (List.perm_cons_erase hproper)
  obtain ⟨fuel', h', F', hfree, hr⟩ := ht'.free (hfits F ht.freeList)
  refine ⟨fuel', ⟨h', s.allocated.erase b⟩, ?_, Or.inr ⟨F', hr.tiled⟩, nofun, ?_⟩
  · intro k
    apply Option.map_eq_some_iff.mpr
    exact ⟨h', hfree k, rfl⟩
  · intro u hu hne x hx
    exact hr.same u ((List.mem_erase_of_ne hne).mpr hu) x hx

/-- What a program writes behind the header of a block is not in a header. -/
theorem Tiled.store (ht : Tiled base h F U) (hb : b ∈ U) {k : Nat} (hpos : 0 < k)
    (hlt : k < b.size) (x : Header) : Tiled base (h.set (b.addr + UNIT * k) x) F U := by
  have hmeets : b.Meets (b.addr + UNIT * k) := by
    simp only [Block.Meets, Block.stop, UNIT]
    omega
  have hlist := ht.not_header hb hmeets
  have hused : ∀ u ∈ U, u.addr ≠ b.addr + UNIT * k := by
    intro u hu
    by_cases hub : u = b
    · rw [hub]
      simp only [UNIT]
      omega
    · have hapart := ht.used.forall hu hb hub
      have hsize := (ht.pos u (Or.inr hu)).1
      simp only [Apart, Block.stop, UNIT] at *
      omega
  refine ⟨?_, ht.freep, ?_, ht.gap, ht.pos, ht.apart, ht.used, ht.cover⟩
  · apply ht.circle.congr
    intro q hq
    apply ptr_set_of_ne
    rintro rfl
    exact hlist hq
  · intro c hc
    rw [size_set_of_ne]
    · exact ht.size c hc
    · rcases hc with hc | hc
      · intro heq
        exact hlist (heq ▸ List.mem_map_of_mem hc)
      · exact hused c hc

theorem Sound.store (hs : Sound base s) {k : Nat} {x : Header}
    (hproper : Proper base s (.store b k x)) : Ends base s (.store b k x) := by
  obtain ⟨hb, hpos, hlt⟩ := hproper
  rcases hs with ⟨-, -, halloc⟩ | ⟨F, ht⟩
  · rw [halloc] at hb
    cases hb
  refine ⟨0, _, fun _ => rfl, Or.inr ⟨F, ht.store hb hpos hlt x⟩, nofun, ?_⟩
  intro u hu hne y hy
  apply Function.update_of_ne
  rintro rfl
  have hapart := ht.used.forall hu hb hne
  simp only [Apart, Block.Meets, Block.stop, UNIT] at *
  omega

theorem Sound.ends (hbase : 0 < base) (hs : Sound base s) {op : Op} (hproper : Proper base s op)
    (hfits : Fits base s op) : Ends base s op := by
  cases op with
  | malloc nbytes answers fuel => exact hs.malloc hbase hproper hfits
  | free b fuel => exact hs.free hproper hfits
  | store b k x => exact hs.store hproper

/-- Whatever the fuel is, a result is the result. -/
theorem Ends.sound {op : Op} (he : Ends base s op) (hnext : next base s op = some s') :
    Sound base s' := by
  obtain ⟨fuel, s'', hall, hsound, -⟩ := he
  have hmore := next_mono hnext fuel
  rw [Nat.add_comm, hall] at hmore
  exact Option.some.inj hmore ▸ hsound

/-- The states of the runs that keep to the rules. -/
abbrev Reachable (base : Nat) : State → Prop := ReachWhen (Proper base) (next base) Initial

theorem sound_of_reach (hbase : 0 < base)
    (hs : ReachWhen (fun s op => Proper base s op ∧ Fits base s op) (next base) Initial s) :
    Sound base s := by
  apply hs.invariant
  · intro s hinit
    exact Or.inl hinit
  · intro s op s' hsound hok hnext
    exact (hsound.ends hbase hok.1 hok.2).sound hnext

/-- In every run within the rules and with operations that fit, the heap is
sound, and every further operation ends, has its effect and leaves the heap
sound. -/
theorem heap_runs (hbase : 0 < base)
    (hs : ReachWhen (fun s op => Proper base s op ∧ Fits base s op) (next base) Initial s) :
    Sound base s ∧ ∀ op, Proper base s op → Fits base s op → Ends base s op := by
  have hsound := sound_of_reach hbase hs
  exact ⟨hsound, fun op hproper hfits => hsound.ends hbase hproper hfits⟩

/-! ## A small run, and a run that breaks the heap -/

/-- A process that has not used its heap. -/
def newProcess : State := ⟨⟨fun _ => ⟨0, 0, 0⟩, 0, [], []⟩, []⟩

/-- Before the first region there are no free blocks. -/
theorem freeList_new (hF : FreeList base (initList base newProcess.heap) F) : F = [] := by
  cases F with
  | nil => rfl
  | cons c F =>
    obtain ⟨s, -, hc, -⟩ := hF.circle
    have hself : (initList base newProcess.heap).ptr base = base := ptr_set_self _ _
    have hnodup := hF.nodup
    simp [ring, ← hc, hself] at hnodup

/-- The program asks for 100 bytes, and `sbrk` gives a region at `0x4000`. -/
theorem heap_runs_small : ∃ s,
    ReachWhen (fun s op => Proper 4096 s op ∧ Fits 4096 s op) (next 4096) Initial s ∧
      s.allocated = [⟨0x4000 + 16 * 4088, 8⟩] ∧ Sound 4096 s := by
  obtain ⟨s, hnext, halloc⟩ : ∃ s, next 4096 newProcess (.malloc 100 [some 0x4000] 5) = some s ∧
      s.allocated = [⟨0x4000 + 16 * 4088, 8⟩] :=
    Option.map_eq_some_iff.mp (by decide)
  have hreach : ReachWhen (fun s op => Proper 4096 s op ∧ Fits 4096 s op) (next 4096) Initial s := by
    refine .step _ (.init ⟨rfl, rfl, rfl⟩) ⟨?_, ?_⟩ hnext
    · intro a rest hans
      cases hans
      exact ⟨⟨by decide, by simp [newProcess]⟩, by decide⟩
    · intro F a rest hF _ hans
      cases hans
      rw [freeList_new hF]
      decide
  exact ⟨s, hreach, halloc, (heap_runs (by decide) hreach).1⟩

/-- `malloc(4294967295)` asks `sbrk` for 16 bytes and makes a block of
`2 ^ 28 + 1` units out of them. -/
theorem hugeBlock_overlaps : ∃ s, Reachable 4096 s ∧ ¬ Sound 4096 s := by
  obtain ⟨s, hnext, hs⟩ : ∃ s,
      next 4096 newProcess (.malloc 4294967295 [some 0x4000] 5) = some s ∧
        (s.allocated, s.heap.regions) = ([⟨0x4000, 2 ^ 28 + 1⟩], [(0x4000, 16)]) :=
    Option.map_eq_some_iff.mp (by decide)
  obtain ⟨halloc, hregions⟩ := Prod.mk.inj hs
  refine ⟨s, .step _ (.init ⟨rfl, rfl, rfl⟩) ?_ hnext, ?_⟩
  · intro a rest hans
    cases hans
    exact ⟨⟨by decide, by simp [newProcess]⟩, by decide⟩
  · rintro (⟨-, -, hnone⟩ | ⟨F, ht⟩)
    · rw [halloc] at hnone
      cases hnone
    · -- a byte of the block is in no region
      have hcov : Covered s.allocated 0x4010 := by
        refine ⟨⟨0x4000, 2 ^ 28 + 1⟩, by simp [halloc], ?_⟩
        simp [Block.Covers, Block.stop, UNIT]
      obtain ⟨r, hr, -, hlt⟩ := (ht.cover _).mp (Or.inr hcov)
      rw [hregions, List.mem_singleton] at hr
      subst hr
      simp at hlt

end Xv6.Umalloc
