import Mathlib.Data.List.Nodup
import Mathlib.Data.List.Perm.Basic
import Xv6.Virtio.Model

/-!
# The descriptors

`alloc3_desc` takes three free descriptors or leaves the free ones as they
are, and `free_chain` gives back the three of a formatted chain.  Neither
panics.

`Tiles` says that the chains of some requests and the free descriptors
together are all the descriptors, each once.
-/

namespace Xv6.Virtio

open Xv6.Lib Function

variable {d d' : Disk} {c : Chain} {i : Nat}

/-! ## Allocation -/

theorem allocDesc_some (h : d.allocDesc = some (i, d')) :
    i < NUM ∧ d.free i = true ∧ d' = { d with free := update d.free i false } := by
  obtain ⟨k, hk, heq⟩ := Option.map_eq_some_iff.mp h
  obtain ⟨rfl, rfl⟩ := Prod.mk.inj heq
  exact ⟨List.mem_range.mp (List.mem_of_find?_eq_some hk), List.find?_some hk, rfl⟩

/-- A descriptor that is still free is another one. -/
theorem free_update {free : Nat → Bool} {j : Nat} (h : update free i false j = true) :
    j ≠ i ∧ free j = true := by
  have hne : j ≠ i := by
    rintro rfl
    rw [update_self] at h
    cases h
  rw [update_of_ne hne] at h
  exact ⟨hne, h⟩

/-- Take and give back. -/
theorem update_back {free : Nat → Bool} (h : free i = true) :
    update (update free i false) i true = free := by
  rw [update_idem, ← h, update_eq_self]

theorem freeDesc_ok (hi : i < NUM) (hfree : d.free i = false) :
    d.freeDesc i = .ok { d with
      desc := update d.desc i ⟨.zero, 0, 0, 0⟩
      free := update d.free i true } := by
  rw [Disk.freeDesc, if_neg (Nat.not_le.mpr hi), if_neg (by rw [hfree]; decide)]

/-- Change a table at the three descriptors of a chain. -/
def Chain.set {α : Type} (c : Chain) (f : Nat → α) (x : α) : Nat → α :=
  update (update (update f c.head x) c.data x) c.status x

theorem Chain.set_of_not_mem {α : Type} {f : Nat → α} {x : α} (hi : i ∉ c.toList) :
    c.set f x i = f i := by
  simp only [Chain.toList, List.mem_cons, List.not_mem_nil, or_false, not_or] at hi
  rw [Chain.set, update_of_ne hi.2.2, update_of_ne hi.2.1,
    update_of_ne hi.1]

theorem Chain.set_of_mem {α : Type} {f : Nat → α} {x : α} (hi : i ∈ c.toList) :
    c.set f x i = x := by
  simp only [Chain.toList, List.mem_cons, List.not_mem_nil, or_false] at hi
  unfold Chain.set
  by_cases h3 : i = c.status
  · rw [h3, update_self]
  by_cases h2 : i = c.data
  · rw [update_of_ne h3, h2, update_self]
  · have h1 : i = c.head := by tauto
    rw [update_of_ne h3, update_of_ne h2, h1, update_self]

/-- A change, and the old values again. -/
theorem Chain.set_set {α : Type} {f : Nat → α} {x y : α} (hf : ∀ i ∈ c.toList, f i = x) :
    c.set (c.set f y) x = f := by
  funext i
  by_cases hi : i ∈ c.toList
  · rw [set_of_mem hi, hf i hi]
  · rw [set_of_not_mem hi, set_of_not_mem hi]

/-- What `alloc3_desc` can do. -/
inductive Alloc3 (d : Disk) : Option Chain × Disk → Prop
  | some (c : Chain) (hnodup : c.toList.Nodup) (hlt : ∀ i ∈ c.toList, i < NUM)
      (hfree : ∀ i ∈ c.toList, d.free i = true) : Alloc3 d (some c, { d with free := c.set d.free false })
  | none (desc : Nat → Desc) (hdesc : ∀ i, d.free i = false → desc i = d.desc i) :
      Alloc3 d (none, { d with desc := desc })

theorem alloc3Desc_spec (d : Disk) : ∃ x, d.alloc3Desc = .ok x ∧ Alloc3 d x := by
  unfold Disk.alloc3Desc
  cases h1 : d.allocDesc with
  | none => exact ⟨_, rfl, .none d.desc (fun _ _ => rfl)⟩
  | some x1 =>
    obtain ⟨i, d1⟩ := x1
    obtain ⟨hi, hfi, rfl⟩ := allocDesc_some h1
    dsimp only
    cases h2 : Disk.allocDesc { d with free := update d.free i false } with
    | none =>
      dsimp only
      rw [freeDesc_ok hi (update_self _ _ _)]
      refine ⟨_, rfl, ?_⟩
      dsimp only
      rw [update_back hfi]
      apply Alloc3.none
      intro k hk
      apply update_of_ne
      rintro rfl
      rw [hfi] at hk
      cases hk
    | some x2 =>
      obtain ⟨j, d2⟩ := x2
      obtain ⟨hj, hfj, rfl⟩ := allocDesc_some h2
      obtain ⟨hji, hfj⟩ := free_update hfj
      dsimp only
      cases h3 : Disk.allocDesc { d with
          free := update (update d.free i false) j false } with
      | none =>
        have hi' : update (update d.free i false) j false i = false := by
          rw [update_of_ne hji.symm, update_self]
        have hj' : update (update (update d.free i false) j false) i true
            j = false := by
          rw [update_of_ne hji, update_self]
        dsimp only
        rw [freeDesc_ok hi hi']
        dsimp only [bind, Except.bind]
        rw [freeDesc_ok hj hj']
        refine ⟨_, rfl, ?_⟩
        dsimp only
        have hsame : update (update (update
            (update d.free i false) j false) i true) j true = d.free := by
          rw [update_comm hji.symm, update_back (by rw [update_of_ne hji, hfj]),
            update_back hfi]
        rw [hsame]
        apply Alloc3.none
        intro k hk
        have hkj : k ≠ j := by
          rintro rfl
          rw [hfj] at hk
          cases hk
        have hki : k ≠ i := by
          rintro rfl
          rw [hfi] at hk
          cases hk
        rw [update_of_ne hkj, update_of_ne hki]
      | some x3 =>
        obtain ⟨k, d3⟩ := x3
        obtain ⟨hk, hfk, rfl⟩ := allocDesc_some h3
        obtain ⟨hkj, hfk⟩ := free_update hfk
        obtain ⟨hki, hfk⟩ := free_update hfk
        refine ⟨_, rfl, Alloc3.some ⟨i, j, k⟩ ?_ ?_ ?_⟩
        · simp [Chain.toList, hji.symm, hki.symm, hkj.symm]
        · simp [Chain.toList, hi, hj, hk]
        · simp [Chain.toList, hfi, hfj, hfk]

/-! ## Formatted chains -/

/-- A request: its buffer, its chain, and whether the device can see it. -/
structure Request where
  buf : Buf
  chain : Chain
  published : Bool

/-- The descriptors of the chain are linked, and end at its status byte. -/
structure Linked (d : Disk) (c : Chain) : Prop where
  head : (d.desc c.head).flags &&& VRING_DESC_F_NEXT ≠ 0 ∧ (d.desc c.head).next = c.data
  data : (d.desc c.data).flags &&& VRING_DESC_F_NEXT ≠ 0 ∧ (d.desc c.data).next = c.status
  status : (d.desc c.status).flags &&& VRING_DESC_F_NEXT = 0 ∧
    (d.desc c.status).addr = .status c.head

/-- The chain is linked, and `info` has its buffer. -/
structure Formatted (d : Disk) (b : Buf) (c : Chain) : Prop extends Linked d c where
  buf : (d.info c.head).b = some b

theorem Formatted.congr {b : Buf} (h : Formatted d b c)
    (hdesc : ∀ i ∈ c.toList, d'.desc i = d.desc i)
    (hinfo : (d'.info c.head).b = (d.info c.head).b) : Formatted d' b c := by
  refine ⟨⟨?_, ?_, ?_⟩, ?_⟩
  · rw [hdesc c.head (by simp [Chain.toList])]
    exact h.head
  · rw [hdesc c.data (by simp [Chain.toList])]
    exact h.data
  · rw [hdesc c.status (by simp [Chain.toList])]
    exact h.status
  · rw [hinfo]
    exact h.buf

/-- The descriptors of a chain are distinct. -/
theorem Chain.ne_of_nodup (h : c.toList.Nodup) :
    c.head ≠ c.data ∧ c.head ≠ c.status ∧ c.data ≠ c.status := by
  simp [Chain.toList] at h
  tauto

theorem formatted_format (hnodup : c.toList.Nodup) (b : Buf) (blockno : UInt32) (write : Bool) :
    Formatted (d.format b blockno write c) b c := by
  obtain ⟨h1, h2, h3⟩ := Chain.ne_of_nodup hnodup
  refine ⟨⟨?_, ?_, ?_⟩, ?_⟩
  · simp only [Disk.format, update_of_ne h1, update_of_ne h2,
      update_self]
    decide
  · simp only [Disk.format, update_of_ne h3, update_self]
    cases write <;> decide
  · simp only [Disk.format, update_self]
    decide
  · simp only [Disk.format, update_self]

/-- One descriptor of a chain. -/
theorem freeChain_step (hi : i < NUM) (hfree : d.free i = false) (k : Nat) :
    d.freeChain (k + 1) i =
      if (d.desc i).flags &&& VRING_DESC_F_NEXT ≠ 0 then
        Disk.freeChain k { d with
          desc := update d.desc i ⟨.zero, 0, 0, 0⟩
          free := update d.free i true } (d.desc i).next
      else .ok { d with
        desc := update d.desc i ⟨.zero, 0, 0, 0⟩
        free := update d.free i true } := by
  rw [Disk.freeChain, freeDesc_ok hi hfree]

/-- `free_chain` frees the three descriptors of a formatted chain. -/
theorem freeChain_ok (h : Linked d c) (hnodup : c.toList.Nodup)
    (hlt : ∀ i ∈ c.toList, i < NUM) (hfree : ∀ i ∈ c.toList, d.free i = false) (k : Nat) :
    d.freeChain (k + 3) c.head =
      .ok { d with desc := c.set d.desc ⟨.zero, 0, 0, 0⟩, free := c.set d.free true } := by
  obtain ⟨h1, h2, h3⟩ := Chain.ne_of_nodup hnodup
  have hmem : c.head ∈ c.toList ∧ c.data ∈ c.toList ∧ c.status ∈ c.toList := by
    simp [Chain.toList]
  have hdata : update d.free c.head true c.data = false := by
    rw [update_of_ne h1.symm, hfree _ hmem.2.1]
  have hstatus : update (update d.free c.head true) c.data true c.status =
      false := by
    rw [update_of_ne h3.symm, update_of_ne h2.symm, hfree _ hmem.2.2]
  rw [freeChain_step (hlt _ hmem.1) (hfree _ hmem.1), if_pos h.head.1, h.head.2,
    freeChain_step (hlt _ hmem.2.1) hdata]
  simp only [update_of_ne h1.symm]
  rw [if_pos h.data.1, h.data.2, freeChain_step (hlt _ hmem.2.2) hstatus]
  simp only [update_of_ne h3.symm, update_of_ne h2.symm]
  rw [if_neg (not_not.mpr h.status.1)]
  rfl

/-! ## Chains and free descriptors -/

/-- The descriptors of the chains and the free ones are all the descriptors,
each once. -/
def Tiles (chains : List Nat) (free : Nat → Bool) : Prop :=
  (chains ++ (List.range NUM).filter free).Perm (List.range NUM)

/-- A chain of free descriptors is taken. -/
theorem filter_set_perm {free : Nat → Bool} (hnodup : c.toList.Nodup)
    (hlt : ∀ i ∈ c.toList, i < NUM) (hfree : ∀ i ∈ c.toList, free i = true) :
    ((List.range NUM).filter free).Perm
      (c.toList ++ (List.range NUM).filter (c.set free false)) := by
  rw [List.perm_ext_iff_of_nodup (List.nodup_range.filter _)]
  · intro i
    rw [List.mem_append, List.mem_filter, List.mem_filter]
    by_cases hi : i ∈ c.toList
    · simp [hi, hlt i hi, hfree i hi]
    · simp [hi, Chain.set_of_not_mem hi]
  · rw [List.nodup_append]
    refine ⟨hnodup, List.nodup_range.filter _, ?_⟩
    rintro i hi j hj rfl
    rw [List.mem_filter, Chain.set_of_mem hi] at hj
    cases hj.2

namespace Tiles

variable {chains : List Nat} {free : Nat → Bool}

theorem alloc (h : Tiles chains free) (hnodup : c.toList.Nodup) (hlt : ∀ i ∈ c.toList, i < NUM)
    (hfree : ∀ i ∈ c.toList, free i = true) : Tiles (c.toList ++ chains) (c.set free false) := by
  have hperm := (filter_set_perm hnodup hlt hfree).append_left chains
  refine List.Perm.trans ?_ (hperm.symm.trans h)
  rw [← List.append_assoc]
  exact List.perm_append_comm.append_right _

/-- What is in a chain is a descriptor, and not free. -/
theorem mem (h : Tiles chains free) (hi : i ∈ chains) : i < NUM ∧ free i = false := by
  have hlt : i < NUM := List.mem_range.mp (h.mem_iff.mp (List.mem_append_left _ hi))
  have hnodup : (chains ++ (List.range NUM).filter free).Nodup :=
    h.nodup_iff.mpr List.nodup_range
  refine ⟨hlt, ?_⟩
  rw [← Bool.not_eq_true]
  intro hfree
  exact (List.nodup_append.mp hnodup).2.2 i hi i
    (List.mem_filter.mpr ⟨List.mem_range.mpr hlt, hfree⟩) rfl

theorem nodup (h : Tiles chains free) : chains.Nodup :=
  (List.nodup_append.mp (h.nodup_iff.mpr List.nodup_range)).1

theorem free_chain (h : Tiles (c.toList ++ chains) free) : Tiles chains (c.set free true) := by
  have hnodup := (List.nodup_append.mp h.nodup).1
  have hmem : ∀ i ∈ c.toList, i < NUM ∧ free i = false := by
    intro i hi
    exact h.mem (List.mem_append_left _ hi)
  have hset : ∀ i ∈ c.toList, c.set free true i = true := fun i hi => Chain.set_of_mem hi
  have hperm := filter_set_perm hnodup (fun i hi => (hmem i hi).1) hset
  rw [Chain.set_set (fun i hi => (hmem i hi).2)] at hperm
  refine ((hperm.append_left chains).trans ?_).trans h
  rw [← List.append_assoc]
  exact List.perm_append_comm.append_right _

end Tiles

end Xv6.Virtio
