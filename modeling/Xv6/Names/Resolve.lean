import Xv6.Names.Nodes

/-!
# What a path means

A path is the list of its `components`.  `follow` looks them up one after the other in a
name space, and with `parent` it stops before the last one.  `namex` takes the components
from the path with `skipelem`.
-/

namespace Xv6.Names

open Xv6.FileSystem

/-! ## The components of a path -/

/-- The elements of a path, as they are compared with the names in a directory. -/
def components (path : List UInt8) : List (List UInt8) :=
  ((path.splitOnP (· = slash)).filter (· ≠ [])).map (·.take DIRSIZ)

variable {path name rest w : List UInt8}

theorem components_slash (path : List UInt8) : components (slash :: path) = components path := by
  have hsplit : ([] ++ slash :: path).splitOnP (· = slash) = [] :: path.splitOnP (· = slash) :=
    List.splitOnP_append_cons_of_forall_mem (by simp) slash (by simp) path
  rw [List.nil_append] at hsplit
  rw [components, hsplit, List.filter_cons_of_neg (by simp)]
  rfl

theorem components_dropWhile (path : List UInt8) :
    components (path.dropWhile (· = slash)) = components path := by
  induction path with
  | nil => rfl
  | cons c path ih =>
    by_cases hc : c = slash
    · rw [List.dropWhile_cons_of_pos (by simpa using hc), ih, hc, components_slash]
    · rw [List.dropWhile_cons_of_neg (by simpa using hc)]

theorem components_word (hw : ∀ b ∈ w, b ≠ slash) (hne : w ≠ []) (path : List UInt8) :
    components (w ++ slash :: path) = w.take DIRSIZ :: components path := by
  have hsplit : (w ++ slash :: path).splitOnP (· = slash) = w :: path.splitOnP (· = slash) :=
    List.splitOnP_append_cons_of_forall_mem (by simpa using hw) slash (by simp) path
  rw [components, hsplit, List.filter_cons_of_pos (by simpa using hne), List.map_cons]
  rfl

theorem components_last (hw : ∀ b ∈ w, b ≠ slash) (hne : w ≠ []) :
    components w = [w.take DIRSIZ] := by
  have hsplit : w.splitOnP (· = slash) = [w] := List.splitOnP_eq_singleton (by simpa using hw)
  rw [components, hsplit, List.filter_cons_of_pos (by simpa using hne)]
  rfl

/-- The first element of a path that does not start with a slash. -/
theorem components_takeWhile (hne : path ≠ []) (hhead : path.head hne ≠ slash) :
    components path = (path.takeWhile (· ≠ slash)).take DIRSIZ ::
      components (path.dropWhile (· ≠ slash)) := by
  have hword : ∀ b ∈ path.takeWhile (· ≠ slash), b ≠ slash := by
    intro b hb
    have hall := List.all_takeWhile (p := fun b => decide (b ≠ slash)) (l := path)
    simpa using List.all_eq_true.mp hall b hb
  have hfirst : path.takeWhile (· ≠ slash) ≠ [] := by
    cases path with
    | nil => exact absurd rfl hne
    | cons c t =>
      rw [List.takeWhile_cons_of_pos (by simpa using hhead)]
      exact List.cons_ne_nil _ _
  have hsplit := List.takeWhile_append_dropWhile (p := fun b => decide (b ≠ slash)) (l := path)
  cases hrest : path.dropWhile (· ≠ slash) with
  | nil =>
    rw [hrest, List.append_nil] at hsplit
    have hall := components_last hword hfirst
    rw [hsplit] at hall
    rw [hall, hsplit]
    rfl
  | cons c t =>
    have hc : c = slash := by
      have hnil : path.dropWhile (· ≠ slash) ≠ [] := by rw [hrest]; exact List.cons_ne_nil _ _
      have hstop := List.head_dropWhile_not (fun b => decide (b ≠ slash)) hnil
      simp only [hrest, List.head_cons, decide_eq_false_iff_not, not_not] at hstop
      exact hstop
    rw [hc] at hrest ⊢
    rw [hrest] at hsplit
    have hcut := components_word hword hfirst t
    rw [hsplit] at hcut
    rw [hcut, components_slash]

theorem skipelem_none (h : skipelem path = none) : components path = [] := by
  unfold skipelem at h
  dsimp only at h
  split at h
  · rename_i hnil
    rw [← components_dropWhile, hnil]
    rfl
  · cases h

/-- `skipelem` takes the first component. -/
theorem skipelem_some (h : skipelem path = some (name, rest)) :
    components path = name :: components rest ∧ (rest = [] ↔ components rest = []) := by
  unfold skipelem at h
  dsimp only at h
  split at h
  · cases h
  rename_i hne
  cases h
  have hhead : (path.dropWhile (· = slash)).head hne ≠ slash := by
    simpa using List.head_dropWhile_not (fun b => decide (b = slash)) hne
  refine ⟨?_, ?_⟩
  · rw [← components_dropWhile, components_takeWhile hne hhead, components_dropWhile]
  · refine ⟨fun hnil => by rw [hnil]; rfl, fun hnil => ?_⟩
    by_contra hrest
    have hhead' := List.head_dropWhile_not (fun b => decide (b = slash)) hrest
    rw [components_takeWhile hrest (by simpa using hhead')] at hnil
    cases hnil

/-! ## The inode of a path -/

variable {N : Nat → Node} {i p : Nat} {e : Entry} {j : Nat}

/-- The number in the first entry with the name `name`. -/
def lookup (N : Nat → Node) (p : Nat) (name : List UInt8) : Option Nat :=
  ((entries (N p).data).find? (fun e => e.inum ≠ 0 ∧ namecmp name e.name = 0)).map Entry.inum

theorem lookup_found (h : Found (entries (N p).data) name e j) : lookup N p name = some e.inum :=
  inumOf_found h

theorem lookup_absent (h : Absent (entries (N p).data) name) : lookup N p name = none :=
  inumOf_absent h

/-- Look up the names one after the other, from inode `i` on.  With `parent` the last name
is not looked up. -/
def follow (N : Nat → Node) (parent : Bool) : Nat → List (List UInt8) → Option (Nat × List UInt8)
  | i, [] => if parent then none else some (i, [])
  | i, name :: names =>
      if (N i).type = .dir then
        if parent ∧ names = [] then some (i, name)
        else (lookup N i name).bind (fun j => follow N parent j names)
      else none

/-- Two name spaces with the same directories. -/
def SameDirs (N N' : Nat → Node) : Prop :=
  ∀ m, ((N m).type = .dir ↔ (N' m).type = .dir) ∧ ((N m).type = .dir → (N m).data = (N' m).data)

/-- Paths mean the same if the directories are the same. -/
theorem SameDirs.follow_eq {N' : Nat → Node} (h : SameDirs N N') (parent : Bool)
    (names : List (List UInt8)) (i : Nat) : follow N parent i names = follow N' parent i names := by
  induction names generalizing i with
  | nil => rfl
  | cons name names ih =>
    obtain ⟨htype, hdata⟩ := h i
    by_cases hdir : (N i).type = .dir
    · have hlookup : lookup N i name = lookup N' i name := by
        rw [lookup, lookup, hdata hdir]
      rw [follow, follow, if_pos hdir, if_pos (htype.mp hdir), hlookup]
      simp only [ih]
    · rw [follow, follow, if_neg hdir, if_neg (fun hdir' => hdir (htype.mpr hdir'))]

end Xv6.Names
