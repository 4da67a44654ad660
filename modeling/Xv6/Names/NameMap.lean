import Xv6.Lib.Transition
import Xv6.Names.Directory

/-!
# Directories as maps

A directory is a map from names of `DIRSIZ` bytes to inode numbers.  `Built` is the
directories that calls of `dirlink` and the removals of `sys_unlink` make, each with the
map that the successful calls describe.  Between two calls anything can happen that does
not change the entries, so a call starts in any state in which the directory has them.

`Maps` is the invariant.  An entry holds a number of 16 bits: the map and the directory
agree on a name exactly if the number that was linked is one of those, and not 0.
-/

namespace Xv6.Names

open Xv6.Lib Xv6.FileSystem Xv6.FileSystem.Disk Function

/-! ## Names -/

/-- A name as an entry holds it. -/
def key (name : List UInt8) : List UInt8 := strncpy name DIRSIZ

theorem namecmp_iff {x y : List UInt8} : namecmp x y = 0 ↔ key x = key y := namecmp_eq_zero x y

theorem strncpy_strncpy (x : List UInt8) (n : Nat) : strncpy (strncpy x n) n = strncpy x n := by
  induction n generalizing x with
  | zero => cases x <;> rfl
  | succ n ih =>
    have hnil : strncpy (strncpy [] n) n = strncpy [] n := ih []
    cases x with
    | nil => rw [strncpy, strncpy, if_pos rfl]
    | cons c x =>
      by_cases hc : c = 0
      · rw [strncpy, if_pos hc, strncpy, if_pos rfl]
      · rw [strncpy, if_neg hc, strncpy, if_neg hc, ih]

/-- Strings are the same name if and only if their first `DIRSIZ` bytes are. -/
theorem strncpy_inj {x y : List UInt8} (hx : 0 ∉ x) (hy : 0 ∉ y) (n : Nat) :
    strncpy x n = strncpy y n ↔ x.take n = y.take n := by
  induction n generalizing x y with
  | zero => simp [strncpy]
  | succ n ih =>
    cases x with
    | nil =>
      cases y with
      | nil => simp
      | cons d y =>
        have hd : d ≠ 0 := fun he => hy (he ▸ List.mem_cons_self ..)
        simp [strncpy, hd, hd.symm]
    | cons c x =>
      have hc : c ≠ 0 := fun he => hx (he ▸ List.mem_cons_self ..)
      cases y with
      | nil => simp [strncpy, hc]
      | cons d y =>
        have hd : d ≠ 0 := fun he => hy (he ▸ List.mem_cons_self ..)
        rw [strncpy, strncpy, if_neg hc, if_neg hd, List.take_succ_cons, List.take_succ_cons,
          List.cons.injEq, List.cons.injEq,
          ih (fun hmem => hx (List.mem_cons_of_mem _ hmem))
            (fun hmem => hy (List.mem_cons_of_mem _ hmem))]

theorem key_key (name : List UInt8) : key (key name) = key name := strncpy_strncpy name DIRSIZ

/-! ## Directories -/

/-- A map from names, as entries hold them, to numbers. -/
abbrev NameMap := List UInt8 → Option Nat

/-- The directories that are built by `dirlink` and by removals, with the numbers that have
been linked and not removed. -/
inductive Built (sb : Superblock) : List Entry → NameMap → Prop
  | empty : Built sb [] (fun _ => none)
  | link {M : NameMap} {s s' : Fs} {dp : Slot} {name : List UInt8} {i : Nat} {r : Bool} :
      Built sb (s.dir dp) M → Inv sb s → IsDir s dp → s.trans = true → i < sb.ninodes →
      dirlink sb dp name i s = .ok (r, s') →
      Built sb (s'.dir dp) (if r then update M (key name) (some i) else M)
  | clear {M : NameMap} {s s₁ t t' : Fs} {dp k : Slot} {name : List UInt8} {off : Nat} {r : Int} :
      Built sb (s.dir dp) M → Inv sb s → IsDir s dp →
      dirlookup sb dp name s = .ok (some (k, off), s₁) →
      Inv sb t → IsDir t dp → t.trans = true → t.dir dp = s.dir dp →
      writeEntry sb dp off (List.replicate DIRENT 0) t = .ok (r, t') →
      Built sb (t'.dir dp) (update M (key name) none)

/-- The entries say what the map says, in 16 bits. -/
structure Maps (es : List Entry) (M : NameMap) : Prop where
  unique : ∀ {j l : Nat} {e e' : Entry}, es[j]? = some e → es[l]? = some e' → e.inum ≠ 0 →
    e'.inum ≠ 0 → namecmp e.name e'.name = 0 → j = l
  live : ∀ {j : Nat} {e : Entry}, es[j]? = some e → e.inum ≠ 0 →
    ∃ i, M (key e.name) = some i ∧ i % 2 ^ 16 = e.inum
  linked : ∀ {name : List UInt8} {i : Nat}, M (key name) = some i → i % 2 ^ 16 ≠ 0 →
    ∃ (j : Nat) (e : Entry), es[j]? = some e ∧ e.Named name

namespace Maps

variable {es es' : List Entry} {M : NameMap} {name : List UInt8} {e : Entry} {i j : Nat}

theorem nil : Maps [] (fun _ => none) := by
  refine ⟨?_, ?_, ?_⟩
  · intro j l e e' he
    cases he
  · intro j e he
    cases he
  · intro name i hM
    cases hM

/-- An entry is written for a new name. -/
theorem link (h : Maps es M) (habsent : Absent es name) (hfree : ∀ e, es[j]? = some e → e.inum = 0)
    (hes : ∀ m : Nat, es'[m]? = if m = j then some ⟨i % 2 ^ 16, key name⟩ else es[m]?) :
    Maps es' (update M (key name) (some i)) := by
  have hold : ∀ {m : Nat} {e : Entry}, m ≠ j → es'[m]? = some e → es[m]? = some e := by
    intro m e hm he
    rwa [hes m, if_neg hm] at he
  have hnew : ∀ {m : Nat} {e : Entry}, m = j → es'[m]? = some e → e = ⟨i % 2 ^ 16, key name⟩ := by
    intro m e hm he
    rw [hes m, if_pos hm] at he
    exact (Option.some.inj he).symm
  -- an old entry that is in use has another name
  have hother : ∀ {m : Nat} {e : Entry}, es[m]? = some e → e.inum ≠ 0 → key e.name ≠ key name := by
    intro m e he hlive heq
    exact habsent e (List.mem_of_getElem? he) ⟨hlive, namecmp_iff.mpr heq.symm⟩
  refine ⟨?_, ?_, ?_⟩
  · intro m l e e' he he' hlive hlive' hcmp
    rw [namecmp_iff] at hcmp
    by_cases hm : m = j
    · by_cases hl : l = j
      · rw [hm, hl]
      · rw [hnew hm he, key_key] at hcmp
        exact absurd hcmp.symm (hother (hold hl he') hlive')
    · by_cases hl : l = j
      · rw [hnew hl he', key_key] at hcmp
        exact absurd hcmp (hother (hold hm he) hlive)
      · exact h.unique (hold hm he) (hold hl he') hlive hlive' (namecmp_iff.mpr hcmp)
  · intro m e he hlive
    by_cases hm : m = j
    · rw [hnew hm he]
      refine ⟨i, ?_, rfl⟩
      rw [key_key, update_self]
    · rw [update_of_ne (hother (hold hm he) hlive)]
      exact h.live (hold hm he) hlive
  · intro name' i' hM hne
    by_cases hk : key name' = key name
    · rw [hk, update_self] at hM
      cases hM
      refine ⟨j, _, by rw [hes j, if_pos rfl], hne, ?_⟩
      rw [namecmp_iff, key_key, hk]
    · rw [update_of_ne hk] at hM
      obtain ⟨m, e, he, hnamed⟩ := h.linked hM hne
      have hm : m ≠ j := by
        rintro rfl
        exact hnamed.1 (hfree e he)
      exact ⟨m, e, by rw [hes m, if_neg hm]; exact he, hnamed⟩

/-- An entry is removed. -/
theorem clear (h : Maps es M) (hfound : Found es name e j) {z : Entry} (hz : z.inum = 0)
    (hes : ∀ m : Nat, es'[m]? = if m = j then some z else es[m]?) :
    Maps es' (update M (key name) none) := by
  have hold : ∀ {m : Nat} {e' : Entry}, es'[m]? = some e' → e'.inum ≠ 0 →
      m ≠ j ∧ es[m]? = some e' := by
    intro m e' he' hlive
    rw [hes m] at he'
    by_cases hm : m = j
    · rw [if_pos hm] at he'
      cases he'
      exact absurd hz hlive
    · rw [if_neg hm] at he'
      exact ⟨hm, he'⟩
  have hcmp := namecmp_iff.mp hfound.named.2
  refine ⟨?_, ?_, ?_⟩
  · intro m l e1 e2 h1 h2 hlive1 hlive2 heq
    exact h.unique (hold h1 hlive1).2 (hold h2 hlive2).2 hlive1 hlive2 heq
  · intro m e' he' hlive
    obtain ⟨hm, hes'⟩ := hold he' hlive
    have hne : key e'.name ≠ key name := by
      intro heq
      exact hm (h.unique hes' hfound.here hlive hfound.named.1
        (namecmp_iff.mpr (heq.trans hcmp)))
    rw [update_of_ne hne]
    exact h.live hes' hlive
  · intro name' i' hM hne
    have hk : key name' ≠ key name := by
      intro hk
      rw [hk, update_self] at hM
      cases hM
    rw [update_of_ne hk] at hM
    obtain ⟨m, e', he', hnamed⟩ := h.linked hM hne
    have hm : m ≠ j := by
      rintro rfl
      rw [hfound.here] at he'
      cases he'
      exact hk ((namecmp_iff.mp hnamed.2).trans hcmp.symm)
    exact ⟨m, e', by rw [hes m, if_neg hm]; exact he', hnamed⟩

end Maps

section Runs

variable {sb : Superblock} {s s' : Fs} {dp : Slot} {es es' : List Entry} {M : NameMap}
  {name : List UInt8} {i j : Nat}

/-- The entry that `dirlink` writes. -/
theorem Rewritten.linked {q : Int} (h : Inv sb s) (hdp : IsDir s dp)
    (hq : Rewritten sb s dp (firstEmpty (s.dir dp)) (Dirent.named i name).bytes q s')
    (hfull : q = DIRENT) (m : Nat) :
    (s'.dir dp)[m]? =
      if m = firstEmpty (s.dir dp) then some ⟨i % 2 ^ 16, key name⟩ else (s.dir dp)[m]? := by
  have hes := hq.getElem? h hdp (emptyAt_firstEmpty _).le (Dirent.length_bytes _) hfull m
  rwa [ofBytes_named] at hes

theorem Built.maps (hb : Built sb es M) : Maps es M := by
  induction hb with
  | empty => exact .nil
  | link _ h hdp htrans hi hrun ih =>
    rcases (dirlink_runs h hdp htrans _ hi).ok hrun with
      ⟨rfl, _, _, hsame⟩ | ⟨habsent, q, _, hq, hr⟩
    · rw [hsame]
      exact ih
    · by_cases hfull : q = DIRENT
      · rw [hr.mpr hfull, if_pos rfl]
        exact ih.link habsent (emptyAt_firstEmpty _).empty (hq.linked h hdp hfull)
      · rw [hq.dir_failed hdp hfull, if_neg (mt hr.mp hfull)]
        exact ih
  | clear _ h hdp hfind ht hdt htrans hsame hwrite ih =>
    rcases (dirlookup_runs h hdp _).ok hfind with ⟨hnone, _⟩ | ⟨k, e, j, hk, hfound, _⟩
    · cases hnone
    · cases hk
      rw [← hsame] at ih hfound
      have hlt : j < _ := (List.getElem?_eq_some_iff.mp hfound.here).1
      have hzero : (Entry.ofBytes (List.replicate DIRENT 0)).inum = 0 := by
        rw [ofBytes_zeroes]
      have hlen : (List.replicate DIRENT (0 : UInt8)).length = DIRENT := List.length_replicate
      have hq := (writeEntry_runs (E := fun _ => False) ht hdt htrans hlt.le hlen
        (by rw [hzero]; exact (Nat.zero_le _).trans_lt ht.root)).ok hwrite
      exact ih.clear hfound hzero
        (hq.getElem? ht hdt hlt.le hlen (hq.inside hlt))

theorem found_or_absent (es : List Entry) (name : List UInt8) :
    (∃ e j, Found es name e j) ∨ Absent es name := by
  by_cases habsent : Absent es name
  · exact Or.inr habsent
  · have hfirst : ∃ j : Nat, ∃ e : Entry, es[j]? = some e ∧ e.Named name := by
      simp only [Absent, not_forall, not_not] at habsent
      obtain ⟨e, he, hnamed⟩ := habsent
      obtain ⟨j, hj⟩ := List.mem_iff_getElem?.mp he
      exact ⟨j, e, hj, hnamed⟩
    classical
    obtain ⟨e, he, hnamed⟩ := Nat.find_spec hfirst
    refine Or.inl ⟨e, Nat.find hfirst, he, hnamed, ?_⟩
    intro l e' hl he' hnamed'
    exact Nat.find_min hfirst hl ⟨e', he', hnamed'⟩

/-- An entry that is written where none is in use does not matter for other names. -/
theorem inumOf_write {new : Entry} {other : List UInt8} (hnew : ¬ new.Named other)
    (hfree : ∀ e, es[j]? = some e → e.inum = 0)
    (hes : ∀ m : Nat, es'[m]? = if m = j then some new else es[m]?) :
    inumOf es' other = inumOf es other := by
  have hcases : ∀ (m : Nat) (e : Entry), es'[m]? = some e → e.Named other → es[m]? = some e := by
    intro m e he hnamed
    rw [hes m] at he
    by_cases hm : m = j
    · rw [if_pos hm] at he
      cases he
      exact absurd hnamed hnew
    · rwa [if_neg hm] at he
  rcases found_or_absent es other with ⟨e, m, hfound⟩ | habsent
  · have hm : m ≠ j := by
      rintro rfl
      exact hfound.named.1 (hfree e hfound.here)
    have hfound' : Found es' other e m := by
      refine ⟨by rw [hes m, if_neg hm]; exact hfound.here, hfound.named, ?_⟩
      intro l e' hl he' hnamed
      exact hfound.first l e' hl (hcases l e' he' hnamed) hnamed
    rw [inumOf_found hfound, inumOf_found hfound']
  · have habsent' : Absent es' other := by
      intro e he hnamed
      obtain ⟨m, hm⟩ := List.mem_iff_getElem?.mp he
      exact habsent e (List.mem_of_getElem? (hcases m e hm hnamed)) hnamed
    rw [inumOf_absent habsent, inumOf_absent habsent']

/-- The number that a lookup finds is the one that was linked, if it fits into an entry. -/
theorem Maps.inumOf_iff (h : Maps es M) :
    inumOf es name = M (key name) ↔ ∀ i, M (key name) = some i → 0 < i ∧ i < 2 ^ 16 := by
  rcases found_or_absent es name with ⟨e, j, hfound⟩ | habsent
  · obtain ⟨hlive, hcmp⟩ := hfound.named
    obtain ⟨i, hM, hi⟩ := h.live hfound.here hlive
    rw [← namecmp_iff.mp hcmp] at hM
    rw [inumOf_found hfound, hM]
    constructor
    · intro heq i' hi'
      have h1 := Option.some.inj heq
      have h2 := Option.some.inj hi'
      omega
    · intro hfits
      have := hfits i rfl
      rw [← hi, Nat.mod_eq_of_lt this.2]
  · rw [inumOf_absent habsent]
    cases hM : M (key name) with
    | none => exact iff_of_true rfl nofun
    | some i =>
      refine iff_of_false nofun ?_
      intro hfits
      have hfit := hfits i rfl
      obtain ⟨j, e, he, hnamed⟩ := h.linked hM (by rw [Nat.mod_eq_of_lt hfit.2]; omega)
      exact habsent e (List.mem_of_getElem? he) hnamed

theorem dirlookup_inumOf (h : Inv sb s) (hdp : IsDir s dp) {r : Option (Slot × Nat)}
    (hrun : dirlookup sb dp name s = .ok (r, s')) :
    r.map (fun q => (s'.inode q.1).inum) = inumOf (s.dir dp) name := by
  rcases (dirlookup_runs h hdp name).ok hrun with
    ⟨rfl, _, habsent⟩ | ⟨k, e, j, rfl, hfound, _, hinum, _⟩
  · rw [inumOf_absent habsent]
    rfl
  · rw [inumOf_found hfound, Option.map_some, hinum]

end Runs

/-! ## A file system with many inodes -/

/-- 70000 inodes, in the blocks before block 4408. -/
def Superblock.large : Superblock := ⟨6000, 70000, 4408, by decide⟩

/-- Its root directory is empty, and its other inodes are free. -/
def Disk.large : Disk :=
  ⟨fun i => if i = ROOTINO then { Dinode.zero with type := .dir, nlink := 1 } else Dinode.zero,
    fun b => b < Superblock.large.nmeta, fun _ => Buffer.zero⟩

/-- The root directory is locked, in a transaction. -/
def Fs.large : Fs :=
  ⟨Disk.large, fun k => if k = 0 then ⟨ROOTINO, 1, true, Disk.large.dinode ROOTINO⟩
    else ⟨0, 0, false, Dinode.zero⟩, true⟩

theorem large_contents (i : Nat) : Disk.large.contents i = [] := by
  refine List.eq_nil_of_length_eq_zero ?_
  rw [length_contents]
  unfold Disk.large
  dsimp only
  split <;> rfl

theorem large_inv : Inv Superblock.large Fs.large := by
  have hslot : ∀ k, 0 < (Fs.large.inode k).ref → k = 0 := by
    intro k hk
    by_contra hne
    unfold Fs.large at hk
    dsimp only at hk
    rw [if_neg hne] at hk
    exact Nat.lt_irrefl 0 hk
  refine ⟨⟨.of_empty ?_ ?_ ?_, by decide, ?_⟩, ?_, ?_, ?_⟩
  · intro i k
    show (Disk.large.dinode i).addrs k = 0
    unfold Disk.large
    dsimp only
    split <;> rfl
  · intro i
    show (Disk.large.dinode i).size = 0
    unfold Disk.large
    dsimp only
    split <;> rfl
  · intro b
    exact decide_eq_true_iff
  · intro i _ _
    show DirShape _ (Disk.large.contents i)
    rw [large_contents]
    exact .nil _
  · intro k hk
    rw [hslot k hk]
    decide
  · intro k l hk hl _
    rw [hslot k hk, hslot l hl]
  · intro k hk _
    rw [hslot k hk]
    exact ⟨rfl, by decide⟩

theorem large_isDir : IsDir Fs.large 0 := ⟨⟨by decide, rfl⟩, rfl⟩

/-- Whether `dirlink` of `i` for the name `a` succeeds, and `dirlookup` then finds `b`. -/
def linkA (i : Nat) (b : Option Nat) : Bool :=
  (dirlink Superblock.large 0 [97] i Fs.large).toOption.any (fun q =>
    (dirlookup Superblock.large 0 [97] q.2).toOption.any (fun x =>
      q.1 = true ∧ x.1.map (fun y => (x.2.inode y.1).inum) = b))

/-- The run behind `linkA`, with the map that it describes. -/
theorem exists_of_linkA {i : Nat} (hi : i < 70000) {b : Option Nat} (h : linkA i b = true) :
    ∃ s' r s'' M, dirlink Superblock.large 0 [97] i Fs.large = .ok (true, s') ∧
      dirlookup Superblock.large 0 [97] s' = .ok (r, s'') ∧
      r.map (fun q => (s''.inode q.1).inum) = b ∧ Inv Superblock.large s' ∧ IsDir s' 0 ∧
      Built Superblock.large (s'.dir 0) M ∧ M (key [97]) = some i := by
  obtain ⟨⟨done, s'⟩, hlink, h⟩ := exists_ok_of_any h
  obtain ⟨⟨r, s''⟩, hlookup, h⟩ := exists_ok_of_any h
  obtain ⟨rfl, hfound⟩ := of_decide_eq_true h
  have hempty : Built Superblock.large (Fs.large.dir 0) (fun _ => none) := by
    have hdir : Fs.large.dir 0 = [] := by
      show entries (Disk.large.contents ROOTINO) = []
      rw [large_contents]
      rfl
    rw [hdir]
    exact .empty
  have hbuilt := Built.link hempty large_inv large_isDir rfl hi hlink
  obtain ⟨hinv, hmoves⟩ := dirlink_moves large_inv large_isDir rfl hi hlink
  have hdir := hmoves.isDir large_isDir.used large_isDir
  refine ⟨s', r, s'', _, hlink, hlookup, hfound, hinv, hdir, hbuilt, ?_⟩
  rw [if_pos rfl, update_self]

end Xv6.Names
