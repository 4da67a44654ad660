import Mathlib.Logic.Basic

/-!
# Exclusive ownership

`holds k b` says that the place `k` holds the resource `b`.  The places own
the resources that are in use, `Exact holds used`, if a resource that some
place holds is in use, no two places hold the same one, and some place holds
each one in use.

Two operations keep this: a place takes a resource that is not in use
(`Exact.assign`), and some resources go out of use together with what holds
them (`Exact.restrict`).
-/

namespace Xv6.Lib

variable {κ β : Type*}

/-- The resources in use are held, each by one place. -/
structure Exact (holds : κ → β → Prop) (used : β → Prop) : Prop where
  inUse : ∀ {k b}, holds k b → used b
  once : ∀ {k l b}, holds k b → holds l b → k = l
  owner : ∀ {b}, used b → ∃ k, holds k b

variable {holds holds' : κ → β → Prop} {used used' : β → Prop}

/-- A place takes a resource that was not in use. -/
theorem Exact.assign (h : Exact holds used) (k0 : κ) {b0 : β} (hfresh : ¬ used b0)
    (hholds : ∀ k b, holds' k b ↔ holds k b ∨ k = k0 ∧ b = b0)
    (hused : ∀ b, used' b ↔ used b ∨ b = b0) : Exact holds' used' where
  inUse := by
    intro k b hk
    rcases (hholds k b).mp hk with hk | ⟨_, hb⟩
    · exact (hused b).mpr (Or.inl (h.inUse hk))
    · exact (hused b).mpr (Or.inr hb)
  once := by
    intro k l b hk hl
    rcases (hholds k b).mp hk with hk | ⟨hk, hbk⟩ <;> rcases (hholds l b).mp hl with hl | ⟨hl, hbl⟩
    · exact h.once hk hl
    · exact absurd (hbl ▸ h.inUse hk) hfresh
    · exact absurd (hbk ▸ h.inUse hl) hfresh
    · rw [hk, hl]
  owner := by
    intro b hb
    rcases (hused b).mp hb with hb | rfl
    · obtain ⟨k, hk⟩ := h.owner hb
      exact ⟨k, (hholds k b).mpr (Or.inl hk)⟩
    · exact ⟨k0, (hholds k0 b).mpr (Or.inr ⟨rfl, rfl⟩)⟩

/-- Resources go out of use, and nothing holds them any more. -/
theorem Exact.restrict (h : Exact holds used) (P : β → Prop)
    (hholds : ∀ k b, holds' k b ↔ holds k b ∧ P b) (hused : ∀ b, used' b ↔ used b ∧ P b) :
    Exact holds' used' where
  inUse := by
    intro k b hk
    obtain ⟨hk, hP⟩ := (hholds k b).mp hk
    exact (hused b).mpr ⟨h.inUse hk, hP⟩
  once := by
    intro k l b hk hl
    exact h.once ((hholds k b).mp hk).1 ((hholds l b).mp hl).1
  owner := by
    intro b hb
    obtain ⟨hb, hP⟩ := (hused b).mp hb
    obtain ⟨k, hk⟩ := h.owner hb
    exact ⟨k, (hholds k b).mpr ⟨hk, hP⟩⟩

theorem Exact.congr (h : Exact holds used) (hholds : ∀ k b, holds' k b ↔ holds k b)
    (hused : ∀ b, used' b ↔ used b) : Exact holds' used' :=
  h.restrict (fun _ => True) (by simpa using hholds) (by simpa using hused)

end Xv6.Lib
