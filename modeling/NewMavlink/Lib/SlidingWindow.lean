import Mathlib.Data.Finset.Lattice.Fold
import Mathlib.Data.Finset.Max
import Mathlib.Order.Lattice.Nat

/-! # Sliding windows over sequence numbers

A receiver that takes each number once may forget all but the last `w` numbers below the largest
one it has taken, at the price of refusing numbers that old. `Admits w C s` says whether such a
receiver takes `s` after it has taken the numbers of `C`; it never takes a member of `C`
(`not_mem_of_admits`).

`Represents hi bits C` says that the word `bits` of `w` bits holds what is left of `C`: `hi` is its
largest member, and bit `i` is set exactly if `hi - i` is in `C`. The bits answer `Admits`
(`Represents.admits_iff`), and a representation is kept by the first number (`Represents.first`), by
a number above `hi`, which shifts the word (`Represents.advance`), and by one inside the window,
which sets its bit (`Represents.mark`). -/

namespace NewMavlink.Lib.SlidingWindow

/-- A receiver with a window of `w` numbers that has taken `C` takes `s`. -/
def Admits (w : ℕ) (C : Finset ℕ) (s : ℕ) : Prop :=
  C = ∅ ∨ C.sup id < s ∨ (C.sup id - s < w ∧ s ∉ C)

theorem not_mem_of_admits {w s : ℕ} {C : Finset ℕ} (h : Admits w C s) : s ∉ C := by
  rcases h with rfl | h | ⟨-, h⟩
  · simp
  · intro hs
    have : s ≤ C.sup id := Finset.le_sup (f := id) hs
    omega
  · exact h

/-- `bits` is what a window below `hi` remembers of `C`. -/
structure Represents {w : ℕ} (hi : ℕ) (bits : BitVec w) (C : Finset ℕ) : Prop where
  mem : hi ∈ C
  le : ∀ c ∈ C, c ≤ hi
  bit : ∀ i < w, i ≤ hi → (bits.getLsbD i = true ↔ hi - i ∈ C)

variable {w hi s : ℕ} {bits : BitVec w} {C : Finset ℕ}

namespace Represents

theorem sup_eq (h : Represents hi bits C) : C.sup id = hi :=
  le_antisymm (Finset.sup_le h.le) (Finset.le_sup (f := id) h.mem)

/-- **The word answers the question.** -/
theorem admits_iff (h : Represents hi bits C) :
    Admits w C s ↔ hi < s ∨ (hi - s < w ∧ bits.getLsbD (hi - s) = false) := by
  have hne : C ≠ ∅ := Finset.ne_empty_of_mem h.mem
  unfold Admits
  rw [h.sup_eq]
  by_cases hlt : hi < s
  · simp [hlt]
  · have hbit : hi - s < w → (bits.getLsbD (hi - s) = true ↔ s ∈ C) := by
      intro hw
      rw [h.bit _ hw (by omega), show hi - (hi - s) = s by omega]
    simp only [hne, hlt, false_or]
    refine and_congr_right fun hw => ?_
    rw [← hbit hw, Bool.not_eq_true]

theorem first (hw : 0 < w) (s : ℕ) : Represents s (1#w) {s} where
  mem := by simp
  le c hc := by simp at hc; omega
  bit i hi hs := by
    rw [BitVec.getLsbD_one]
    simp only [Bool.and_eq_true, decide_eq_true_eq, Finset.mem_singleton]
    omega

/-- **A number above the window**: the word moves up by the distance, all of it if the distance
is the width or more. -/
theorem advance (h : Represents hi bits C) (hlt : hi < s) :
    Represents s (bits <<< (s - hi) ||| 1#w) (insert s C) where
  mem := Finset.mem_insert_self _ _
  le c hc := by
    rcases Finset.mem_insert.mp hc with rfl | hc
    · exact le_rfl
    · have := h.le c hc; omega
  bit i hi' his := by
    simp only [BitVec.getLsbD_or, BitVec.getLsbD_shiftLeft, BitVec.getLsbD_one, Bool.or_eq_true,
      Bool.and_eq_true, Bool.not_eq_true', decide_eq_true_eq, decide_eq_false_iff_not,
      Finset.mem_insert]
    rcases Nat.lt_or_ge i (s - hi) with hd | hd
    · -- below the distance only the new number itself is in the set
      have hnot : s - i ∉ C := by
        intro hc
        have hle := h.le _ hc
        omega
      simp only [hd, hnot, not_true_eq_false, and_false, false_and, false_or, or_false]
      omega
    · rw [h.bit (i - (s - hi)) (by omega) (by omega), show hi - (i - (s - hi)) = s - i by omega]
      constructor
      · rintro (⟨-, hc⟩ | hi0)
        · exact Or.inr hc
        · omega
      · rintro (hi0 | hc)
        · omega
        · exact Or.inl ⟨⟨hi', by omega⟩, hc⟩

/-- **A number inside the window** sets its bit. -/
theorem mark (h : Represents hi bits C) (hle : s ≤ hi) (hw : hi - s < w) :
    Represents hi (bits ||| 1#w <<< (hi - s)) (insert s C) where
  mem := Finset.mem_insert_of_mem h.mem
  le c hc := by
    rcases Finset.mem_insert.mp hc with rfl | hc
    · exact hle
    · exact h.le c hc
  bit i hi' hih := by
    simp only [BitVec.getLsbD_or, BitVec.getLsbD_shiftLeft, BitVec.getLsbD_one, Bool.or_eq_true,
      Bool.and_eq_true, Bool.not_eq_true', decide_eq_true_eq, decide_eq_false_iff_not,
      Finset.mem_insert]
    rw [h.bit i hi' hih]
    constructor
    · rintro (hc | ⟨⟨-, ha⟩, -, hb⟩)
      · exact Or.inr hc
      · left; omega
    · rintro (hs | hc)
      · right; omega
      · exact Or.inl hc

end Represents

end NewMavlink.Lib.SlidingWindow
