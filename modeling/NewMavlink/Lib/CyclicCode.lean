import Mathlib.Algebra.Polynomial.Div
import Mathlib.Algebra.Polynomial.Monic
import Mathlib.RingTheory.Coprime.Lemmas
import Mathlib.Tactic.LinearCombination

/-! # Cyclic codes: which errors a division detects

A word over a ring is read as a polynomial, its first symbol the highest coefficient (`poly`). A
check that keeps the remainder of a division by `g` misses a difference `e` of two words only if `g`
divides `poly e`, or a multiple of it by a power of `X`.

* `eq_zero_of_dvd_burst`: if `g` is monic and its constant coefficient a unit, no difference within
  `natDegree g` consecutive symbols is missed, except for none at all.
* `sum_eq_zero_of_dvd`: if `1` is a root of `g`, no difference is missed unless its symbols sum up
  to zero.
* `dvd_of_foldl`: a fold whose one step multiplies by a power of `X` and adds, modulo `g`, computes
  such a remainder of the whole word. -/

namespace NewMavlink.Lib.CyclicCode

open Polynomial

variable {R : Type*} [CommRing R]

/-! ### Words as polynomials -/

/-- The polynomial of a word, the highest coefficient first. -/
noncomputable def poly : List R → R[X]
  | [] => 0
  | a :: w => C a * X ^ w.length + poly w

@[simp] theorem poly_nil : poly ([] : List R) = 0 := rfl

theorem poly_cons (a : R) (w : List R) : poly (a :: w) = C a * X ^ w.length + poly w := rfl

theorem poly_append (u v : List R) : poly (u ++ v) = X ^ v.length * poly u + poly v := by
  induction u with
  | nil => simp
  | cons a u ih =>
    rw [List.cons_append, poly_cons, poly_cons, ih, List.length_append, pow_add]
    ring

theorem poly_eq_zero_of_forall {w : List R} (h : ∀ a ∈ w, a = 0) : poly w = 0 := by
  induction w with
  | nil => rfl
  | cons a w ih =>
    have ha : a = 0 := h a List.mem_cons_self
    rw [poly_cons, ha, ih fun b hb => h b (List.mem_cons_of_mem a hb)]
    simp

theorem degree_poly_lt (w : List R) : (poly w).degree < w.length := by
  induction w with
  | nil => simp
  | cons a w ih =>
    have hlead : (C a * X ^ w.length : R[X]).degree ≤ w.length := degree_C_mul_X_pow_le _ _
    have hcast : ((w.length : ℕ) : WithBot ℕ) < ((a :: w).length : ℕ) := by
      rw [List.length_cons]
      exact_mod_cast Nat.lt_succ_self w.length
    exact lt_of_le_of_lt (degree_add_le _ _)
      (max_lt (lt_of_le_of_lt hlead hcast) (lt_trans ih hcast))

theorem forall_of_poly_eq_zero {w : List R} (h : poly w = 0) : ∀ a ∈ w, a = 0 := by
  induction w with
  | nil => simp
  | cons a w ih =>
    have hcoeff : (poly w).coeff w.length = 0 := coeff_eq_zero_of_degree_lt (degree_poly_lt w)
    have ha : a = 0 := by
      have hlead := congrArg (fun p => coeff p w.length) h
      simpa [poly_cons, hcoeff] using hlead
    rw [poly_cons, ha, map_zero, zero_mul, zero_add] at h
    intro b hb
    rcases List.mem_cons.mp hb with rfl | hb
    · exact ha
    · exact ih h b hb

theorem poly_zipWith_sub {u v : List R} (h : u.length = v.length) :
    poly (List.zipWith (· - ·) u v) = poly u - poly v := by
  induction u generalizing v with
  | nil =>
    rw [List.eq_nil_of_length_eq_zero h.symm]
    simp
  | cons a u ih =>
    obtain ⟨b, v, rfl⟩ := List.exists_cons_of_length_pos (by rw [← h]; simp : 0 < v.length)
    have hl : u.length = v.length := by simpa using h
    rw [List.zipWith_cons_cons, poly_cons, poly_cons, poly_cons, ih hl, List.length_zipWith, hl,
      Nat.min_self, map_sub]
    ring

theorem eval_one_poly (w : List R) : (poly w).eval 1 = w.sum := by
  induction w with
  | nil => simp
  | cons a w ih => simp [poly_cons, ih]

/-! ### The differences that are detected -/

theorem isCoprime_X_pow {g : R[X]} (h0 : IsUnit (g.coeff 0)) (m : ℕ) : IsCoprime g (X ^ m) := by
  obtain ⟨u, hu⟩ := h0
  refine IsCoprime.pow_right ⟨C (↑u⁻¹ : R), -C (↑u⁻¹ : R) * divX g, ?_⟩
  have hdiv : divX g * X + C (u : R) = g := by rw [hu]; exact divX_mul_X_add g
  have hone : C (↑u⁻¹ : R) * C (u : R) = 1 := by rw [← C_mul, Units.inv_mul, C_1]
  linear_combination C (↑u⁻¹ : R) * hdiv.symm + hone

/-- **A burst is detected**: a generator with a unit as its constant coefficient divides no
difference within as many consecutive symbols as it has degree, unless there is none. -/
theorem eq_zero_of_dvd_burst {g : R[X]} (hg : g.Monic) (h0 : IsUnit (g.coeff 0)) {e : List R}
    {m k : ℕ} (hburst : ∀ i a, e[i]? = some a → a ≠ 0 → k ≤ i ∧ i < k + g.natDegree)
    (hdvd : g ∣ X ^ m * poly e) : ∀ a ∈ e, a = 0 := by
  set mid := (e.drop k).take g.natDegree with hmid
  have hfront : ∀ a ∈ e.take k, a = 0 := by
    intro a ha
    obtain ⟨i, hi⟩ := List.getElem?_of_mem ha
    by_contra hne
    rw [List.getElem?_take] at hi
    split_ifs at hi with hik
    have := hburst i a hi hne
    omega
  have hback : ∀ a ∈ (e.drop k).drop g.natDegree, a = 0 := by
    intro a ha
    obtain ⟨i, hi⟩ := List.getElem?_of_mem ha
    by_contra hne
    rw [List.getElem?_drop, List.getElem?_drop] at hi
    have := hburst _ a hi hne
    omega
  have hsplit : e = e.take k ++ (mid ++ (e.drop k).drop g.natDegree) := by
    rw [hmid, List.take_append_drop, List.take_append_drop]
  -- what is left of the polynomial is the middle, moved up
  have hpoly : poly e = X ^ ((e.drop k).drop g.natDegree).length * poly mid := by
    conv_lhs => rw [hsplit]
    rw [poly_append, poly_append, poly_eq_zero_of_forall hfront, poly_eq_zero_of_forall hback]
    ring
  have hmid0 : poly mid = 0 := by
    by_contra hne
    rw [hpoly, ← mul_assoc, ← pow_add] at hdvd
    have hlen : mid.length ≤ g.natDegree := List.length_take_le _ _
    have hdeg : (poly mid).degree < g.degree := by
      refine lt_of_lt_of_le (degree_poly_lt mid) ?_
      have hgne : g ≠ 0 := by
        rintro rfl
        exact hne (zero_dvd_iff.mp ((isCoprime_X_pow h0 _).dvd_of_dvd_mul_left hdvd))
      rw [degree_eq_natDegree hgne]
      exact_mod_cast hlen
    exact hg.not_dvd_of_degree_lt hne hdeg ((isCoprime_X_pow h0 _).dvd_of_dvd_mul_left hdvd)
  intro a ha
  rw [hsplit] at ha
  rcases List.mem_append.mp ha with ha | ha
  · exact hfront a ha
  · rcases List.mem_append.mp ha with ha | ha
    · exact forall_of_poly_eq_zero hmid0 a ha
    · exact hback a ha

/-- **A difference of nonzero sum is detected** by a generator with root `1`. -/
theorem sum_eq_zero_of_dvd {g : R[X]} (h1 : g.eval 1 = 0) {e : List R} {m : ℕ}
    (hdvd : g ∣ X ^ m * poly e) : e.sum = 0 := by
  obtain ⟨q, hq⟩ := hdvd
  have := congrArg (eval 1) hq
  simpa [h1, eval_one_poly] using this

/-! ### Division by a fold -/

section Fold

variable {S A : Type*} {g : R[X]} {n : ℕ} {val : S → R[X]} {word : A → List R} {feed : S → A → S}

/-- **A fold that divides**: if one step multiplies by a power of `X` and adds the symbols of its
input, `n` places up, so does the fold over a whole list. -/
theorem dvd_of_foldl
    (hstep : ∀ s a, g ∣ val (feed s a) - (X ^ (word a).length * val s + X ^ n * poly (word a)))
    (s : S) (l : List A) :
    g ∣ val (l.foldl feed s) -
      (X ^ (l.flatMap word).length * val s + X ^ n * poly (l.flatMap word)) := by
  induction l generalizing s with
  | nil => simp
  | cons a l ih =>
    have hfirst := (hstep s a).mul_left (X ^ (l.flatMap word).length)
    have hsum := dvd_add (ih (feed s a)) hfirst
    rw [List.foldl_cons, List.flatMap_cons, poly_append, List.length_append, pow_add]
    convert hsum using 1
    ring

theorem dvd_of_foldl_eq
    (hstep : ∀ s a, g ∣ val (feed s a) - (X ^ (word a).length * val s + X ^ n * poly (word a)))
    {s : S} {l l' : List A} (hlen : (l.flatMap word).length = (l'.flatMap word).length)
    (heq : l.foldl feed s = l'.foldl feed s) :
    g ∣ X ^ n * poly (List.zipWith (· - ·) (l.flatMap word) (l'.flatMap word)) := by
  have h := dvd_of_foldl hstep s l
  have h' := dvd_of_foldl hstep s l'
  rw [heq, hlen] at h
  rw [poly_zipWith_sub hlen]
  convert dvd_sub h' h using 1
  ring

end Fold

end NewMavlink.Lib.CyclicCode
