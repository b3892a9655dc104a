import Mathlib.Data.Option.Basic
import Mathlib.Order.Lattice

/-! # Replicas of a versioned value

A source numbers the values of a stream by generations and sends updates: a full one carries a
value, a difference carries what leads to it from the generation that it names as its base. A
replica holds at most one value with its generation. It refuses a difference whose base it does not
hold (a gap), ignores an update that is not newer (old) and stores the rest.

* `verdict_eq_gap_iff`, `verdict_eq_stored_iff`: when an update is a gap, and when it is stored.
* `honest_offer`: a replica that is offered the source's values holds one of them.
* `offer_full`: a full update of the newest generation brings the replica up to date, whatever was
  lost before.
* `verdict_ne_gap_of_chained`, `chained_append`: updates that are each based on the one before leave
  no gap. -/

namespace NewMavlink.Lib.Replica

variable {γ α : Type}

/-- What an update says of itself: its generation and, for a difference, the base it starts from. -/
structure Update (γ : Type) where
  generation : γ
  base : Option γ := none
deriving DecidableEq, Repr

/-- The update can be applied to a value of generation `g`. -/
def Update.Fits (u : Update γ) (g : γ) : Prop := ∀ b ∈ u.base, b = g

instance [DecidableEq γ] (u : Update γ) (g : γ) : Decidable (u.Fits g) :=
  inferInstanceAs (Decidable (∀ b ∈ u.base, b = g))

theorem Update.fits_of_full {u : Update γ} (h : u.base = none) (g : γ) : u.Fits g := by
  intro b hb
  rw [h] at hb
  cases hb

theorem Update.fits_iff {u : Update γ} {b : γ} (h : u.base = some b) (g : γ) :
    u.Fits g ↔ b = g := by
  unfold Update.Fits
  rw [h]
  simp

/-- What a replica does with an update. -/
inductive Verdict where
  | stored
  | old
  | gap
deriving DecidableEq, Repr

variable [LinearOrder γ]

/-- The verdict of a replica that holds the generation `held`, if it holds one. -/
def verdict (held : Option γ) (u : Update γ) : Verdict :=
  match held with
  | none => .stored
  | some g => if u.Fits g then (if u.generation ≤ g then .old else .stored) else .gap

@[simp] theorem verdict_none (u : Update γ) : verdict none u = .stored := rfl

theorem verdict_eq_gap_iff {held : Option γ} {u : Update γ} :
    verdict held u = .gap ↔ ∃ g ∈ held, ¬ u.Fits g := by
  cases held with
  | none => simp
  | some g =>
    unfold verdict
    by_cases hf : u.Fits g <;> by_cases hg : u.generation ≤ g <;> simp [hf, hg]

theorem verdict_eq_stored_iff {held : Option γ} {u : Update γ} :
    verdict held u = .stored ↔ ∀ g ∈ held, u.Fits g ∧ g < u.generation := by
  cases held with
  | none => simp
  | some g =>
    unfold verdict
    by_cases hf : u.Fits g <;> by_cases hg : u.generation ≤ g <;> simp [hf, hg]
    exact not_le.mp hg

/-! ### One update -/

/-- The replica after an update that carries the value `x`. -/
def offer (r : Option (γ × α)) (u : Update γ) (x : α) : Option (γ × α) :=
  if verdict (r.map Prod.fst) u = .stored then some (u.generation, x) else r

theorem offer_of_stored {r : Option (γ × α)} {u : Update γ} {x : α}
    (h : verdict (r.map Prod.fst) u = .stored) : offer r u x = some (u.generation, x) :=
  if_pos h

theorem offer_of_ne_stored {r : Option (γ × α)} {u : Update γ} {x : α}
    (h : verdict (r.map Prod.fst) u ≠ .stored) : offer r u x = r :=
  if_neg h

/-- What the replica holds is a value that the source had at that generation. -/
def Honest (V : γ → α → Prop) (r : Option (γ × α)) : Prop := ∀ p ∈ r, V p.1 p.2

omit [LinearOrder γ] in
theorem honest_none {V : γ → α → Prop} : Honest V (none : Option (γ × α)) := by
  rintro p ⟨⟩

/-- **A replica that is offered the source's values holds one of them.** -/
theorem honest_offer {V : γ → α → Prop} {r : Option (γ × α)} {u : Update γ} {x : α}
    (hr : Honest V r) (hx : V u.generation x) : Honest V (offer r u x) := by
  by_cases hv : verdict (r.map Prod.fst) u = .stored
  · rw [offer_of_stored hv]
    rintro p ⟨⟩
    exact hx
  · rw [offer_of_ne_stored hv]
    exact hr

/-- **A full update of the newest generation brings the replica up to date**: it holds that
generation afterwards, with the value offered or the one it held already. -/
theorem offer_full {r : Option (γ × α)} {u : Update γ} {x : α} (hfull : u.base = none)
    (hle : ∀ p ∈ r, p.1 ≤ u.generation) :
    ∃ y, offer r u x = some (u.generation, y) ∧ (y = x ∨ r = some (u.generation, y)) := by
  by_cases hv : verdict (r.map Prod.fst) u = .stored
  · exact ⟨x, offer_of_stored hv, Or.inl rfl⟩
  · rw [offer_of_ne_stored hv]
    cases r with
    | none => exact absurd rfl hv
    | some p =>
      have hnew : ¬ p.1 < u.generation := fun hlt =>
        hv (verdict_eq_stored_iff.mpr fun g hg => by
          obtain rfl : p.1 = g := by simpa using hg
          exact ⟨u.fits_of_full hfull _, hlt⟩)
      have heq : p.1 = u.generation := le_antisymm (hle p rfl) (not_lt.mp hnew)
      exact ⟨p.2, by rw [← heq], Or.inr (by rw [← heq])⟩

/-! ### Updates in order -/

/-- Updates that a replica holding `held` takes in without a gap: none older than the one before,
each difference based on it. -/
def Chained : Option γ → List (Update γ) → Prop
  | _, [] => True
  | held, u :: us => (∀ g ∈ held, u.Fits g ∧ g ≤ u.generation) ∧ Chained (some u.generation) us

/-- The generation after the updates. -/
def tip (held : Option γ) (us : List (Update γ)) : Option γ :=
  us.foldl (fun _ u => some u.generation) held

omit [LinearOrder γ] in
@[simp] theorem tip_nil (held : Option γ) : tip held [] = held := rfl

omit [LinearOrder γ] in
@[simp] theorem tip_cons (held : Option γ) (u : Update γ) (us : List (Update γ)) :
    tip held (u :: us) = tip (some u.generation) us := rfl

omit [LinearOrder γ] in
@[simp] theorem tip_append (held : Option γ) (us vs : List (Update γ)) :
    tip held (us ++ vs) = tip (tip held us) vs := List.foldl_append

theorem chained_append {us vs : List (Update γ)} : ∀ {held : Option γ},
    Chained held us → Chained (tip held us) vs → Chained held (us ++ vs) := by
  induction us with
  | nil => exact fun _ hv => hv
  | cons u us ih => exact fun h hv => ⟨h.1, ih h.2 hv⟩

/-- **The first update of a chain leaves no gap.** -/
theorem verdict_ne_gap_of_chained {held : Option γ} {u : Update γ} {us : List (Update γ)}
    (h : Chained held (u :: us)) : verdict held u ≠ .gap := by
  intro hgap
  obtain ⟨g, hg, hfit⟩ := verdict_eq_gap_iff.mp hgap
  exact hfit (h.1 g hg).1

theorem offer_fst_of_chained {r : Option (γ × α)} {u : Update γ} {us : List (Update γ)} {x : α}
    (h : Chained (r.map Prod.fst) (u :: us)) :
    (offer r u x).map Prod.fst = some u.generation := by
  by_cases hv : verdict (r.map Prod.fst) u = .stored
  · rw [offer_of_stored hv]
    rfl
  · rw [offer_of_ne_stored hv]
    cases r with
    | none => exact absurd rfl hv
    | some p =>
      obtain ⟨hfit, hle⟩ := h.1 p.1 rfl
      have hnew : ¬ p.1 < u.generation := fun hlt =>
        hv (verdict_eq_stored_iff.mpr fun g hg => by
          obtain rfl : p.1 = g := by simpa using hg
          exact ⟨hfit, hlt⟩)
      have heq : p.1 = u.generation := le_antisymm hle (not_lt.mp hnew)
      rw [Option.map_some, heq]

end NewMavlink.Lib.Replica
