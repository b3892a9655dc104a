import Mathlib.Data.List.Basic

/-! # Numbered queues

A queue whose entries are numbered one after another from `first` on, beside the items that they
stand for: `Queued R first items queue` says that `R i a b` holds of the i-th number, its item and
its entry.

* `queued_append`: entries that join at the end carry on the numbers.
* `queued_head`: the entry at the head stands for the first item, under the number `first`. -/

namespace NewMavlink.Lib.Fifo

variable {α β : Type} {R : ℕ → α → β → Prop}

/-- The entries of the queue stand for the items, numbered from `first` on. -/
def Queued (R : ℕ → α → β → Prop) : ℕ → List α → List β → Prop
  | _, [], [] => True
  | first, a :: items, b :: queue => R first a b ∧ Queued R (first + 1) items queue
  | _, [], _ :: _ => False
  | _, _ :: _, [] => False

theorem queued_nil (first : ℕ) : Queued R first [] [] := trivial

theorem queued_singleton {first : ℕ} {a : α} {b : β} (h : R first a b) :
    Queued R first [a] [b] := ⟨h, trivial⟩

theorem Queued.length : ∀ {first : ℕ} {items : List α} {queue : List β},
    Queued R first items queue → items.length = queue.length
  | _, [], [], _ => rfl
  | _, _ :: _, _ :: _, h => by
    rw [List.length_cons, List.length_cons, Queued.length h.2]

/-- **Entries that join at the end** carry on the numbers. -/
theorem queued_append : ∀ {first : ℕ} {items items' : List α} {queue queue' : List β},
    Queued R first items queue → Queued R (first + items.length) items' queue' →
      Queued R first (items ++ items') (queue ++ queue')
  | _, [], _, [], _, _, h' => h'
  | first, _ :: items, _, _ :: _, _, h, h' => by
    refine ⟨h.1, queued_append h.2 ?_⟩
    rwa [List.length_cons, Nat.add_comm items.length 1, ← Nat.add_assoc] at h'

/-- **The entry at the head** stands for the first item. -/
theorem queued_head {first : ℕ} {items : List α} {b : β} {queue : List β}
    (h : Queued R first items (b :: queue)) :
    ∃ a items', items = a :: items' ∧ R first a b ∧ Queued R (first + 1) items' queue := by
  cases items with
  | nil => cases h
  | cons a items => exact ⟨a, items, rfl, h.1, h.2⟩

end NewMavlink.Lib.Fifo
