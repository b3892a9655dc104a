import Mathlib.Algebra.GroupWithZero.Nat
import Mathlib.Data.List.AList

/-! # Finite tables

A table is an association list without repeated keys: an unordered map, whose entries a program
visits in an order that is not its own choice.

* `lookup_insert_eq`, `lookup_erase_eq`, `lookup_mapValues`: what a key holds after a change.
* `mem_values_iff`: the values are what the keys hold.
* `values_insert_perm`, `values_perm_erase`: the values after a change, with their multiplicities;
  `total_insert` and `total_erase` are what follows for the sum of a measure.
* `ascending`: the values by ascending key; `ascending_eq_cons` takes the first of them out.
* `Visit`: an order in which the entries are visited; `mem_visit` says that it leaves none out. -/

namespace NewMavlink.Lib.Tables

/-- A finite map from `K` to `V`. -/
abbrev Table (K V : Type) : Type := AList fun _ : K => V

variable {K V : Type}

/-- The values of a table. -/
def values (t : Table K V) : List V := t.entries.map Sigma.snd

/-- The number of entries. -/
def count (t : Table K V) : ℕ := t.entries.length

/-- Every value changed in place. -/
def mapValues (f : K → V → V) (t : Table K V) : Table K V :=
  ⟨t.entries.map fun e => ⟨e.1, f e.1 e.2⟩, t.nodupKeys.map₂ f t.entries⟩

theorem count_mapValues (f : K → V → V) (t : Table K V) : count (mapValues f t) = count t := by
  simp [count, mapValues]

/-- A table whose keys are among those of a list, and that one of them is not a key of, is smaller
than the list. -/
theorem count_lt_length {t : Table K V} {ks : List K} {k : K} (hkeys : ∀ k' ∈ t, k' ∈ ks)
    (hk : k ∈ ks) (hout : k ∉ t) : count t < ks.length := by
  have hnodup : (k :: t.keys).Nodup :=
    List.nodup_cons.mpr ⟨fun hin => hout (AList.mem_keys.mpr hin), t.keys_nodup⟩
  have hsub : k :: t.keys ⊆ ks := by
    intro k' hk'
    rcases List.mem_cons.mp hk' with rfl | hin
    · exact hk
    · exact hkeys k' (AList.mem_keys.mpr hin)
  have hlen := (List.subperm_of_subset hnodup hsub).length_le
  rw [List.length_cons, AList.keys, List.keys, List.length_map] at hlen
  exact hlen

/-- The sum of a measure over all values. -/
def total (f : V → ℕ) (t : Table K V) : ℕ := ((values t).map f).sum

theorem total_mapValues {f : V → ℕ} {g : K → V → V} (h : ∀ k v, f (g k v) = f v)
    (t : Table K V) : total f (mapValues g t) = total f t := by
  simp [total, values, mapValues, Function.comp_def, h]

variable [DecidableEq K]

theorem lookup_insert_eq (t : Table K V) (k k' : K) (v : V) :
    (t.insert k v).lookup k' = if k' = k then some v else t.lookup k' := by
  by_cases h : k' = k
  · subst h
    rw [if_pos rfl, AList.lookup_insert]
  · rw [if_neg h, AList.lookup_insert_ne h]

theorem lookup_erase_eq (t : Table K V) (k k' : K) :
    (t.erase k).lookup k' = if k' = k then none else t.lookup k' := by
  by_cases h : k' = k
  · subst h
    rw [if_pos rfl, AList.lookup_erase]
  · rw [if_neg h, AList.lookup_erase_ne h]

theorem lookup_mapValues (f : K → V → V) (t : Table K V) (k : K) :
    (mapValues f t).lookup k = (t.lookup k).map (f k) :=
  List.dlookup_map₂ k

theorem mem_values_iff {t : Table K V} {v : V} : v ∈ values t ↔ ∃ k, t.lookup k = some v := by
  unfold values
  constructor
  · intro h
    obtain ⟨⟨k, v'⟩, he, rfl⟩ := List.mem_map.mp h
    exact ⟨k, AList.mem_lookup_iff.mpr he⟩
  · rintro ⟨k, h⟩
    exact List.mem_map.mpr ⟨⟨k, v⟩, AList.mem_lookup_iff.mp h, rfl⟩

theorem mem_values_insert {t : Table K V} {k : K} {v x : V} (h : x ∈ values (t.insert k v)) :
    x ∈ values t ∨ x = v := by
  obtain ⟨k', hk⟩ := mem_values_iff.mp h
  rw [lookup_insert_eq] at hk
  split_ifs at hk
  · exact Or.inr (Option.some.inj hk).symm
  · exact Or.inl (mem_values_iff.mpr ⟨k', hk⟩)

theorem mem_values_erase {t : Table K V} {k : K} {x : V} (h : x ∈ values (t.erase k)) :
    x ∈ values t := by
  obtain ⟨k', hk⟩ := mem_values_iff.mp h
  rw [lookup_erase_eq] at hk
  split_ifs at hk
  exact mem_values_iff.mpr ⟨k', hk⟩

theorem count_erase {t : Table K V} {k : K} (h : k ∈ t) : count (t.erase k) + 1 = count t := by
  have hlen : ∀ s : Table K V, s.keys.length = count s := fun s => by
    rw [AList.keys, List.keys, List.length_map, count]
  have hmem : k ∈ t.keys := AList.mem_keys.mp h
  have hpos := List.length_pos_of_mem hmem
  rw [← hlen, ← hlen, AList.keys_erase, List.length_erase_of_mem hmem]
  omega

theorem count_insert_of_mem {t : Table K V} {k : K} {v : V} (h : k ∈ t) :
    count (t.insert k v) = count t := by
  rw [← count_erase h, count, AList.entries_insert, List.length_cons]
  rfl

theorem count_insert_of_notMem {t : Table K V} {k : K} {v : V} (h : k ∉ t) :
    count (t.insert k v) = count t + 1 := by
  rw [count, AList.entries_insert_of_notMem h, List.length_cons]
  rfl

theorem count_erase_of_notMem {t : Table K V} {k : K} (h : k ∉ t) :
    count (t.erase k) = count t := by
  exact congrArg List.length (List.kerase_of_notMem_keys h)

/-! ### Values with their multiplicities -/

theorem values_insert_perm (t : Table K V) (k : K) (v : V) :
    (values (t.insert k v)).Perm (v :: values (t.erase k)) := by
  unfold values
  rw [AList.entries_insert, List.map_cons]
  exact .refl _

theorem entries_perm_erase {t : Table K V} {k : K} {v : V} (h : t.lookup k = some v) :
    t.entries.Perm (⟨k, v⟩ :: (t.erase k).entries) := by
  obtain ⟨v', before, after, -, hentries, herase⟩ :=
    List.exists_of_kerase (AList.mem_keys.mp (AList.lookup_isSome.mp (by rw [h]; rfl)))
  have hv : v = v' := by
    have hmem : (⟨k, v'⟩ : Σ _ : K, V) ∈ t.entries := by simp [hentries]
    exact Option.some.inj (h.symm.trans (AList.mem_lookup_iff.mpr hmem))
  have hrest : (t.erase k).entries = before ++ after := herase
  rw [hrest, hentries, hv]
  exact List.perm_middle

theorem values_perm_erase {t : Table K V} {k : K} {v : V} (h : t.lookup k = some v) :
    (values t).Perm (v :: values (t.erase k)) := by
  exact (entries_perm_erase h).map Sigma.snd

theorem values_erase_of_lookup {t : Table K V} {k : K} (h : t.lookup k = none) :
    values (t.erase k) = values t := by
  exact congrArg (List.map Sigma.snd) (List.kerase_of_notMem_keys (AList.lookup_eq_none.mp h))

theorem total_erase {t : Table K V} {k : K} {v : V} (f : V → ℕ) (h : t.lookup k = some v) :
    total f t = f v + total f (t.erase k) := by
  unfold total
  rw [((values_perm_erase h).map f).sum_nat, List.map_cons, List.sum_cons]

theorem total_insert (f : V → ℕ) (t : Table K V) (k : K) (v : V) :
    total f (t.insert k v) = f v + total f (t.erase k) := by
  unfold total
  rw [((values_insert_perm t k v).map f).sum_nat, List.map_cons, List.sum_cons]

theorem total_erase_of_lookup {t : Table K V} {k : K} (f : V → ℕ) (h : t.lookup k = none) :
    total f (t.erase k) = total f t := by
  unfold total
  rw [values_erase_of_lookup h]

/-! ### Entries in order -/

section Ascending

variable (rank : K → ℕ)

/-- The entries by ascending rank of their keys. -/
def sortedEntries (t : Table K V) : List (Σ _ : K, V) :=
  t.entries.mergeSort fun a b => rank a.1 ≤ rank b.1

/-- The values by ascending rank of their keys. -/
def ascending (t : Table K V) : List V := (sortedEntries rank t).map Sigma.snd

variable {rank}

omit [DecidableEq K] in
theorem sortedEntries_perm (t : Table K V) : (sortedEntries rank t).Perm t.entries :=
  List.mergeSort_perm _ _

omit [DecidableEq K] in
theorem ascending_perm (t : Table K V) : (ascending rank t).Perm (values t) := by
  unfold ascending values
  exact (sortedEntries_perm t).map Sigma.snd

omit [DecidableEq K] in
theorem pairwise_sortedEntries (t : Table K V) :
    (sortedEntries rank t).Pairwise fun a b => rank a.1 ≤ rank b.1 := by
  let le : (Σ _ : K, V) → (Σ _ : K, V) → Bool := fun a b => decide (rank a.1 ≤ rank b.1)
  have htrans : ∀ a b c, le a b = true → le b c = true → le a c = true := by
    intro a b c hab hbc
    simp only [le, decide_eq_true_eq] at *
    omega
  have htotal : ∀ a b, (le a b || le b a) = true := by
    intro a b
    simp only [le, Bool.or_eq_true, decide_eq_true_eq]
    omega
  have hsorted := List.pairwise_mergeSort htrans htotal t.entries
  unfold sortedEntries
  simpa [le] using hsorted

/-- **The entry of the least key comes first**, and the others follow in their order. -/
theorem ascending_eq_cons (hrank : Function.Injective rank) {t : Table K V} {k : K} {v : V}
    (h : t.lookup k = some v) (hmin : ∀ e ∈ t.entries, rank k ≤ rank e.1) :
    ascending rank t = v :: ascending rank (t.erase k) := by
  have hperm : (sortedEntries rank t).Perm (⟨k, v⟩ :: sortedEntries rank (t.erase k)) :=
    (sortedEntries_perm t).trans ((entries_perm_erase h).trans
      ((sortedEntries_perm (t.erase k)).symm.cons _))
  have hcons : (⟨k, v⟩ :: sortedEntries rank (t.erase k)).Pairwise
      fun a b : Σ _ : K, V => rank a.1 ≤ rank b.1 := by
    refine List.pairwise_cons.mpr ⟨fun e he => hmin e ?_, pairwise_sortedEntries _⟩
    exact ((entries_perm_erase h).mem_iff).mpr
      (List.mem_cons_of_mem _ ((sortedEntries_perm _).mem_iff.mp he))
  -- no two entries have one key, so the order is the only one
  have hsame : sortedEntries rank t = ⟨k, v⟩ :: sortedEntries rank (t.erase k) := by
    refine List.Perm.eq_of_pairwise (fun a b ha hb hab hba => ?_) (pairwise_sortedEntries t) hcons
      hperm
    have ha' : a ∈ t.entries := (sortedEntries_perm t).mem_iff.mp ha
    have hb' : b ∈ t.entries := (sortedEntries_perm t).mem_iff.mp (hperm.mem_iff.mpr hb)
    exact t.nodupKeys.eq_of_fst_eq ha' hb' (hrank (Nat.le_antisymm hab hba))
  rw [ascending, hsame]
  rfl

theorem pairwise_ascending {t : Table K V} {key : V → K}
    (hkey : ∀ k v, t.lookup k = some v → key v = k) (hrank : Function.Injective rank) :
    (ascending rank t).Pairwise fun v w => rank (key v) < rank (key w) := by
  have hnodup : (sortedEntries rank t).Pairwise fun a b => a.1 ≠ b.1 :=
    ((sortedEntries_perm t).pairwise_iff fun hab => Ne.symm hab).mpr
      (List.pairwise_map.mp t.nodupKeys)
  have hmem : ∀ e ∈ sortedEntries rank t, key e.2 = e.1 := fun e he =>
    hkey e.1 e.2 (AList.mem_lookup_iff.mpr ((sortedEntries_perm t).mem_iff.mp he))
  refine List.pairwise_map.mpr ?_
  refine ((pairwise_sortedEntries t).and hnodup).imp_of_mem fun ha hb hab => ?_
  rw [hmem _ ha, hmem _ hb]
  exact lt_of_le_of_ne hab.1 fun h => hab.2 (hrank h)

end Ascending

/-! ### Visiting the entries -/

/-- An order in which the elements of a collection are visited. -/
structure Visit (α : Type) where
  order : List α → List α
  perm : ∀ l, (order l).Perm l

/-- The order in which the entries are stored. -/
def Visit.inOrder {α : Type} : Visit α := ⟨id, fun _ => .refl _⟩

/-- An order in which `x` comes first, if it is there. -/
def Visit.first {α : Type} [DecidableEq α] (x : α) : Visit α where
  order l := if x ∈ l then x :: l.erase x else l
  perm l := by
    by_cases hx : x ∈ l
    · rw [if_pos hx]
      exact (List.perm_cons_erase hx).symm
    · rw [if_neg hx]

theorem mem_visit {v : Visit V} {t : Table K V} {x : V} :
    x ∈ v.order (values t) ↔ ∃ k, t.lookup k = some x := by
  rw [(v.perm _).mem_iff, mem_values_iff]

end NewMavlink.Lib.Tables
