import NewMavlink.Lib.Runs
import NewMavlink.Lib.SlidingWindow
import NewMavlink.Wire

/-! # The replay window

`ReplayWindow` of `record.cpp`: the highest sequence committed, and a word whose bit `i` says that
the sequence `i` below it has been committed. `Refines w C` ties a window to the set `C` of the
sequences it has committed; a fresh window has committed nothing, and `commit` keeps the relation
(`Refines.commit`), shifts of 64 and more and both ends of the 64-bit range included.

`replayWindow_refines_set`: after any list of commits the window accepts what a receiver that
remembers the whole set and looks 64 back accepts, and no sequence is committed twice. -/

namespace NewMavlink.Record.Replay

open NewMavlink.Lib.Runs NewMavlink.Lib.SlidingWindow

/-- The highest sequence that was committed, and a bit for each of the 64 up to it. -/
structure ReplayWindow where
  highWater : UInt64 := 0
  bitmap : UInt64 := 0
  initialized : Bool := false
deriving DecidableEq, Repr, Inhabited

namespace ReplayWindow

/-- `ReplayWindow::accepted`. -/
def accepted (w : ReplayWindow) (sequence : UInt64) : Bool :=
  if !w.initialized then true
  else if sequence > w.highWater then true
  else
    let distance := w.highWater - sequence
    distance < 64 && (w.bitmap &&& (1 <<< distance)) == 0

/-- `ReplayWindow::commit`: the result, and the window after the call. -/
def commit (w : ReplayWindow) (sequence : UInt64) : Bool × ReplayWindow :=
  if !w.accepted sequence then (false, w)
  else if !w.initialized then (true, ⟨sequence, 1, true⟩)
  else if sequence > w.highWater then
    let shift := sequence - w.highWater
    (true, { w with
      bitmap := if shift ≥ 64 then 1 else (w.bitmap <<< shift) ||| 1
      highWater := sequence })
  else (true, { w with bitmap := w.bitmap ||| (1 <<< (w.highWater - sequence)) })

/-- `ReplayWindow::reset`. -/
def reset (_ : ReplayWindow) : ReplayWindow := ⟨0, 0, false⟩

theorem commit_of_not_accepted {w : ReplayWindow} {s : UInt64} (h : w.accepted s = false) :
    w.commit s = (false, w) := by
  simp [commit, h]

theorem commit_first {w : ReplayWindow} (hi : w.initialized = false) (s : UInt64) :
    w.commit s = (true, ⟨s, 1, true⟩) := by
  simp [commit, accepted, hi]

theorem commit_above {w : ReplayWindow} {s : UInt64} (hi : w.initialized = true)
    (hlt : w.highWater < s) :
    w.commit s = (true, ⟨s, if s - w.highWater ≥ 64 then 1
      else (w.bitmap <<< (s - w.highWater)) ||| 1, true⟩) := by
  simp [commit, accepted, hi, hlt]

theorem commit_inside {w : ReplayWindow} {s : UInt64} (hi : w.initialized = true)
    (ha : w.accepted s = true) (hlt : ¬ w.highWater < s) :
    w.commit s = (true, ⟨w.highWater, w.bitmap ||| (1 <<< (w.highWater - s)), true⟩) := by
  simp [commit, ha, hi, hlt]

theorem commit_fst (w : ReplayWindow) (s : UInt64) : (w.commit s).1 = w.accepted s := by
  cases ha : w.accepted s with
  | false => rw [commit_of_not_accepted ha]
  | true =>
    cases hi : w.initialized with
    | false => rw [commit_first hi]
    | true =>
      by_cases hlt : w.highWater < s
      · rw [commit_above hi hlt]
      · rw [commit_inside hi ha hlt]

end ReplayWindow

/-! ### The window and the set -/

theorem toBitVec_shiftLeft_of_lt {b d : UInt64} (hd : d.toNat < 64) :
    (b <<< d).toBitVec = b.toBitVec <<< d.toNat := by
  rw [UInt64.toBitVec_shiftLeft, BitVec.shiftLeft_eq', BitVec.toNat_umod]
  congr 1
  exact Nat.mod_eq_of_lt hd

/-- The word operation by which the source tests a bit. -/
theorem and_shiftLeft_eq_zero {b d : UInt64} (hd : d.toNat < 64) :
    (b &&& (1 <<< d)) = 0 ↔ b.toBitVec.getLsbD d.toNat = false := by
  rw [← UInt64.toBitVec_inj, UInt64.toBitVec_and, toBitVec_shiftLeft_of_lt hd]
  show b.toBitVec &&& BitVec.twoPow 64 d.toNat = 0#64 ↔ _
  have hne : BitVec.twoPow 64 d.toNat ≠ 0#64 := by
    intro h
    have hbit := congrArg (fun x => BitVec.getLsbD x d.toNat) h
    simp [hd] at hbit
  rw [BitVec.and_twoPow]
  split_ifs with hb <;> simp [hb, hne]

/-- `w` has committed exactly the sequences of `C`, as far as its word reaches. -/
def Refines (w : ReplayWindow) (C : Finset ℕ) : Prop :=
  (w.initialized = false ∧ C = ∅) ∨
    (w.initialized = true ∧ Represents w.highWater.toNat w.bitmap.toBitVec C)

theorem Refines.fresh : Refines {} ∅ := Or.inl ⟨rfl, rfl⟩

variable {w : ReplayWindow} {C : Finset ℕ} {s : UInt64}

/-- **The window accepts what the set admits.** -/
theorem Refines.accepted_iff (h : Refines w C) : w.accepted s = true ↔ Admits 64 C s.toNat := by
  rcases h with ⟨hi, rfl⟩ | ⟨hi, hr⟩
  · simp [ReplayWindow.accepted, hi, Admits]
  · rw [hr.admits_iff]
    by_cases hlt : w.highWater < s
    · simp [ReplayWindow.accepted, hi, hlt, UInt64.lt_iff_toNat_lt.mp hlt]
    · have hle : s ≤ w.highWater := UInt64.not_lt.mp hlt
      have hsub := UInt64.toNat_sub_of_le _ _ hle
      have hacc : w.accepted s = true ↔
          w.highWater - s < 64 ∧ (w.bitmap &&& (1 <<< (w.highWater - s))) = 0 := by
        simp [ReplayWindow.accepted, hi, hlt]
      rw [hacc, or_iff_right (mt UInt64.lt_iff_toNat_lt.mpr hlt), UInt64.lt_iff_toNat_lt, hsub]
      refine and_congr_right fun hd => ?_
      rw [and_shiftLeft_eq_zero (by rw [hsub]; exact hd), hsub]

/-- **A commit that succeeds adds its sequence to the set.** -/
theorem Refines.commit (h : Refines w C) (ha : w.accepted s = true) :
    Refines (w.commit s).2 (insert s.toNat C) := by
  have hadm := h.accepted_iff.mp ha
  rcases h with ⟨hi, rfl⟩ | ⟨hi, hr⟩
  · rw [ReplayWindow.commit_first hi]
    exact Or.inr ⟨rfl, Represents.first (by decide) _⟩
  · by_cases hlt : w.highWater < s
    · rw [ReplayWindow.commit_above hi hlt]
      have hsub := UInt64.toNat_sub_of_le _ _ (UInt64.le_of_lt hlt)
      refine Or.inr ⟨rfl, ?_⟩
      show Represents s.toNat _ _
      convert hr.advance (UInt64.lt_iff_toNat_lt.mp hlt) using 1
      show (if s - w.highWater ≥ 64 then (1 : UInt64) else _).toBitVec = _
      rw [← hsub]
      split_ifs with h64
      · -- the whole word is shifted out
        rw [BitVec.shiftLeft_eq_zero (UInt64.le_iff_toNat_le.mp h64)]; rfl
      · have h64' : (s - w.highWater).toNat < 64 :=
          UInt64.lt_iff_toNat_lt.mp (UInt64.not_le.mp h64)
        rw [UInt64.toBitVec_or, toBitVec_shiftLeft_of_lt h64']; rfl
    · rw [ReplayWindow.commit_inside hi ha hlt]
      have hle : s ≤ w.highWater := UInt64.not_lt.mp hlt
      have hsub := UInt64.toNat_sub_of_le _ _ hle
      have hd : w.highWater.toNat - s.toNat < 64 := by
        rcases hr.admits_iff.mp hadm with h | h
        · exact absurd (UInt64.lt_iff_toNat_lt.mpr h) hlt
        · exact h.1
      refine Or.inr ⟨rfl, ?_⟩
      show Represents w.highWater.toNat (w.bitmap ||| (1 <<< (w.highWater - s))).toBitVec _
      rw [UInt64.toBitVec_or, toBitVec_shiftLeft_of_lt (by rw [hsub]; exact hd), hsub]
      exact hr.mark (UInt64.le_iff_toNat_le.mp hle) hd

theorem Refines.commit_ne (h : Refines w C) (ha : w.accepted s = true) : (w.commit s).2 ≠ w := by
  intro he
  have hr := h.commit ha
  rw [he] at hr
  exact not_mem_of_admits (hr.accepted_iff.mp ha) (Finset.mem_insert_self _ _)

/-! ### Lists of commits -/

/-- One commit, with the sequences committed so far. -/
def commitStep (x : ReplayWindow × List UInt64) (sequence : UInt64) : ReplayWindow × List UInt64 :=
  ((x.1.commit sequence).2, if (x.1.commit sequence).1 then x.2 ++ [sequence] else x.2)

/-- The window after a list of commits, and the sequences whose commit returned true. -/
def commits (w : ReplayWindow) (sequences : List UInt64) : ReplayWindow × List UInt64 :=
  run commitStep (w, []) sequences

/-- A list of sequences as a set of numbers. -/
def seqSet (l : List UInt64) : Finset ℕ := (l.map UInt64.toNat).toFinset

theorem mem_seqSet {l : List UInt64} : s.toNat ∈ seqSet l ↔ s ∈ l := by
  simp only [seqSet, List.mem_toFinset, List.mem_map, UInt64.toNat_inj, exists_eq_right]

theorem seqSet_append (l : List UInt64) (s : UInt64) :
    seqSet (l ++ [s]) = insert s.toNat (seqSet l) := by
  ext x
  simp only [seqSet, List.map_append, List.map_cons, List.map_nil, List.mem_toFinset,
    List.mem_append, List.mem_singleton, Finset.mem_insert]
  exact or_comm

/-- What holds after every commit. -/
structure Inv (x : ReplayWindow × List UInt64) : Prop where
  refines : Refines x.1 (seqSet x.2)
  nodup : x.2.Nodup

theorem inv_commitStep (x : ReplayWindow × List UInt64) (s : UInt64) (h : Inv x) :
    Inv (commitStep x s) := by
  obtain ⟨w, l⟩ := x
  cases ha : w.accepted s with
  | false => rw [commitStep, ReplayWindow.commit_of_not_accepted ha]; exact h
  | true =>
    have hnew : s ∉ l := by
      intro hs
      exact not_mem_of_admits (h.refines.accepted_iff.mp ha) (mem_seqSet.mpr hs)
    rw [commitStep, ReplayWindow.commit_fst, if_pos ha]
    refine ⟨?_, nodup_log h.nodup hnew⟩
    rw [seqSet_append]
    exact h.refines.commit ha

theorem inv_commits (sequences : List UInt64) : Inv (commits {} sequences) :=
  run_keeps inv_commitStep sequences ⟨Refines.fresh, List.nodup_nil⟩

/-- The set of a list admits a sequence, in terms of the list's largest member. -/
theorem admits_seqSet_iff {l : List UInt64} : Admits 64 (seqSet l) s.toNat ↔
    l = [] ∨ ∃ m ∈ l, (∀ c ∈ l, c ≤ m) ∧ (m < s ∨ (m.toNat - s.toNat < 64 ∧ s ∉ l)) := by
  by_cases hl : l = []
  · simp [hl, Admits, seqSet]
  · have hne : (seqSet l).Nonempty := by
      obtain ⟨a, ha⟩ := List.exists_mem_of_ne_nil l hl
      exact ⟨_, mem_seqSet.mpr ha⟩
    obtain ⟨n, hn, hsup⟩ := Finset.exists_mem_eq_sup (seqSet l) hne id
    obtain ⟨m, hm, rfl⟩ : ∃ m ∈ l, m.toNat = n := by simpa [seqSet] using hn
    have hmax : ∀ c ∈ l, c ≤ m := by
      intro c hc
      have hle := Finset.le_sup (f := id) (mem_seqSet.mpr hc)
      rw [hsup] at hle
      exact UInt64.le_iff_toNat_le.mpr hle
    have huniq : ∀ m' ∈ l, (∀ c ∈ l, c ≤ m') → m' = m := by
      intro m' hm' h
      exact UInt64.le_antisymm (hmax m' hm') (h m hm)
    unfold Admits
    rw [hsup, mem_seqSet]
    simp only [hne.ne_empty, hl, false_or, id]
    constructor
    · exact fun h => ⟨m, hm, hmax, by rwa [UInt64.lt_iff_toNat_lt]⟩
    · rintro ⟨m', hm', hmax', h⟩
      rw [huniq m' hm' hmax', UInt64.lt_iff_toNat_lt] at h
      exact h

/-- **The replay window refines a set of sequences.** After any list of commits since construction
or reset, with `C` the sequences whose commit returned true: `accepted` decides by `C` alone,
`commit` returns what `accepted` returned, and no sequence is committed twice. -/
theorem replayWindow_refines_set (w₀ : ReplayWindow) (sequences : List UInt64) :
    w₀.reset = {} ∧
    let w := (commits w₀.reset sequences).1
    let C := (commits w₀.reset sequences).2
    (∀ s, w.accepted s = true ↔
      C = [] ∨ ∃ m ∈ C, (∀ c ∈ C, c ≤ m) ∧ (m < s ∨ (m.toNat - s.toNat < 64 ∧ s ∉ C))) ∧
    (∀ s, (w.commit s).1 = w.accepted s) ∧ C.Nodup := by
  have h := inv_commits sequences
  refine ⟨rfl, ?_, ?_, h.nodup⟩
  · intro s
    rw [← admits_seqSet_iff]
    exact h.refines.accepted_iff
  · intro s
    exact ReplayWindow.commit_fst _ s

end NewMavlink.Record.Replay
