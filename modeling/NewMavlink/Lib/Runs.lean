import Mathlib.Data.List.Basic
import Mathlib.Data.List.Induction
import Mathlib.Data.List.Nodup

/-! # Runs of a state machine

A machine is a step function `step : σ → α → σ`: the state after an action. `run step s as` is the
state after the actions `as`, and `Along step P s as` says that `P` holds of each action and of the
state it meets; it states what the environment guarantees at every step, and what is proved of
every step.

* `run_invariant`, `run_keeps`: what every step keeps, a run keeps.
* `run_rel`: what every step keeps of two states, two runs keep.
* `along_of_invariant`: what an invariant gives at one step, holds along the run.
* `run_entry`, `run_origin`: what holds at the end and not at the start, came about at one step.
* `run_flag_iff`: a flag that one kind of step sets says whether the run has had such a step.
* `history_invariant`: what every step keeps of the history of a run; `outputs` is what the actions
  of a history put out, and `AlongHistory P as` says that `P` holds of each action and of those
  before it.
* `run_last`, `run_counter`, `run_fifo`: a cell, a counter and a queue against what the steps put
  into them.
* `run_component`, `along_component`, `outputs_component`: the run of a component of a machine.
* `forall_mem_log`, `nodup_log`, `paired_log`: what holds of a log and of its next entry. -/

namespace NewMavlink.Lib.Runs

variable {σ α : Type} {step : σ → α → σ}

/-- The state after the actions `as`. -/
def run (step : σ → α → σ) (s : σ) (as : List α) : σ := as.foldl step s

@[simp] theorem run_nil (s : σ) : run step s [] = s := rfl

@[simp] theorem run_cons (s : σ) (a : α) (as : List α) :
    run step s (a :: as) = run step (step s a) as := rfl

/-- `P` holds of every action of the run and the state it meets. -/
def Along (step : σ → α → σ) (P : σ → α → Prop) : σ → List α → Prop
  | _, [] => True
  | s, a :: as => P s a ∧ Along step P (step s a) as

@[simp] theorem along_nil {P : σ → α → Prop} (s : σ) : Along step P s [] := trivial

@[simp] theorem along_cons {P : σ → α → Prop} {s : σ} {a : α} {as : List α} :
    Along step P s (a :: as) ↔ P s a ∧ Along step P (step s a) as := Iff.rfl

/-- **What every step keeps, a run keeps.** -/
theorem run_invariant {P : σ → α → Prop} {Inv : σ → Prop}
    (hstep : ∀ s a, Inv s → P s a → Inv (step s a)) :
    ∀ {s : σ} {as : List α}, Inv s → Along step P s as → Inv (run step s as)
  | _, [], h, _ => h
  | s, a :: as, h, ha => by
    rw [run_cons]
    exact run_invariant hstep (hstep s a h ha.1) ha.2

/-- **What an invariant gives at one step, holds along the run.** -/
theorem along_of_invariant {P Q : σ → α → Prop} {Inv : σ → Prop}
    (hstep : ∀ s a, Inv s → P s a → Inv (step s a)) (hQ : ∀ s a, Inv s → P s a → Q s a) :
    ∀ {s : σ} {as : List α}, Inv s → Along step P s as → Along step Q s as
  | _, [], _, _ => trivial
  | _, _ :: _, h, ha =>
    ⟨hQ _ _ h ha.1, along_of_invariant hstep hQ (hstep _ _ h ha.1) ha.2⟩

theorem along_of_forall {P : σ → α → Prop} (h : ∀ s a, P s a) :
    ∀ (s : σ) (as : List α), Along step P s as
  | _, [] => trivial
  | s, a :: as => ⟨h s a, along_of_forall h (step s a) as⟩

theorem along_of_mem {P : α → Prop} : ∀ {s : σ} {as : List α}, (∀ a ∈ as, P a) →
    Along step (fun _ a => P a) s as
  | _, [], _ => trivial
  | _, _ :: _, h => ⟨h _ List.mem_cons_self,
      along_of_mem fun a ha => h a (List.mem_cons_of_mem _ ha)⟩

theorem along_mono {P Q : σ → α → Prop} (h : ∀ s a, P s a → Q s a) :
    ∀ {s : σ} {as : List α}, Along step P s as → Along step Q s as
  | _, [], _ => trivial
  | _, _ :: _, ha => ⟨h _ _ ha.1, along_mono h ha.2⟩

theorem along_and {P Q : σ → α → Prop} : ∀ {s : σ} {as : List α}, Along step P s as →
    Along step Q s as → Along step (fun s a => P s a ∧ Q s a) s as
  | _, [], _, _ => trivial
  | _, _ :: _, hp, hq => ⟨⟨hp.1, hq.1⟩, along_and hp.2 hq.2⟩

theorem along_congr {P Q : σ → α → Prop} :
    ∀ {s : σ} {as : List α}, Along step (fun s a => P s a ↔ Q s a) s as →
      (Along step P s as ↔ Along step Q s as)
  | _, [], _ => Iff.rfl
  | _, _ :: _, h => and_congr h.1 (along_congr h.2)

/-- What every step keeps though the environment guarantees nothing. -/
theorem run_keeps {Inv : σ → Prop} (hstep : ∀ s a, Inv s → Inv (step s a)) :
    ∀ {s : σ} (as : List α), Inv s → Inv (run step s as)
  | _, [], h => h
  | s, a :: as, h => by
    rw [run_cons]
    exact run_keeps hstep as (hstep s a h)

/-- **Two runs of the same actions** stay related if every step keeps them so. -/
theorem run_rel {R : σ → σ → Prop} (hstep : ∀ s s' a, R s s' → R (step s a) (step s' a)) :
    ∀ {s s' : σ} (as : List α), R s s' → R (run step s as) (run step s' as)
  | _, _, [], h => h
  | s, s', a :: as, h => by
    rw [run_cons, run_cons]
    exact run_rel hstep as (hstep s s' a h)

/-! ### When something came about -/

theorem run_append (s : σ) (as bs : List α) :
    run step s (as ++ bs) = run step (run step s as) bs := List.foldl_append

theorem along_append {P : σ → α → Prop} : ∀ {s : σ} {as bs : List α},
    Along step P s (as ++ bs) ↔ Along step P s as ∧ Along step P (run step s as) bs
  | _, [], _ => (and_iff_right trivial).symm
  | _, _ :: _, _ => by
    rw [List.cons_append, along_cons, along_cons, run_cons, along_append, and_assoc]

/-- **What holds at the end and not at the start**, came about at one step and held ever since. -/
theorem run_entry {Q : σ → Prop} {s : σ} (h0 : ¬ Q s) {as : List α} :
    Q (run step s as) → ∃ before a after, as = before ++ a :: after ∧
      ¬ Q (run step s before) ∧ ∀ mid, mid <+: after → Q (run step s (before ++ a :: mid)) := by
  induction as using List.reverseRecOn with
  | nil => exact fun h => absurd h h0
  | append_singleton as a ih =>
    intro h
    by_cases hq : Q (run step s as)
    · obtain ⟨before, a', after, rfl, hn, hsince⟩ := ih hq
      refine ⟨before, a', after ++ [a], by simp, hn, fun mid hmid => ?_⟩
      rcases List.prefix_concat_iff.mp hmid with rfl | hmid
      · simpa using h
      · exact hsince mid hmid
    · refine ⟨as, a, [], rfl, hq, fun mid hmid => ?_⟩
      rw [List.prefix_nil.mp hmid]
      exact h

/-- **Every entry has an origin**: what a state holds and the first did not, one action of the run
brought in. -/
theorem run_origin {β : Type} {Holds : σ → β → Prop} {Src : σ → α → β → Prop}
    (hstep : ∀ s a b, Holds (step s a) b → Holds s b ∨ Src s a b) {s : σ} {b : β}
    (h0 : ¬ Holds s b) {as : List α} (h : Holds (run step s as) b) :
    ∃ before a after, as = before ++ a :: after ∧ Src (run step s before) a b := by
  obtain ⟨before, a, after, has, hn, hsince⟩ := run_entry (Q := fun s => Holds s b) h0 h
  have hin : Holds (step (run step s before) a) b := by
    simpa [run_append] using hsince [] List.nil_prefix
  exact ⟨before, a, after, has, (hstep _ _ _ hin).resolve_left hn⟩

/-- `P` holds of some action of the run and the state it meets. -/
def Somewhere (step : σ → α → σ) (P : σ → α → Prop) (s : σ) (as : List α) : Prop :=
  ∃ before a after, as = before ++ a :: after ∧ P (run step s before) a

theorem somewhere_concat {P : σ → α → Prop} {s : σ} {as : List α} {a : α} :
    Somewhere step P s (as ++ [a]) ↔ Somewhere step P s as ∨ P (run step s as) a := by
  constructor
  · rintro ⟨before, b, after, has, hb⟩
    rcases List.eq_nil_or_concat after with rfl | ⟨after, c, rfl⟩
    · obtain ⟨rfl, hlast⟩ := List.append_inj' has rfl
      obtain rfl := List.singleton_inj.mp hlast
      exact Or.inr hb
    · rw [List.concat_eq_append, ← List.cons_append, ← List.append_assoc] at has
      exact Or.inl ⟨before, b, after, (List.append_inj' has rfl).1, hb⟩
  · rintro (⟨before, b, after, rfl, hb⟩ | ha)
    · exact ⟨before, b, after ++ [a], by simp, hb⟩
    · exact ⟨as, a, [], rfl, ha⟩

/-- **A flag says what has happened**: if one kind of step sets it and no step clears it, it is set
after a run exactly if the run has had such a step. -/
theorem run_flag_iff {Q : σ → Prop} {P : σ → α → Prop} (hstep : ∀ s a, Q (step s a) ↔ Q s ∨ P s a)
    {s : σ} (h0 : ¬ Q s) (as : List α) : Q (run step s as) ↔ Somewhere step P s as := by
  induction as using List.reverseRecOn with
  | nil =>
    refine iff_of_false h0 ?_
    rintro ⟨before, a, after, has, -⟩
    simp at has
  | append_singleton as a ih => rw [run_append, run_cons, run_nil, hstep, ih, somewhere_concat]

/-! ### Histories

What a run has done is a function of its actions, so that a law about the past of a run needs no
state of its own. -/

/-- **What every step keeps of the history**, a run keeps. -/
theorem history_invariant {P : σ → α → Prop} {Inv : List α → Prop} {s : σ} (h0 : Inv [])
    (hstep : ∀ as a, Inv as → P (run step s as) a → Inv (as ++ [a])) {as : List α}
    (h : Along step P s as) : Inv as := by
  induction as using List.reverseRecOn with
  | nil => exact h0
  | append_singleton as a ih =>
    obtain ⟨has, ha, -⟩ := along_append.mp h
    exact hstep as a (ih has) ha

/-- `P` holds of every action of the run and the actions before it. -/
def AlongHistory (P : List α → α → Prop) (as : List α) : Prop :=
  ∀ before a, before ++ [a] <+: as → P before a

theorem alongHistory_nil {P : List α → α → Prop} : AlongHistory P [] := by
  intro before a h
  simp at h

theorem alongHistory_concat {P : List α → α → Prop} {as : List α} {a : α} :
    AlongHistory P (as ++ [a]) ↔ AlongHistory P as ∧ P as a := by
  constructor
  · intro h
    exact ⟨fun before b hb => h before b (hb.trans (List.prefix_append as [a])),
      h as a List.prefix_rfl⟩
  · rintro ⟨has, ha⟩ before b hb
    rcases List.prefix_concat_iff.mp hb with heq | hb
    · obtain ⟨rfl, hlast⟩ := List.append_inj' heq rfl
      obtain rfl := List.singleton_inj.mp hlast
      exact ha
    · exact has before b hb

/-- What the actions put out, one after another. -/
def outputs {β : Type} (step : σ → α → σ) (out : σ → α → List β) : σ → List α → List β
  | _, [] => []
  | s, a :: as => out s a ++ outputs step out (step s a) as

@[simp] theorem outputs_nil {β : Type} {out : σ → α → List β} (s : σ) :
    outputs step out s [] = [] := rfl

theorem outputs_append {β : Type} {out : σ → α → List β} : ∀ (s : σ) (as bs : List α),
    outputs step out s (as ++ bs) = outputs step out s as ++ outputs step out (run step s as) bs
  | _, [], _ => rfl
  | s, a :: as, bs => by
    rw [List.cons_append, run_cons, outputs, outputs, outputs_append, List.append_assoc]

@[simp] theorem outputs_concat {β : Type} {out : σ → α → List β} (s : σ) (as : List α) (a : α) :
    outputs step out s (as ++ [a]) = outputs step out s as ++ out (run step s as) a := by
  rw [outputs_append]
  simp [outputs]

theorem mem_outputs {β : Type} {out : σ → α → List β} {b : β} : ∀ {s : σ} {as : List α},
    b ∈ outputs step out s as →
      ∃ before a after, as = before ++ a :: after ∧ b ∈ out (run step s before) a
  | s, a :: as, h => by
    rcases List.mem_append.mp h with h | h
    · exact ⟨[], a, as, rfl, h⟩
    · obtain ⟨before, a', after, rfl, hb⟩ := mem_outputs h
      exact ⟨a :: before, a', after, rfl, hb⟩

section Ledgers
variable {β : Type} {out inp : σ → α → List β}

/-- **A cell holds what was last put into it.** -/
theorem run_last {γ : Type} {g : β → γ} {f : σ → Option γ}
    (h : ∀ s a, f (step s a) = ((out s a).getLast?.map g).or (f s)) :
    ∀ (s : σ) (as : List α),
      f (run step s as) = ((outputs step out s as).getLast?.map g).or (f s)
  | _, [] => rfl
  | s, a :: as => by
    rw [run_cons, outputs, run_last h, h, List.getLast?_append, Option.map_or, Option.or_assoc]

theorem outputs_filter (p : β → Bool) : ∀ (s : σ) (as : List α),
    outputs step (fun s a => (out s a).filter p) s as = (outputs step out s as).filter p
  | _, [] => rfl
  | s, a :: as => by
    rw [outputs, outputs, List.filter_append, outputs_filter p]

/-- **A counter counts**, up to its overflow. -/
theorem run_counter {f : σ → UInt64}
    (h : ∀ s a, f (step s a) = f s + UInt64.ofNat (out s a).length) :
    ∀ (s : σ) (as : List α),
      f (run step s as) = f s + UInt64.ofNat (outputs step out s as).length
  | s, [] => by simp
  | s, a :: as => by
    rw [run_cons, outputs, run_counter h, h, List.length_append, UInt64.ofNat_add,
      UInt64.add_assoc]

/-- **A queue gives out what was put into it**, in that order: what it has given out, followed by
what it holds, is what it held at first, followed by what was put into it. -/
theorem run_fifo {f : σ → List β} (h : ∀ s a, out s a ++ f (step s a) = f s ++ inp s a) :
    ∀ (s : σ) (as : List α),
      outputs step out s as ++ f (run step s as) = f s ++ outputs step inp s as
  | s, [] => by simp
  | s, a :: as => by
    rw [run_cons, outputs, outputs, List.append_assoc, run_fifo h, ← List.append_assoc, h,
      List.append_assoc]

end Ledgers

section Component
variable {τ β : Type} {step' : τ → β → τ} {f : σ → τ} {out : σ → α → List β}

/-- **A component runs** as its own machine, through the actions that the steps of the whole put out
for it. -/
theorem run_component (h : ∀ s a, f (step s a) = run step' (f s) (out s a)) :
    ∀ (s : σ) (as : List α), f (run step s as) = run step' (f s) (outputs step out s as)
  | _, [] => rfl
  | s, a :: as => by
    rw [run_cons, outputs, run_append, ← h, run_component h]

/-- What the whole guarantees at every step, its component meets along its own run. -/
theorem along_component {P : σ → α → Prop} {Q : τ → β → Prop}
    (h : ∀ s a, f (step s a) = run step' (f s) (out s a))
    (hP : ∀ s a, P s a → Along step' Q (f s) (out s a)) :
    ∀ {s : σ} {as : List α}, Along step P s as → Along step' Q (f s) (outputs step out s as)
  | _, [], _ => trivial
  | s, a :: as, ha => by
    refine along_append.mpr ⟨hP s a ha.1, ?_⟩
    rw [← h]
    exact along_component h hP ha.2

theorem outputs_component {γ : Type} {out' : τ → β → List γ}
    (h : ∀ s a, f (step s a) = run step' (f s) (out s a)) : ∀ (s : σ) (as : List α),
    outputs step (fun s a => outputs step' out' (f s) (out s a)) s as =
      outputs step' out' (f s) (outputs step out s as)
  | _, [] => rfl
  | s, a :: as => by
    rw [outputs, outputs, outputs_append, ← h, outputs_component h]

end Component

@[simp] theorem run_concat (s : σ) (as : List α) (a : α) :
    run step s (as ++ [a]) = step (run step s as) a := run_append s as [a]

/-! ### Logs

A state may hold a log, a list that a step extends at its end. -/

/-- **What holds of a log and of its next entry**, holds of the log after the step. -/
theorem forall_mem_log {log : List α} {a : α} {p : α → Prop} (hlog : ∀ x ∈ log, p x) (ha : p a) :
    ∀ x ∈ log ++ [a], p x := by
  intro x hx
  rcases List.mem_append.mp hx with hx | hx
  · exact hlog x hx
  · rw [List.mem_singleton.mp hx]
    exact ha

theorem nodup_log {log : List α} {a : α} (hlog : log.Nodup) (ha : a ∉ log) :
    (log ++ [a]).Nodup := by
  rw [← List.concat_eq_append]
  exact List.Nodup.concat ha hlog

/-- **Two logs that go together entry by entry**, each with a next entry. -/
theorem paired_log {β : Type} {log : List α} {log' : List β} {a : α} {b : β}
    {p : ℕ → β → α → Prop} (h : ∀ i x, log[i]? = some x → ∃ y, log'[i]? = some y ∧ p i y x)
    (hlength : log'.length = log.length) (hlast : p log.length b a) :
    ∀ i x, (log ++ [a])[i]? = some x → ∃ y, (log' ++ [b])[i]? = some y ∧ p i y x := by
  intro i x hi
  rcases Nat.lt_trichotomy i log.length with hlt | rfl | hgt
  · rw [List.getElem?_append_left hlt] at hi
    rw [List.getElem?_append_left (hlength ▸ hlt)]
    exact h i x hi
  · rw [List.getElem?_concat_length] at hi
    obtain rfl := Option.some.inj hi
    exact ⟨b, by rw [← hlength, List.getElem?_concat_length], hlast⟩
  · rw [List.getElem?_eq_none (by simp; omega)] at hi
    cases hi

end NewMavlink.Lib.Runs
