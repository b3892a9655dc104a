import NewMavlink.Lib.Runs

/-! # Programs that return

A program runs in a state of its own until it returns an exit code, and does nothing after that.
`step f` is the step function of `Lib.Runs` for a program whose step while it runs is `f`, and
`output out` what it puts out.

* `run_exited`, `outputs_exited`: a program that has returned stays as it is and puts out nothing.
* `program_invariant`: what every step keeps of the state and of what was put out so far, a run
  keeps; what holds when the program returns, holds ever after. -/

namespace NewMavlink.Lib.Programs

open NewMavlink.Lib.Runs

/-- A program runs in a state, or has returned an exit code. -/
inductive Program (σ : Type) where
  | running (s : σ)
  | exited (code : ℕ)

variable {σ α β : Type}

namespace Program

/-- A step of a program that runs; one that has returned stays as it is. -/
def step (f : σ → α → Program σ) : Program σ → α → Program σ
  | running s, a => f s a
  | exited code, _ => exited code

/-- What a program puts out while it runs. -/
def output (out : σ → α → List β) : Program σ → α → List β
  | running s, a => out s a
  | exited _, _ => []

/-- `Running` holds of the state if the program runs, `Exited` of the code if it has returned. -/
def Holds (Running : σ → Prop) (Exited : ℕ → Prop) : Program σ → Prop
  | running s => Running s
  | exited code => Exited code

end Program

open Program

variable {f : σ → α → Program σ} {out : σ → α → List β}

@[simp] theorem step_running (s : σ) (a : α) : step f (running s) a = f s a := rfl

@[simp] theorem step_exited (code : ℕ) (a : α) : step f (exited code) a = exited code := rfl

@[simp] theorem output_running (s : σ) (a : α) : output out (running s) a = out s a := rfl

@[simp] theorem output_exited (code : ℕ) (a : α) : output out (exited code) a = [] := rfl

/-- **A program that has returned** stays as it is. -/
@[simp] theorem run_exited (code : ℕ) (as : List α) :
    run (step f) (exited code) as = exited code := by
  induction as with
  | nil => rfl
  | cons a as ih => exact ih

@[simp] theorem outputs_exited (code : ℕ) (as : List α) :
    outputs (step f) (output out) (exited code) as = [] := by
  induction as with
  | nil => rfl
  | cons a as ih => exact ih

/-- **What every step keeps of the state and of what was put out**, a run keeps. -/
theorem program_invariant (Running : List β → σ → Prop) (Exited : List β → ℕ → Prop)
    (hstep : ∀ log s a, Running log s →
      (f s a).Holds (Running (log ++ out s a)) (Exited (log ++ out s a)))
    {p : Program σ} (h0 : p.Holds (Running []) (Exited [])) (as : List α) :
    (run (step f) p as).Holds (Running (outputs (step f) (output out) p as))
      (Exited (outputs (step f) (output out) p as)) := by
  induction as using List.reverseRecOn with
  | nil => exact h0
  | append_singleton as a ih =>
    rw [run_concat, outputs_concat]
    cases hp : run (step f) p as with
    | running s =>
      rw [hp] at ih
      exact hstep _ s a ih
    | exited code =>
      rw [hp] at ih
      rw [output_exited, List.append_nil]
      exact ih

end NewMavlink.Lib.Programs
