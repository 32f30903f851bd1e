/-!
# Runs of a transition system

A transition system is a function `act`: action `a` takes state `s` to `act a s`, or is not
possible there. Actions carry every choice there is, so a run is determined by its list of
actions. `Run act init C s` says that a run from `init` ends in `s` and that each of its steps
satisfies `C`; a run under no condition has `C := fun _ _ => True`.

`Run.inv` is the one induction over runs: what holds at the start and is kept by every step
holds at the end. `Run.of_perform` and
`Run.of_performIf` make a run of a list of actions that can be evaluated.
-/

namespace LearningNotes

variable {σ α : Type} {act : α → σ → Option σ} {init s s' : σ} {C C' : α → σ → Prop}

/-- The states at the end of runs whose steps all satisfy `C`. -/
inductive Run (act : α → σ → Option σ) (init : σ) (C : α → σ → Prop) : σ → Prop where
  | start : Run act init C init
  | step {a : α} {s s' : σ} (h : Run act init C s) (hc : C a s) (hs : act a s = some s') :
      Run act init C s'

/-- No condition on the steps. -/
abbrev AnyStep : α → σ → Prop := fun _ _ => True

/-- **Invariants.** What one step keeps, a run keeps. -/
theorem Run.inv {I : σ → Prop} (hstart : I init)
    (hstep : ∀ a s s', Run act init C s → C a s → act a s = some s' → I s → I s')
    (h : Run act init C s) : I s := by
  induction h with
  | start => exact hstart
  | step h hc hs ih => exact hstep _ _ _ h hc hs ih

/-- A condition may be replaced by one that the steps of these runs satisfy. -/
theorem Run.mono (hC : ∀ a s s', Run act init C s → C a s → act a s = some s' → C' a s)
    (h : Run act init C s) : Run act init C' s := by
  induction h with
  | start => exact .start
  | step h hc hs ih => exact ih.step (hC _ _ _ h hc hs) hs

theorem Run.one {a : α} (hc : C a s) (hs : act a s = some s') : Run act s C s' :=
  Run.start.step hc hs

theorem Run.trans (h : Run act init C s) (h' : Run act s C s') : Run act init C s' := by
  induction h' with
  | start => exact h
  | step _ hc hs ih => exact ih.step hc hs

/-- The actions one after the other. -/
def perform (act : α → σ → Option σ) : List α → σ → Option σ
  | [], s => some s
  | a :: as, s => (act a s).bind (perform act as)

/-- Actions that can be performed make a run longer. -/
theorem Run.perform_from {as : List α} (h : Run act init AnyStep s)
    (hs : perform act as s = some s') : Run act init AnyStep s' := by
  induction as generalizing s with
  | nil =>
    cases hs
    exact h
  | cons a as ih =>
    obtain ⟨s₁, h₁, h₂⟩ := Option.bind_eq_some_iff.mp hs
    exact ih (h.step trivial h₁) h₂

theorem Run.of_perform {as : List α} (hs : perform act as init = some s) : Run act init AnyStep s :=
  Run.start.perform_from hs

/-- The actions one after the other, as long as they pass a test. -/
def performIf (act : α → σ → Option σ) (ok : α → σ → Bool) : List α → σ → Option σ
  | [], s => some s
  | a :: as, s => if ok a s then (act a s).bind (performIf act ok as) else none

theorem Run.performIf_from {ok : α → σ → Bool} (hok : ∀ a s, ok a s = true → C a s) {as : List α}
    (h : Run act init C s) (hs : performIf act ok as s = some s') : Run act init C s' := by
  induction as generalizing s with
  | nil =>
    cases hs
    exact h
  | cons a as ih =>
    unfold performIf at hs
    split at hs
    next hc =>
      obtain ⟨s₁, h₁, h₂⟩ := Option.bind_eq_some_iff.mp hs
      exact ih (h.step (hok a s hc) h₁) h₂
    next => cases hs

/-- A run whose steps have been tested. -/
theorem Run.of_performIf {ok : α → σ → Bool} (hok : ∀ a s, ok a s = true → C a s) {as : List α}
    (hs : performIf act ok as init = some s) : Run act init C s :=
  Run.start.performIf_from hok hs

end LearningNotes
