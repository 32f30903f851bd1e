import LearningNotes.Lib.Runs
import Mathlib.Logic.Function.Basic

/-!
# A process and its signals

A program makes one step after the other, and signals arrive between any two of them. A signal that has
been raised is pending until it is delivered, which its mask may put off; then it ends the process, is
thrown away or is caught by a handler. A process in `sigsuspend` makes no step. A signal that is caught
ends the wait, and puts back the mask from before.

Handlers run to their end at once. `act_cases` says what an event can do.
-/

namespace LearningNotes.Signals

variable {S H D : Type} [DecidableEq S]

/-- What a process does with a signal. -/
inductive Disposition (H : Type) where
  | dfl
  | ign
  | catch (h : H)
  deriving DecidableEq

/-- `waiting` is the mask to put back when the wait is over, and `ended` the signal that has ended the
process. -/
structure Process (S H D : Type) where
  data : D
  action : S → Disposition H
  mask : S → Bool
  pending : S → Bool
  waiting : Option (S → Bool)
  ended : Option S

/-- The steps, and what a handler does to the data of the program and to the dispositions. -/
structure Program (S H D : Type) where
  step : Process S H D → Option (Process S H D)
  handle : H → S → D → (S → Disposition H) → D × (S → Disposition H)

/-- What can happen: a step of the program, or a signal. -/
inductive Event (S : Type) where
  | step
  | raise (s : S)
  | deliver (s : S)
  deriving DecidableEq

/-- A signal is sent. -/
def Process.raise (p : Process S H D) (s : S) : Process S H D :=
  { p with pending := Function.update p.pending s true }

/-- A signal that is pending is discarded. -/
def Process.drop (p : Process S H D) (s : S) : Process S H D :=
  { p with pending := Function.update p.pending s false }

/-- `sigsuspend(&mask)` -/
def Process.suspend (p : Process S H D) (mask : S → Bool) : Process S H D :=
  { p with mask, waiting := some p.mask }

/-- A signal is caught, and the handler returns. -/
def Process.caught (P : Program S H D) (h : H) (s : S) (p : Process S H D) : Process S H D :=
  let r := P.handle h s p.data p.action
  { p.drop s with data := r.1, action := r.2, mask := p.waiting.getD p.mask, waiting := none }

/-- A signal is delivered, if the mask allows it. -/
def Process.deliver (P : Program S H D) (s : S) (p : Process S H D) : Option (Process S H D) :=
  if p.pending s = true ∧ p.mask s = false then
    match p.action s with
    | .dfl => some { p with ended := some s }
    | .ign => some (p.drop s)
    | .catch h => some (p.caught P h s)
  else none

/-- An event, as long as the process has not ended. -/
def act (P : Program S H D) (e : Event S) (p : Process S H D) : Option (Process S H D) :=
  if p.ended.isSome then none
  else
    match e with
    | .step => if p.waiting.isSome then none else P.step p
    | .raise s => some (p.raise s)
    | .deliver s => p.deliver P s

variable {P : Program S H D} {e : Event S} {p p' : Process S H D} {s : S}

/-- What an event can do. -/
inductive Happens (P : Program S H D) (p : Process S H D) : Event S → Process S H D → Prop where
  | step {p' : Process S H D} (hw : p.waiting = none) (hs : P.step p = some p') : Happens P p .step p'
  | raise (s : S) : Happens P p (.raise s) (p.raise s)
  | ends {s : S} (hp : p.pending s = true) (hm : p.mask s = false) (ha : p.action s = .dfl) :
      Happens P p (.deliver s) { p with ended := some s }
  | drop {s : S} (hp : p.pending s = true) (hm : p.mask s = false) (ha : p.action s = .ign) :
      Happens P p (.deliver s) (p.drop s)
  | caught {s : S} {h : H} (hp : p.pending s = true) (hm : p.mask s = false)
      (ha : p.action s = .catch h) : Happens P p (.deliver s) (p.caught P h s)

/-- What an event does. -/
theorem act_cases (h : act P e p = some p') : p.ended = none ∧ Happens P p e p' := by
  unfold act at h
  split at h
  next => cases h
  next hend =>
    refine ⟨by simpa using hend, ?_⟩
    cases e with
    | step =>
      simp only at h
      split at h
      next => cases h
      next hw => exact .step (by simpa using hw) h
    | raise s =>
      cases h
      exact .raise s
    | deliver s =>
      simp only [Process.deliver] at h
      split at h
      next hc =>
        obtain ⟨hp, hm⟩ := hc
        split at h
        next ha =>
          cases h
          exact .ends hp hm ha
        next ha =>
          cases h
          exact .drop hp hm ha
        next handler ha =>
          cases h
          exact .caught hp hm ha
      next => cases h

/-- A process that does not wait goes on. -/
theorem act_step (hend : p.ended = none) (hw : p.waiting = none) : act P .step p = P.step p := by
  simp [act, hend, hw]

end LearningNotes.Signals
