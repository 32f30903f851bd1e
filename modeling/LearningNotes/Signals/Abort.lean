import LearningNotes.Lib.Signals

/-!
# `abort.c`

`abort` ends the process with `SIGABRT`, whatever the caller does with this signal, whatever its
handlers do when they catch one, and whichever signals come in between. The `exit(1)` at the end is
never reached, as its comment says (`abort_ends`).

Mirroring notes:
- `S` are the signals that can be caught and blocked, which `SIGKILL` and `SIGSTOP` cannot.
- A handler may change every disposition, and returns.
- A signal that `kill` sends to its own process, and that is not blocked, is delivered before `kill`
  returns: `killed` is the place inside `kill`.
- `fflush` succeeds; only whether it has been called is kept.
-/

namespace LearningNotes.Signals

/-- The places in `abort`. -/
inductive Place where
  | query
  | reset
  | flush
  | unblock
  | kill
  | killed
  | flushAgain
  | default
  | unblockAgain
  | killAgain
  | killedAgain
  | exit
  deriving DecidableEq, Repr

/-- How far `abort` is. -/
def Place.rank : Place → Nat
  | query => 0
  | reset => 1
  | flush => 2
  | unblock => 3
  | kill => 4
  | killed => 5
  | flushAgain => 6
  | default => 7
  | unblockAgain => 8
  | killAgain => 9
  | killedAgain => 10
  | exit => 11

/-- The variables of `abort`, and its place. -/
structure Aborting (H : Type) where
  pc : Place
  /-- `action.sa_handler` -/
  sa_handler : Disposition H
  flushed : Bool

variable {S H : Type} [DecidableEq S]

/-- A process that calls `abort`. -/
abbrev Aborter (S H : Type) := Process S H (Aborting H)

/-- `sigfillset(&mask)` and `sigdelset(&mask, SIGABRT)` -/
def allBut (ABRT : S) : S → Bool := fun s => s ≠ ABRT

variable (ABRT : S)

/-- A signal has to be delivered before `kill` returns. -/
def inKill (p : Aborter S H) : Prop := p.pending ABRT = true ∧ p.mask ABRT = false

instance (p : Aborter S H) : Decidable (inKill ABRT p) :=
  inferInstanceAs (Decidable (_ ∧ _))

/-- `abort`; `handler` is what the caught signal's function does. -/
def abort (handler : H → S → (S → Disposition H) → S → Disposition H) :
    Program S H (Aborting H) where
  handle h s d action := (d, handler h s action)
  step p :=
    let d := p.data
    match d.pc with
    | .query =>
      let pc :=
        match p.action ABRT with
        | .ign => .reset
        | _ => .flush
      some { p with data := { d with sa_handler := p.action ABRT, pc } }
    | .reset =>
      some { p with
        action := Function.update p.action ABRT .dfl
        data := { d with sa_handler := .dfl, pc := .flush } }
    | .flush =>
      let flushed :=
        match d.sa_handler with
        | .dfl => true
        | _ => d.flushed
      some { p with data := { d with flushed, pc := .unblock } }
    | .unblock => some { p with mask := allBut ABRT, data := { d with pc := .kill } }
    | .kill => some { p.raise ABRT with data := { d with pc := .killed } }
    | .killed => if inKill ABRT p then none else some { p with data := { d with pc := .flushAgain } }
    | .flushAgain => some { p with data := { d with flushed := true, pc := .default } }
    | .default =>
      some { p with
        action := Function.update p.action ABRT .dfl
        data := { d with sa_handler := .dfl, pc := .unblockAgain } }
    | .unblockAgain => some { p with mask := allBut ABRT, data := { d with pc := .killAgain } }
    | .killAgain => some { p.raise ABRT with data := { d with pc := .killedAgain } }
    | .killedAgain => if inKill ABRT p then none else some { p with data := { d with pc := .exit } }
    | .exit => none

variable {ABRT} {handler : H → S → (S → Disposition H) → S → Disposition H}
  {p₀ p p' : Aborter S H} {e : Event S}

/-- What is kept. -/
structure Aborts (ABRT : S) (p : Aborter S H) : Prop where
  waiting : p.waiting = none
  mask : Place.unblock.rank < p.data.pc.rank → p.mask = allBut ABRT
  action : Place.default.rank < p.data.pc.rank → p.action ABRT = .dfl
  pending : p.data.pc = .killedAgain → p.pending ABRT = true
  noExit : p.data.pc ≠ .exit
  flushed : Place.flush.rank < p.data.pc.rank → p.data.sa_handler = .dfl ∨
    Place.flushAgain.rank < p.data.pc.rank → p.data.flushed = true
  ended : ∀ s, p.ended = some s → Place.unblock.rank < p.data.pc.rank → s = ABRT

/-- Before the call. -/
theorem Aborts.start (hpc : p₀.data.pc = .query) (hw : p₀.waiting = none) : Aborts ABRT p₀ := by
  constructor <;> simp [hpc, hw, Place.rank]

/-- Each step goes forward. -/
theorem Aborts.step (h : Aborts ABRT p) (hend : p.ended = none)
    (hs : (abort ABRT handler).step p = some p') :
    Aborts ABRT p' ∧ p.data.pc.rank < p'.data.pc.rank := by
  obtain ⟨hw, hmask, haction, hpending, hexit, hflushed, hended⟩ := h
  unfold abort at hs
  cases hpc : p.data.pc
  case exit => simp [hpc] at hs
  case killedAgain =>
    have hin : inKill ABRT p := by simp_all [inKill, Place.rank, allBut]
    simp [hpc, hin] at hs
  case query =>
    simp only [hpc, Option.some.injEq] at hs
    subst hs
    refine ⟨?_, by cases p.action ABRT <;> simp [Place.rank]⟩
    constructor <;> cases p.action ABRT <;> simp_all [Place.rank]
  case flush =>
    simp only [hpc, Option.some.injEq] at hs
    subst hs
    refine ⟨?_, by simp [Place.rank]⟩
    constructor <;> cases hd : p.data.sa_handler <;> simp_all [Place.rank]
  case killed =>
    simp only [hpc] at hs
    split at hs
    next => cases hs
    next =>
      cases hs
      refine ⟨?_, by simp [Place.rank]⟩
      constructor <;> simp_all [Place.rank]
  all_goals
    simp only [hpc, Option.some.injEq] at hs
    subst hs
    refine ⟨?_, by simp [Place.rank]⟩
    constructor <;> simp_all [Place.rank, Process.raise]

/-- Behind `sigprocmask` only `SIGABRT` comes. -/
theorem Aborts.only (h : Aborts ABRT p) {s : S} (hm : p.mask s = false)
    (hpc : Place.unblock.rank < p.data.pc.rank) : s = ABRT := by
  simpa [h.mask hpc, allBut] using hm

/-- And when its action has been reset, it ends the process. -/
theorem Aborts.reset (h : Aborts ABRT p) {s : S} (hm : p.mask s = false) (ha : p.action s ≠ .dfl) :
    ¬ Place.default.rank < p.data.pc.rank := by
  intro hpc
  obtain rfl := h.only hm (Nat.lt_trans (by decide) hpc)
  exact ha (h.action hpc)

/-- No event goes back. -/
theorem Aborts.act (h : Aborts ABRT p) (hact : act (abort ABRT handler) e p = some p') :
    Aborts ABRT p' ∧ p.data.pc.rank + [e].count .step ≤ p'.data.pc.rank := by
  obtain ⟨hend, hh⟩ := act_cases hact
  clear hact
  cases hh with
  | step hw hs => exact h.step hend hs
  | raise s =>
    refine ⟨⟨h.waiting, h.mask, h.action, fun hpc => ?_, h.noExit, h.flushed, h.ended⟩, ?_⟩
    · simp [Process.raise, Function.update_apply, h.pending hpc]
    · simp [Process.raise]
  | ends hp hm ha =>
    refine ⟨⟨h.waiting, h.mask, h.action, h.pending, h.noExit, h.flushed, fun s he hpc => ?_⟩, ?_⟩
    · exact Option.some.inj he ▸ h.only hm hpc
    · simp
  | drop hp hm ha =>
    have hr := h.reset hm (by simp [ha])
    refine ⟨⟨h.waiting, h.mask, h.action, fun hpc => ?_, h.noExit, h.flushed, h.ended⟩, ?_⟩
    · exact absurd (by rw [show p.data.pc = _ from hpc]; decide) hr
    · simp [Process.drop]
  | caught hp hm ha =>
    have hr := h.reset hm (by simp [ha])
    refine ⟨⟨rfl, fun hpc => ?_, fun hpc => absurd hpc hr, fun hpc => ?_, h.noExit, h.flushed,
      h.ended⟩, ?_⟩
    · simpa [Process.caught, h.waiting] using h.mask hpc
    · exact absurd (by rw [show p.data.pc = _ from hpc]; decide) hr
    · simp [Process.caught, abort]

/-- Nor does a row of them. -/
theorem Aborts.perform (h : Aborts ABRT p) {es : List (Event S)}
    (hp : perform (Signals.act (abort ABRT handler)) es p = some p') :
    Aborts ABRT p' ∧ p.data.pc.rank + es.count .step ≤ p'.data.pc.rank := by
  induction es generalizing p with
  | nil =>
    cases hp
    exact ⟨h, by simp⟩
  | cons e es ih =>
    obtain ⟨p₁, h₁, h₂⟩ := Option.bind_eq_some_iff.mp hp
    obtain ⟨ha, hle⟩ := h.act h₁
    obtain ⟨ha', hle'⟩ := ih ha h₂
    have hcount : (e :: es).count .step = [e].count .step + es.count .step := by
      rw [← List.count_append]
      rfl
    exact ⟨ha', by omega⟩

/-- It can always go on, or `SIGABRT` is to be delivered. -/
theorem Aborts.goes (h : Aborts ABRT p) (hend : p.ended = none) :
    (Signals.act (abort ABRT handler) .step p).isSome ∨
      (Signals.act (abort ABRT handler) (.deliver ABRT) p).isSome := by
  by_cases hin : inKill ABRT p
  · right
    obtain ⟨hp, hm⟩ := hin
    cases ha : p.action ABRT <;> simp [Signals.act, Process.deliver, hend, hp, hm, ha]
  · left
    rw [act_step hend h.waiting]
    have hexit := h.noExit
    cases hpc : p.data.pc <;> simp_all [abort]

/-- `abort` makes at most ten steps, does not come to `exit(1)`, and has always something left to do
until a signal ends the process. Once the other signals are blocked that is `SIGABRT`, and then the
streams have been flushed, unless `abort` has found a handler for it and not yet come back from it. -/
theorem abort_ends (hpc : p₀.data.pc = .query) (hw : p₀.waiting = none) {es : List (Event S)}
    (h : perform (act (abort ABRT handler)) es p₀ = some p) :
    p.data.pc ≠ .exit ∧ es.count .step ≤ 10 ∧
    (p.ended = none → (act (abort ABRT handler) .step p).isSome ∨
      (act (abort ABRT handler) (.deliver ABRT) p).isSome) ∧
    (Place.unblock.rank < p.data.pc.rank →
      (∀ s, p.ended = some s → s = ABRT) ∧ (p.data.sa_handler = .dfl → p.data.flushed = true)) := by
  obtain ⟨ha, hle⟩ := (Aborts.start hpc hw).perform h
  refine ⟨ha.noExit, ?_, ha.goes, fun hlt => ⟨fun s hs => ha.ended s hs hlt, fun hd => ?_⟩⟩
  · have hexit := ha.noExit
    have hrank : p.data.pc.rank ≤ 10 := by cases hp : p.data.pc <;> simp_all [Place.rank]
    omega
  · exact ha.flushed (Nat.lt_trans (by decide) hlt) (.inl hd)

/-- A process that catches `SIGABRT`, which is 6, and then goes on. -/
def returning : Aborter Nat Unit where
  data := ⟨.query, .dfl, false⟩
  action s := if s = 6 then .catch () else .dfl
  mask _ := false
  pending _ := false
  waiting := none
  ended := none

/-- A run to the end. -/
def toTheEnd : List (Event Nat) :=
  [.step, .step, .step, .step, .deliver 6, .step, .step, .step, .step, .step, .deliver 6]

/-- `SIGABRT` is caught, and `abort` goes on when the handler returns. -/
theorem abort_ends_caught :
    ∃ p, perform (act (abort 6 fun _ _ action => action)) toTheEnd returning = some p ∧
      p.data.pc ≠ .exit := by
  obtain ⟨p, hp⟩ := Option.isSome_iff_exists.1
    (show (perform (act (abort 6 fun _ _ action => action)) toTheEnd returning).isSome by decide)
  exact ⟨p, hp, (abort_ends rfl rfl hp).1⟩

end LearningNotes.Signals
