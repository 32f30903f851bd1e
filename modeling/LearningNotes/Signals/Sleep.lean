import LearningNotes.Lib.Signals

/-!
# `sleep.c`, `sleep1.c` and `sleep2.c`

Three ways to wait for an alarm. `sleep1` may see the alarm before it calls `pause` and then waits
for ever; `sleep2` leaves its place by `longjmp` wherever the alarm finds it; `sleep` keeps `SIGALRM`
blocked but in `sigsuspend`. None of the three waits for ever because of another signal, but
`sleep` may be left with a pending `SIGALRM`, when another signal has ended the wait: it then comes
when the caller's own action for it is back (`sleep_ends_iff`).

Mirroring notes:
- `signal`, `alarm` and the other calls succeed. At the start no alarm is set and no `SIGALRM` pending.
- The caller's handlers return, and leave the dispositions as they are.
- `setjmp` is at the beginning: `longjmp` goes to the `alarm(0)` behind it, also after the end, where it
  may do anything.
- `pause` is `sigsuspend` with the mask there is.
-/

namespace LearningNotes.Signals

/-- The call a program makes next. -/
inductive Pc where
  | sigaction
  | block
  | alarm
  | suspend
  | cancel
  | restoreAct
  | restoreMask
  | done
  deriving DecidableEq, Repr

variable {S H : Type} [DecidableEq S]

/-- The handlers: the caller's, and `sig_alrm`. -/
abbrev Handler (H : Type) := Option H

/-- `sig_alrm` does nothing but return. -/
def sig_alrm : Handler H := none

/-- The variables of the function, its place and the timer. -/
structure Sleeping (S H : Type) where
  pc : Pc
  /-- the alarm clock runs -/
  timer : Bool
  oldact : Disposition (Handler H)
  oldmask : S → Bool

/-- A process that calls the function. -/
abbrev Sleeper (S H : Type) := Process S (Handler H) (Sleeping S H)

/-- The set with `SIGALRM`. -/
def blocked (ALRM : S) (mask : S → Bool) : S → Bool := Function.update mask ALRM true

/-- The set without `SIGALRM`. -/
def unblocked (ALRM : S) (mask : S → Bool) : S → Bool := Function.update mask ALRM false

variable (ALRM : S) (seconds : Nat)

/-- `sigaction` of `SIGALRM`. -/
def setAction (a : Disposition (Handler H)) (p : Sleeper S H) : Sleeper S H :=
  { p with action := Function.update p.action ALRM a }

/-- `sleep` of the library. -/
def sleep : Program S (Handler H) (Sleeping S H) where
  handle _ _ d action := (d, action)
  step p :=
    let d := p.data
    match d.pc with
    | .sigaction =>
      some { setAction ALRM (.catch sig_alrm) p with
        data := { d with pc := .block, oldact := p.action ALRM } }
    | .block =>
      some { p with mask := blocked ALRM p.mask, data := { d with pc := .alarm, oldmask := p.mask } }
    | .alarm => some { p with data := { d with pc := .suspend, timer := seconds != 0 } }
    | .suspend =>
      some { p.suspend (unblocked ALRM d.oldmask) with data := { d with pc := .cancel } }
    | .cancel => some { p with data := { d with pc := .restoreAct, timer := false } }
    | .restoreAct => some { setAction ALRM d.oldact p with data := { d with pc := .restoreMask } }
    | .restoreMask => some { p with mask := d.oldmask, data := { d with pc := .done } }
    | .done => none

/-- The steps of `sleep1` and `sleep2`. -/
def pauseStep (p : Sleeper S H) : Option (Sleeper S H) :=
  let d := p.data
  match d.pc with
  | .sigaction => some { setAction ALRM (.catch sig_alrm) p with data := { d with pc := .alarm } }
  | .alarm => some { p with data := { d with pc := .suspend, timer := seconds != 0 } }
  | .suspend => some { p.suspend p.mask with data := { d with pc := .cancel } }
  | .cancel => some { p with data := { d with pc := .done, timer := false } }
  | _ => none

/-- `sleep1` -/
def sleep1 : Program S (Handler H) (Sleeping S H) where
  handle _ _ d action := (d, action)
  step := pauseStep ALRM seconds

/-- `sleep2` -/
def sleep2 : Program S (Handler H) (Sleeping S H) where
  -- `longjmp(env_alrm, 1)`
  handle h _ d action := (if h.isNone then { d with pc := .cancel } else d, action)
  step := pauseStep ALRM seconds

/-- Something happens to the process, or the time is over. -/
inductive Act (S : Type) where
  | event (e : Event S)
  | expire
  deriving DecidableEq

/-- `SIGALRM` is raised by the alarm clock only. -/
def OwnAlarm (a : Act S) (_ : Sleeper S H) : Prop :=
  a ≠ .event (.raise ALRM)

/-- What can happen: an event, or the timer expires. -/
def sleepAct (P : Program S (Handler H) (Sleeping S H)) : Act S → Sleeper S H → Option (Sleeper S H)
  | .event e, p => act P e p
  | .expire, p =>
    if p.ended = none ∧ p.data.timer = true then
      some { p.raise ALRM with data := { p.data with timer := false } }
    else none

/-- A caller of `sleep`. -/
structure Starts (p : Sleeper S H) : Prop where
  pc : p.data.pc = .sigaction
  timer : p.data.timer = false
  pending : p.pending ALRM = false
  waiting : p.waiting = none
  ended : p.ended = none

/-- The process waits, and nothing that it has asked for will end that: the time is over, and there is
no `SIGALRM` to be delivered. -/
def Hung (p : Sleeper S H) : Prop :=
  p.ended = none ∧ p.waiting.isSome ∧ p.data.timer = false ∧
    (p.pending ALRM = false ∨ p.mask ALRM = true)

/-! ## `sleep` -/

variable {ALRM} {seconds}

/-- The dispositions while `sleep` is before a call. -/
def actionAt (ALRM : S) (action : S → Disposition (Handler H)) : Pc → S → Disposition (Handler H)
  | .sigaction | .restoreMask | .done => action
  | _ => Function.update action ALRM (.catch sig_alrm)

/-- The mask, in `sigsuspend` or before a call. -/
def maskAt (ALRM : S) (mask : S → Bool) : Bool → Pc → S → Bool
  | true, _ => unblocked ALRM mask
  | false, .sigaction | false, .block | false, .done => mask
  | false, _ => blocked ALRM mask

/-- Another signal can end the wait: it is caught. -/
def Interrupts (ALRM : S) (p₀ : Sleeper S H) : Prop :=
  ∃ s, s ≠ ALRM ∧ p₀.mask s = false ∧ ∃ h, p₀.action s = .catch h

/-- What is kept, from the start `p₀` on. -/
structure Inv (ALRM : S) (seconds : Nat) (p₀ p : Sleeper S H) : Prop where
  action : p.action = actionAt ALRM p₀.action p.data.pc
  mask : p.mask = maskAt ALRM p₀.mask p.waiting.isSome p.data.pc
  waiting : ∀ m, p.waiting = some m → p.data.pc = .cancel ∧ m = blocked ALRM p₀.mask
  oldact : p.data.pc ≠ .sigaction → p.data.oldact = p₀.action ALRM
  oldmask : p.data.pc ≠ .sigaction → p.data.pc ≠ .block → p.data.oldmask = p₀.mask
  /-- The alarm comes once, and it is still to come until the wait is over. -/
  once : p.data.timer = true → p.pending ALRM = false
  armed : seconds ≠ 0 → p.data.pc = .suspend ∨ p.waiting.isSome →
    p.data.timer = true ∨ p.pending ALRM = true
  set : p.data.timer = true → p.data.pc = .suspend ∨ p.data.pc = .cancel
  zero : p.data.timer = true ∨ p.pending ALRM = true → seconds ≠ 0
  quiet : p.data.pc = .sigaction ∨ p.data.pc = .block ∨ p.data.pc = .alarm → p.pending ALRM = false
  late : p.data.timer = true ∨ p.pending ALRM = true → p.data.pc ≠ .suspend → p.waiting = none →
    Interrupts ALRM p₀
  ended : p.ended = some ALRM → p.data.pc = .done ∧ p.pending ALRM = true ∧ p.mask ALRM = false ∧
    p.action ALRM = .dfl

variable {p₀ p p' : Sleeper S H} {e : Event S}

/-- Before the call. -/
theorem Inv.start (h : Starts ALRM p₀) : Inv ALRM seconds p₀ p₀ := by
  obtain ⟨hpc, htimer, hpending, hwaiting, hended⟩ := h
  constructor <;> simp_all [actionAt, maskAt]

/-- A step of `sleep`. -/
theorem Inv.step (h : Inv ALRM seconds p₀ p) (hend : p.ended = none) (hw : p.waiting = none)
    (hs : (sleep ALRM seconds).step p = some p') : Inv ALRM seconds p₀ p' := by
  have haction := h.action
  have hmask := h.mask
  have holdact := h.oldact
  have holdmask := h.oldmask
  have honce := h.once
  have harmed := h.armed
  have hset := h.set
  have hzero := h.zero
  have hquiet := h.quiet
  have hlate := h.late
  unfold sleep at hs
  cases hpc : p.data.pc
  case done => simp [hpc] at hs
  all_goals
    simp only [hpc, Option.some.injEq] at hs
    subst hs
    constructor <;> simp_all [actionAt, maskAt, setAction, Process.suspend]

/-- Another signal comes. -/
theorem Inv.raise (h : Inv ALRM seconds p₀ p) {s : S} (hs : s ≠ ALRM) :
    Inv ALRM seconds p₀ (p.raise s) := by
  have hp : (p.raise s).pending ALRM = p.pending ALRM := Function.update_of_ne hs.symm ..
  exact ⟨h.action, h.mask, h.waiting, h.oldact, h.oldmask, hp ▸ h.once, hp ▸ h.armed, h.set, hp ▸ h.zero,
    hp ▸ h.quiet, hp ▸ h.late, hp ▸ h.ended⟩

/-- The timer expires. -/
theorem Inv.expire (h : Inv ALRM seconds p₀ p) (hend : p.ended = none) (ht : p.data.timer = true) :
    Inv ALRM seconds p₀ { p.raise ALRM with data := { p.data with timer := false } } := by
  have hp : (p.raise ALRM).pending ALRM = true := Function.update_self ..
  refine ⟨h.action, h.mask, h.waiting, h.oldact, h.oldmask, by simp, fun _ _ => .inr hp, by simp,
    fun _ => h.zero (.inl ht), fun hq => ?_, fun _ => h.late (.inl ht), fun he => ?_⟩
  · rcases h.set ht with hpc | hpc <;> simp [hpc] at hq
  · exact absurd (hend.symm.trans he) (by simp)

/-- A signal is not pending any more. -/
theorem Inv.drop (h : Inv ALRM seconds p₀ p) (hend : p.ended = none) {s : S}
    (hs : s = ALRM → p.data.pc ≠ .suspend ∧ p.waiting = none) : Inv ALRM seconds p₀ (p.drop s) := by
  by_cases he : s = ALRM
  · obtain ⟨hpc, hw⟩ := hs he
    subst he
    have hp : (p.drop s).pending s = false := Function.update_self ..
    have hor : p.data.timer = true ∨ (p.drop s).pending s = true → p.data.timer = true :=
      fun hc => hc.resolve_right (by simp [hp])
    exact ⟨h.action, h.mask, h.waiting, h.oldact, h.oldmask, fun _ => hp,
      fun _ hq => absurd hq (by simp [Process.drop, hpc, hw]), h.set, fun hq => h.zero (.inl (hor hq)),
      fun _ => hp, fun hq => h.late (.inl (hor hq)), fun he => absurd (hend.symm.trans he) (by simp)⟩
  · have hp : (p.drop s).pending ALRM = p.pending ALRM := Function.update_of_ne (Ne.symm he) ..
    exact ⟨h.action, h.mask, h.waiting, h.oldact, h.oldmask, hp ▸ h.once, hp ▸ h.armed, h.set,
      hp ▸ h.zero, hp ▸ h.quiet, hp ▸ h.late, hp ▸ h.ended⟩

/-- While `sig_alrm` is not the action for `SIGALRM`, nothing waits for it. -/
theorem Inv.idle (h : Inv ALRM seconds p₀ p) (ha : p.action ALRM ≠ .catch sig_alrm) :
    p.data.pc ≠ .suspend ∧ p.waiting = none := by
  have hcatch : p.data.pc = .suspend ∨ p.data.pc = .cancel → p.action ALRM = .catch sig_alrm := by
    rintro (hpc | hpc) <;> simp [h.action, hpc, actionAt]
  refine ⟨fun hpc => ha (hcatch (.inl hpc)), Option.eq_none_iff_forall_ne_some.2 fun m hm => ?_⟩
  exact ha (hcatch (.inr (h.waiting m hm).1))

/-- `SIGALRM` is delivered in `sigsuspend`, or when all is done. -/
theorem Inv.delivered (h : Inv ALRM seconds p₀ p) (hp : p.pending ALRM = true)
    (hm : p.mask ALRM = false) : p.waiting.isSome ∨ p.data.pc = .done := by
  by_cases hw : p.waiting.isSome = true
  · exact .inl hw
  · rw [h.mask, Bool.eq_false_iff.2 hw] at hm
    have hquiet := h.quiet
    rw [hp] at hquiet
    cases hpc : p.data.pc <;> simp [hpc] at hquiet <;> simp [hpc, maskAt, blocked] at hm ⊢

/-- A signal ends the process. -/
theorem Inv.ends (h : Inv ALRM seconds p₀ p) {s : S} (hp : p.pending s = true)
    (hm : p.mask s = false) (ha : p.action s = .dfl) :
    Inv ALRM seconds p₀ { p with ended := some s } := by
  refine ⟨h.action, h.mask, h.waiting, h.oldact, h.oldmask, h.once, h.armed, h.set, h.zero, h.quiet,
    h.late, fun he => ?_⟩
  obtain rfl : s = ALRM := Option.some.inj he
  refine ⟨(h.delivered hp hm).resolve_left fun hw => ?_, hp, hm, ha⟩
  rw [(h.idle (by simp [ha])).2] at hw
  cases hw

/-- A signal is caught. -/
theorem Inv.caught (h : Inv ALRM seconds p₀ p) (hend : p.ended = none) {s : S} {g : Handler H}
    (hp : p.pending s = true) (hm : p.mask s = false) (ha : p.action s = .catch g) :
    Inv ALRM seconds p₀ (p.caught (sleep ALRM seconds) g s) := by
  cases hw : p.waiting with
  | none =>
    have hsame : p.caught (sleep ALRM seconds) g s = p.drop s := by
      simp [Process.caught, sleep, Process.drop, hw]
    rw [hsame]
    refine h.drop hend fun he => ⟨fun hpc => ?_, hw⟩
    subst he
    rcases h.delivered hp hm with hd | hd
    · simp [hw] at hd
    · simp [hpc] at hd
  | some m =>
    obtain ⟨hpc, rfl⟩ := h.waiting m hw
    have hmask : p.mask = unblocked ALRM p₀.mask := by rw [h.mask, hw]; rfl
    have haction : p.action = Function.update p₀.action ALRM (.catch sig_alrm) := by
      rw [h.action, hpc]
      rfl
    have hcaught : p.caught (sleep ALRM seconds) g s =
        { p.drop s with mask := blocked ALRM p₀.mask, waiting := none } := by
      simp [Process.caught, sleep, Process.drop, hw]
    have hlater : p.data.timer = true ∨ (p.drop s).pending ALRM = true →
        s ≠ ALRM ∧ (p.data.timer = true ∨ p.pending ALRM = true) := by
      intro hl
      by_cases he : s = ALRM
      · subst he
        have htimer : p.data.timer ≠ true := fun ht => by simp [h.once ht] at hp
        simp [Process.drop, htimer] at hl
      · exact ⟨he, by simpa [Process.drop, Function.update_of_ne (Ne.symm he)] using hl⟩
    rw [hcaught]
    refine ⟨h.action, by simp [Process.drop, hpc, maskAt], by simp, h.oldact, h.oldmask, fun ht => ?_,
      by simp [Process.drop, hpc], h.set, fun hl => h.zero (hlater hl).2, by simp [Process.drop, hpc],
      fun hl _ _ => ?_, fun he => absurd (hend.symm.trans he) (by simp)⟩
    · have hpending := h.once ht
      simp [Process.drop, Function.update_apply, hpending]
    · have he := (hlater hl).1
      refine ⟨s, he, ?_, g, ?_⟩
      · simpa [hmask, unblocked, Function.update_of_ne he] using hm
      · simpa [haction, Function.update_of_ne he] using ha

/-- Anything that can happen. -/
theorem Inv.act {a : Act S} (h : Inv ALRM seconds p₀ p) (ho : OwnAlarm ALRM a p)
    (hact : sleepAct ALRM (sleep ALRM seconds) a p = some p') : Inv ALRM seconds p₀ p' := by
  cases a with
  | expire =>
    simp only [sleepAct] at hact
    split at hact
    next hc =>
      cases hact
      exact h.expire hc.1 hc.2
    next => cases hact
  | event e =>
    obtain ⟨hend, hh⟩ := act_cases hact
    clear hact
    cases hh with
    | step hw hs => exact h.step hend hw hs
    | raise s => exact h.raise fun he => ho (by rw [he])
    | ends hp hm ha => exact h.ends hp hm ha
    | drop hp hm ha => exact h.drop hend fun he => h.idle (by simp [← he, ha])
    | caught hp hm ha => exact h.caught hend hp hm ha

/-- In every run. -/
theorem sleep_inv (h : Starts ALRM p₀)
    (hr : Run (sleepAct ALRM (sleep ALRM seconds)) p₀ (OwnAlarm ALRM) p) : Inv ALRM seconds p₀ p :=
  hr.inv (.start h) fun _ _ _ _ ho ha hi => hi.act ho ha

/-- `SIGALRM` is raised when another signal has ended the wait, and comes at the end. -/
theorem sleep_ends (h : Starts ALRM p₀) (hs : seconds ≠ 0) (ha : p₀.action ALRM = .dfl)
    (hm : p₀.mask ALRM = false) (hi : Interrupts ALRM p₀) :
    ∃ p, Run (sleepAct ALRM (sleep ALRM seconds)) p₀ (OwnAlarm ALRM) p ∧ p.ended = some ALRM := by
  obtain ⟨hpc, htimer, hpending, hwaiting, hended⟩ := h
  obtain ⟨s, hne, hms, g, hg⟩ := hi
  let as : List (Act S) := [.event .step, .event .step, .event .step, .event .step, .event (.raise s),
    .event (.deliver s), .expire, .event .step, .event .step, .event .step, .event (.deliver ALRM)]
  have hrun : ∃ p, performIf (sleepAct ALRM (sleep ALRM seconds))
      (fun a _ => decide (a ≠ .event (.raise ALRM))) as p₀ = some p ∧ p.ended = some ALRM := by
    simp [as, performIf, sleepAct, act, sleep, setAction, Process.suspend, Process.raise, Process.deliver,
      Process.caught, Process.drop, blocked, unblocked, Function.update_of_ne, *]
  obtain ⟨p, hp, hend⟩ := hrun
  exact ⟨p, .of_performIf (fun _ _ hok => by simpa [OwnAlarm] using hok) hp, hend⟩

/-- After `sleep` the dispositions and the mask are the ones from before. `SIGALRM` ends the process
exactly when that was its action, and another signal can be caught before the time is over. -/
theorem sleep_ends_iff (h : Starts ALRM p₀) :
    (∀ p, Run (sleepAct ALRM (sleep ALRM seconds)) p₀ (OwnAlarm ALRM) p → p.data.pc = .done →
      p.action = p₀.action ∧ p.mask = p₀.mask) ∧
    ((∃ p, Run (sleepAct ALRM (sleep ALRM seconds)) p₀ (OwnAlarm ALRM) p ∧ p.ended = some ALRM) ↔
      seconds ≠ 0 ∧ p₀.action ALRM = .dfl ∧ p₀.mask ALRM = false ∧ Interrupts ALRM p₀) := by
  have hdone : ∀ p, Run (sleepAct ALRM (sleep ALRM seconds)) p₀ (OwnAlarm ALRM) p → p.data.pc = .done →
      p.action = p₀.action ∧ p.mask = p₀.mask ∧ p.waiting = none := by
    intro p hr hpc
    have hi := sleep_inv h hr
    have hw : p.waiting = none := by
      refine Option.eq_none_iff_forall_ne_some.2 fun m hm => ?_
      have hc := (hi.waiting m hm).1
      simp [hpc] at hc
    exact ⟨by rw [hi.action, hpc]; rfl, by rw [hi.mask, hpc, hw]; rfl, hw⟩
  refine ⟨fun p hr hpc => ⟨(hdone p hr hpc).1, (hdone p hr hpc).2.1⟩, ?_, ?_⟩
  · rintro ⟨p, hr, hend⟩
    have hi := sleep_inv h hr
    obtain ⟨hpc, hp, hm, ha⟩ := hi.ended hend
    obtain ⟨haction, hmask, hw⟩ := hdone p hr hpc
    exact ⟨hi.zero (.inr hp), haction ▸ ha, hmask ▸ hm, hi.late (.inr hp) (by simp [hpc]) hw⟩
  · rintro ⟨hs, ha, hm, hi⟩
    exact sleep_ends h hs ha hm hi

/-- `SIGALRM` is 14, and `SIGINT`, which is 2, is caught. -/
def interactive : Sleeper Nat Unit where
  data := ⟨.sigaction, false, .dfl, fun _ => false⟩
  action s := if s = 2 then .catch (some ()) else .dfl
  mask _ := false
  pending _ := false
  waiting := none
  ended := none

/-- The handler of `SIGINT` takes longer than `sleep`. -/
theorem sleep_ends_iff_int :
    ∃ p, Run (sleepAct 14 (sleep 14 5)) interactive (OwnAlarm 14) p ∧ p.ended = some 14 :=
  (sleep_ends_iff ⟨rfl, rfl, rfl, rfl, rfl⟩).2.2
    ⟨by decide, rfl, rfl, 2, by decide, rfl, some (), rfl⟩

/-! ## `sleep1` and `sleep2` -/

/-- The alarm comes before `pause`. -/
theorem sleep1_hangs (h : Starts ALRM p₀) (hs : seconds ≠ 0) (hm : p₀.mask ALRM = false) :
    ∃ p, Run (sleepAct ALRM (sleep1 ALRM seconds)) p₀ (OwnAlarm ALRM) p ∧ Hung ALRM p := by
  obtain ⟨hpc, htimer, hpending, hwaiting, hended⟩ := h
  let as : List (Act S) := [.event .step, .event .step, .expire, .event (.deliver ALRM), .event .step]
  have hrun : ∃ p, performIf (sleepAct ALRM (sleep1 ALRM seconds))
      (fun a _ => decide (a ≠ .event (.raise ALRM))) as p₀ = some p ∧ Hung ALRM p := by
    simp [as, performIf, sleepAct, act, sleep1, pauseStep, setAction, Process.suspend, Process.raise,
      Process.deliver, Process.caught, Process.drop, Hung, *]
  obtain ⟨p, hp, hh⟩ := hrun
  exact ⟨p, .of_performIf (fun _ _ hok => by simpa [OwnAlarm] using hok) hp, hh⟩

/-- While `SIGALRM` is blocked, `pause` waits for ever. -/
theorem pause_hangs {P : Program S (Handler H) (Sleeping S H)} (hP : P.step = pauseStep ALRM seconds)
    (h : Starts ALRM p₀) (hs : seconds ≠ 0) (hm : p₀.mask ALRM = true) :
    ∃ p, Run (sleepAct ALRM P) p₀ (OwnAlarm ALRM) p ∧ Hung ALRM p := by
  obtain ⟨hpc, htimer, hpending, hwaiting, hended⟩ := h
  let as : List (Act S) := [.event .step, .event .step, .expire, .event .step]
  have hrun : ∃ p, performIf (sleepAct ALRM P) (fun a _ => decide (a ≠ .event (.raise ALRM))) as p₀ =
      some p ∧ Hung ALRM p := by
    simp [as, performIf, sleepAct, act, pauseStep, setAction, Process.suspend, Process.raise, Hung, *]
  obtain ⟨p, hp, hh⟩ := hrun
  exact ⟨p, .of_performIf (fun _ _ hok => by simpa [OwnAlarm] using hok) hp, hh⟩

/-- What `sleep2` keeps when `SIGALRM` is not blocked at the start. -/
structure Jumps (ALRM : S) (p : Sleeper S H) : Prop where
  action : p.data.pc = .alarm ∨ p.data.pc = .suspend ∨ p.waiting.isSome →
    p.action ALRM = .catch sig_alrm
  mask : p.mask ALRM = false
  waiting : ∀ m, p.waiting = some m → p.data.pc = .cancel ∧ m ALRM = false
  armed : p.data.pc = .suspend ∨ p.waiting.isSome → p.data.timer = true ∨ p.pending ALRM = true

omit [DecidableEq S] in
/-- Before the call. -/
theorem Jumps.start (h : Starts ALRM p₀) (hm : p₀.mask ALRM = false) : Jumps ALRM p₀ := by
  obtain ⟨hpc, htimer, hpending, hwaiting, hended⟩ := h
  constructor <;> simp_all

/-- A step of `sleep2`. -/
theorem Jumps.step (h : Jumps ALRM p) (hs : seconds ≠ 0) (hw : p.waiting = none)
    (hp : (sleep2 ALRM seconds).step p = some p') : Jumps ALRM p' := by
  obtain ⟨haction, hmask, hwaiting, harmed⟩ := h
  unfold sleep2 pauseStep at hp
  cases hpc : p.data.pc <;> simp [hpc] at hp <;> subst hp <;>
    constructor <;> simp_all [setAction, Process.suspend]

/-- An ignored signal. -/
theorem Jumps.drop (h : Jumps ALRM p) {s : S} (hs : p.action s = .ign) : Jumps ALRM (p.drop s) := by
  refine ⟨h.action, h.mask, h.waiting, fun hq => ?_⟩
  have he : ALRM ≠ s := by
    rintro rfl
    rw [h.action (.inr hq)] at hs
    cases hs
  simpa [Process.drop, Function.update_of_ne he] using h.armed hq

/-- A signal is caught. -/
theorem Jumps.caught (h : Jumps ALRM p) {s : S} {g : Handler H} (hs : p.action s = .catch g) :
    Jumps ALRM (p.caught (sleep2 ALRM seconds) g s) := by
  have hmask : (p.waiting.getD p.mask) ALRM = false := by
    cases hw : p.waiting with
    | none => exact h.mask
    | some m => exact (h.waiting m hw).2
  cases g with
  | none => exact ⟨by simp [Process.caught, sleep2], hmask, by simp [Process.caught],
      by simp [Process.caught, sleep2]⟩
  | some g =>
    refine ⟨fun hq => ?_, hmask, by simp [Process.caught], fun hq => ?_⟩
    · have hpc : p.data.pc = .alarm ∨ p.data.pc = .suspend := by
        simpa [Process.caught, sleep2] using hq
      exact h.action (hpc.imp_right .inl)
    · have hpc : p.data.pc = .suspend := by simpa [Process.caught, sleep2] using hq
      have he : ALRM ≠ s := by
        rintro rfl
        rw [h.action (.inr (.inl hpc))] at hs
        cases hs
      simpa [Process.caught, sleep2, Process.drop, Function.update_of_ne he] using h.armed (.inl hpc)

/-- Anything that can happen. -/
theorem Jumps.act (h : Jumps ALRM p) (hs : seconds ≠ 0) {a : Act S}
    (hact : sleepAct ALRM (sleep2 ALRM seconds) a p = some p') : Jumps ALRM p' := by
  cases a with
  | expire =>
    simp only [sleepAct] at hact
    split at hact
    next hc =>
      cases hact
      exact ⟨h.action, h.mask, h.waiting, fun _ => .inr (by simp [Process.raise])⟩
    next => cases hact
  | event e =>
    obtain ⟨hend, hh⟩ := act_cases hact
    clear hact
    cases hh with
    | step hw hp => exact h.step hs hw hp
    | raise s =>
      refine ⟨h.action, h.mask, h.waiting, fun hq => (h.armed hq).imp_right fun hp => ?_⟩
      simp [Process.raise, Function.update_apply, hp]
    | ends => exact ⟨h.action, h.mask, h.waiting, h.armed⟩
    | drop hp hm ha => exact h.drop ha
    | caught hp hm ha => exact h.caught ha

/-- `sleep` never waits for ever, `sleep1` may do so, and `sleep2` only where `SIGALRM` is blocked. -/
theorem hangs_iff (h : Starts ALRM p₀) (hs : seconds ≠ 0) :
    (¬ ∃ p, Run (sleepAct ALRM (sleep ALRM seconds)) p₀ (OwnAlarm ALRM) p ∧ Hung ALRM p) ∧
    (∃ p, Run (sleepAct ALRM (sleep1 ALRM seconds)) p₀ (OwnAlarm ALRM) p ∧ Hung ALRM p) ∧
    ((∃ p, Run (sleepAct ALRM (sleep2 ALRM seconds)) p₀ (OwnAlarm ALRM) p ∧ Hung ALRM p) ↔
      p₀.mask ALRM = true) := by
  refine ⟨?_, ?_, ?_, pause_hangs rfl h hs⟩
  · rintro ⟨p, hr, -, hw, ht, hp⟩
    have hi := sleep_inv h hr
    rcases hp with hp | hm
    · rcases hi.armed hs (.inr hw) with hc | hc <;> simp_all
    · rw [hi.mask, hw] at hm
      simp [maskAt, unblocked] at hm
  · cases hm : p₀.mask ALRM with
    | true => exact pause_hangs rfl h hs hm
    | false => exact sleep1_hangs h hs hm
  · rintro ⟨p, hr, -, hw, ht, hp⟩
    by_contra hm
    have hi : Jumps ALRM p :=
      hr.inv (.start h (by simpa using hm)) fun _ _ _ _ _ ha hi => hi.act hs ha
    rcases hp with hp | hp
    · rcases hi.armed (.inr hw) with hc | hc <;> simp_all
    · simp [hi.mask] at hp

/-- `SIGALRM` is not blocked, so `sleep2` does not hang. -/
theorem hangs_iff_int :
    ¬ ∃ p, Run (sleepAct 14 (sleep2 14 5)) interactive (OwnAlarm 14) p ∧ Hung 14 p := by
  rw [(hangs_iff ⟨rfl, rfl, rfl, rfl, rfl⟩ (by decide)).2.2]
  decide

end LearningNotes.Signals
