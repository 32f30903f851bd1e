import LearningNotes.Lib.Signals

/-!
# `system.c`

`system` runs a command in a child and waits for it. Meanwhile it ignores `SIGINT` and `SIGQUIT`, and
blocks `SIGCHLD`, so that a handler of the caller does not wait for the child first. The caller finds its
dispositions and its mask again, and the status is that of the child unless the caller ignores
`SIGCHLD`: then nobody can wait for it (`system_restores`).

Mirroring notes:
- The command is not null; `sigaction` and `sigprocmask` succeed. `fork` may fail.
- The caller's handlers return and leave the dispositions as they are. Only those for `SIGCHLD` may
  wait for children (`reaps`).
- A child that has not been waited for is a `zombie`, unless its end is ignored. `waitpid` fails with
  `EINTR` at any time, and with `ECHILD` when the child is gone.
- `runs` has the dispositions and the mask that the child has when it calls `execl`. The child may end
  at any time.
-/

namespace LearningNotes.Signals

/-- The signals `system` knows. -/
structure Names (S : Type) where
  INT : S
  QUIT : S
  CHLD : S
  int_ne_quit : INT ≠ QUIT
  int_ne_chld : INT ≠ CHLD
  quit_ne_chld : QUIT ≠ CHLD

/-- The call `system` makes next. -/
inductive Call where
  | ignoreInt
  | ignoreQuit
  | block
  | fork
  | waitpid
  | restoreInt
  | restoreQuit
  | restoreMask
  | done
  deriving DecidableEq, Repr

variable {S H : Type} [DecidableEq S]

/-- `zombie` and `gone` have the status the child has ended with. -/
inductive Child (S H : Type) where
  | none
  | runs (action : S → Disposition H) (mask : S → Bool)
  | zombie (status : Int)
  | gone (status : Int)

/-- The parent has waited for the child. -/
def Child.reap : Child S H → Child S H
  | .zombie status => .gone status
  | c => c

/-- The variables of `system`, its place and its child. -/
structure Calling (S H : Type) where
  pc : Call
  saveintr : Disposition H
  savequit : Disposition H
  savemask : S → Bool
  child : Child S H
  status : Int

/-- A process that calls `system`. -/
abbrev Caller (S H : Type) := Process S H (Calling S H)

variable (N : Names S) (reaps : H → Bool)

/-- The calls but for `fork`. -/
def system : Program S H (Calling S H) where
  handle h s d action :=
    (if s = N.CHLD ∧ reaps h = true then { d with child := d.child.reap } else d, action)
  step p :=
    let d := p.data
    match d.pc with
    | .ignoreInt =>
      some { p with
        action := Function.update p.action N.INT .ign
        data := { d with saveintr := p.action N.INT, pc := .ignoreQuit } }
    | .ignoreQuit =>
      some { p with
        action := Function.update p.action N.QUIT .ign
        data := { d with savequit := p.action N.QUIT, pc := .block } }
    | .block =>
      some { p with
        mask := Function.update p.mask N.CHLD true
        data := { d with savemask := p.mask, pc := .fork } }
    | .fork => none
    | .waitpid =>
      match d.child with
      | .zombie status => some { p with data := { d with child := .gone status, status, pc := .restoreInt } }
      -- `ECHILD`
      | .gone _ => some { p with data := { d with status := -1, pc := .restoreInt } }
      | _ => none
    | .restoreInt =>
      some { p with
        action := Function.update p.action N.INT d.saveintr
        data := { d with pc := .restoreQuit } }
    | .restoreQuit =>
      some { p with
        action := Function.update p.action N.QUIT d.savequit
        data := { d with pc := .restoreMask } }
    | .restoreMask => some { p with mask := d.savemask, data := { d with pc := .done } }
    | .done => none

/-- What the child has when it calls `execl`. -/
def childOf (p : Caller S H) : Child S H :=
  .runs (Function.update (Function.update p.action N.INT p.data.saveintr) N.QUIT p.data.savequit)
    p.data.savemask

/-- What becomes of the child when it ends. -/
def leftBy (a : Disposition H) (status : Int) : Child S H :=
  match a with
  | .ign => .gone status
  | _ => .zombie status

/-- Something happens to the process, `fork` returns, the child ends, or `waitpid` is interrupted. -/
inductive SystemAct (S : Type) where
  | event (e : Event S)
  | fork (ok : Bool)
  | exits (status : Int)
  | interrupt

/-- What can happen: an event, the answer of `fork`, an end of the child. -/
def systemAct : SystemAct S → Caller S H → Option (Caller S H)
  | .event e, p => act (system N reaps) e p
  | .fork ok, p =>
    if p.ended = none ∧ p.data.pc = .fork then
      some { p with data :=
        if ok then { p.data with child := childOf N p, pc := .waitpid }
        else { p.data with status := -1, pc := .restoreInt } }
    else none
  | .exits status, p =>
    match p.data.child with
    | .runs _ _ =>
      some { p.raise N.CHLD with data := { p.data with child := leftBy (p.action N.CHLD) status } }
    | _ => none
  | .interrupt, p => if p.ended = none ∧ p.data.pc = .waitpid then some p else none

/-- A caller of `system`. -/
structure Calls (p : Caller S H) : Prop where
  pc : p.data.pc = .ignoreInt
  child : p.data.child = .none
  waiting : p.waiting = none
  ended : p.ended = none

/-- The status `system` returns for a child that has ended with `status`. -/
def returned (a : Disposition H) (status : Int) : Int :=
  match a with
  | .ign => -1
  | _ => status

/-! ## What is kept -/

/-- The dispositions before a call. -/
def actionBefore (action : S → Disposition H) : Call → S → Disposition H
  | .ignoreInt | .restoreMask | .done => action
  | .ignoreQuit => Function.update action N.INT .ign
  | .block | .fork | .waitpid | .restoreInt =>
    Function.update (Function.update action N.INT .ign) N.QUIT .ign
  | .restoreQuit => Function.update action N.QUIT .ign

/-- The mask before a call. -/
def maskBefore (mask : S → Bool) : Call → S → Bool
  | .ignoreInt | .ignoreQuit | .block | .done => mask
  | _ => Function.update mask N.CHLD true

/-- The child before a call, and the status behind `waitpid`. -/
def childBefore (p₀ : Caller S H) (child : Child S H) (status : Int) : Call → Prop
  | .ignoreInt | .ignoreQuit | .block | .fork => child = .none
  | .waitpid =>
    child = .runs p₀.action p₀.mask ∨ ∃ st, child = leftBy (p₀.action N.CHLD) st
  | _ => child = .none ∧ status = -1 ∨
    ∃ st, child = .gone st ∧ status = returned (p₀.action N.CHLD) st

variable {N} {reaps} {p₀ p p' : Caller S H} {e : Event S}

/-- All that `system` has changed is known, and so can be put back. -/
structure Restores (N : Names S) (p₀ p : Caller S H) : Prop where
  action : p.action = actionBefore N p₀.action p.data.pc
  mask : p.mask = maskBefore N p₀.mask p.data.pc
  waiting : p.waiting = none
  saveintr : p.data.pc ≠ .ignoreInt → p.data.saveintr = p₀.action N.INT
  savequit : p.data.pc ≠ .ignoreInt → p.data.pc ≠ .ignoreQuit → p.data.savequit = p₀.action N.QUIT
  savemask : p.data.pc ≠ .ignoreInt → p.data.pc ≠ .ignoreQuit → p.data.pc ≠ .block →
    p.data.savemask = p₀.mask
  child : childBefore N p₀ p.data.child p.data.status p.data.pc
  ended : ∀ s, p.ended = some s → p.action s = .dfl

/-- Before the call. -/
theorem Restores.start (h : Calls p₀) : Restores N p₀ p₀ := by
  obtain ⟨hpc, hchild, hwaiting, hended⟩ := h
  constructor <;> simp [hpc, hchild, hwaiting, hended, actionBefore, maskBefore, childBefore]

/-- The disposition of `SIGINT` is put back. -/
theorem restore_int (N : Names S) (a : S → Disposition H) :
    Function.update (Function.update (Function.update a N.INT .ign) N.QUIT .ign) N.INT (a N.INT) =
      Function.update a N.QUIT .ign := by
  rw [Function.update_comm N.int_ne_quit, Function.update_idem, Function.update_comm N.int_ne_quit.symm,
    Function.update_eq_self]

omit [DecidableEq S] in
/-- The status of a child that is waited for. -/
theorem returned_of_zombie {a : Disposition H} {st st' : Int}
    (h : (.zombie st : Child S H) = leftBy a st') : returned a st = st := by
  cases a <;> cases h
  all_goals rfl

omit [DecidableEq S] in
/-- There is no child left to wait for. -/
theorem returned_of_gone {a : Disposition H} {st st' : Int}
    (h : (.gone st : Child S H) = leftBy a st') : returned a st = -1 := by
  cases a <;> cases h
  rfl

/-- A step of `system`. -/
theorem Restores.step (h : Restores N p₀ p) (hend : p.ended = none)
    (hs : (system N reaps).step p = some p') : Restores N p₀ p' := by
  obtain ⟨haction, hmask, hwaiting, hsaveintr, hsavequit, hsavemask, hchild, -⟩ := h
  unfold system at hs
  cases hpc : p.data.pc with
  | fork | done => simp [hpc] at hs
  | waitpid =>
    simp only [hpc] at hs
    split at hs
    next st hz =>
      cases hs
      have hret : returned (p₀.action N.CHLD) st = st := by
        rw [hpc, hz] at hchild
        obtain hruns | ⟨st', hl⟩ := hchild
        · cases hruns
        · exact returned_of_zombie hl
      constructor <;> simp_all [actionBefore, maskBefore, childBefore]
    next st hz =>
      cases hs
      have hret : returned (p₀.action N.CHLD) st = -1 := by
        rw [hpc, hz] at hchild
        obtain hruns | ⟨st', hl⟩ := hchild
        · cases hruns
        · exact returned_of_gone hl
      constructor <;> simp_all [actionBefore, maskBefore, childBefore]
    next => cases hs
  | ignoreInt | ignoreQuit | block | restoreMask =>
    simp only [hpc, Option.some.injEq] at hs
    subst hs
    constructor <;>
      simp_all [actionBefore, maskBefore, childBefore, Function.update_of_ne N.int_ne_quit.symm]
  | restoreInt =>
    simp only [hpc, Option.some.injEq] at hs
    subst hs
    constructor <;> simp_all [actionBefore, maskBefore, childBefore, restore_int]
  | restoreQuit =>
    simp only [hpc, Option.some.injEq] at hs
    subst hs
    constructor <;> simp_all [actionBefore, maskBefore, childBefore]

/-- While there is a child to wait for, `SIGCHLD` is blocked. -/
theorem Restores.reap (h : Restores N p₀ p) (hm : p.mask N.CHLD = false) :
    p.data.child.reap = p.data.child := by
  have hmask := h.mask
  have hchild := h.child
  cases hpc : p.data.pc with
  | waitpid =>
    simp [hmask, hpc, maskBefore] at hm
  | ignoreInt | ignoreQuit | block | fork =>
    rw [hpc] at hchild
    rw [show p.data.child = .none from hchild]
    rfl
  | restoreInt | restoreQuit | restoreMask | done =>
    rw [hpc] at hchild
    obtain ⟨hc, -⟩ | ⟨st, hc, -⟩ := hchild <;> rw [hc] <;> rfl

/-- Any event. -/
theorem Restores.act (h : Restores N p₀ p) (hact : act (system N reaps) e p = some p') :
    Restores N p₀ p' := by
  obtain ⟨hend, hh⟩ := act_cases hact
  clear hact
  cases hh with
  | step hw hs => exact h.step hend hs
  | raise s => exact ⟨h.action, h.mask, h.waiting, h.saveintr, h.savequit, h.savemask, h.child, h.ended⟩
  | ends hp hm ha =>
    refine ⟨h.action, h.mask, h.waiting, h.saveintr, h.savequit, h.savemask, h.child, fun s hs => ?_⟩
    exact Option.some.inj hs ▸ ha
  | drop hp hm ha =>
    exact ⟨h.action, h.mask, h.waiting, h.saveintr, h.savequit, h.savemask, h.child, h.ended⟩
  | @caught s handler hp hm ha =>
    have hdata : ((system N reaps).handle handler s p.data p.action).1 = p.data := by
      simp only [system]
      split
      next hr =>
        have hm := hr.1 ▸ hm
        rw [h.reap hm]
      next => rfl
    have hcaught : p.caught (system N reaps) handler s = p.drop s := by
      have hw := h.waiting
      simp only [Process.caught, hdata, hw, Option.getD_none, Process.drop]
      rfl
    rw [hcaught]
    exact ⟨h.action, h.mask, h.waiting, h.saveintr, h.savequit, h.savemask, h.child, h.ended⟩

/-- `fork`, whether it fails or not. -/
theorem Restores.fork (h : Restores N p₀ p) (hpc : p.data.pc = .fork) (hend : p.ended = none)
    (ok : Bool) : Restores N p₀ { p with data :=
      if ok then { p.data with child := childOf N p, pc := .waitpid }
      else { p.data with status := -1, pc := .restoreInt } } := by
  obtain ⟨haction, hmask, hwaiting, hsaveintr, hsavequit, hsavemask, hchild, -⟩ := h
  cases ok with
  | false => constructor <;> simp_all [actionBefore, maskBefore, childBefore]
  | true =>
    have hc : childOf N p = .runs p₀.action p₀.mask := by
      simp_all [childOf, actionBefore, restore_int]
    constructor <;> simp_all [actionBefore, maskBefore, childBefore]

/-- The child ends. -/
theorem Restores.exits (h : Restores N p₀ p) {a : S → Disposition H} {m : S → Bool}
    (hc : p.data.child = .runs a m) (status : Int) :
    Restores N p₀ { p.raise N.CHLD with
      data := { p.data with child := leftBy (p.action N.CHLD) status } } := by
  have hchild := h.child
  refine ⟨h.action, h.mask, h.waiting, h.saveintr, h.savequit, h.savemask, ?_, h.ended⟩
  have hpc : p.data.pc = .waitpid := by
    cases hpc : p.data.pc <;> simp_all [childBefore]
  have ha : p.action N.CHLD = p₀.action N.CHLD := by
    rw [h.action, hpc, actionBefore, Function.update_of_ne N.quit_ne_chld.symm,
      Function.update_of_ne N.int_ne_chld.symm]
  simp only [hpc, childBefore, ha]
  exact Or.inr ⟨status, rfl⟩

/-- Anything that can happen. -/
theorem Restores.systemAct (h : Restores N p₀ p) {a : SystemAct S}
    (hact : systemAct N reaps a p = some p') : Restores N p₀ p' := by
  cases a with
  | event e => exact h.act hact
  | fork ok =>
    simp only [Signals.systemAct] at hact
    split at hact
    next hc =>
      cases hact
      exact h.fork hc.2 hc.1 ok
    next => cases hact
  | exits status =>
    simp only [Signals.systemAct] at hact
    split at hact
    next hc =>
      cases hact
      exact h.exits hc status
    next => cases hact
  | interrupt =>
    simp only [Signals.systemAct] at hact
    split at hact
    next =>
      cases hact
      exact h
    next => cases hact

/-- `waitpid` returns when the child has ended. -/
theorem Restores.goes (h : Restores N p₀ p) (hpc : p.data.pc = .waitpid) (hend : p.ended = none)
    (hc : ∀ a m, p.data.child ≠ .runs a m) :
    (Signals.systemAct N reaps (.event .step) p).isSome := by
  have hchild := h.child
  rw [hpc] at hchild
  obtain hr | ⟨st, hl⟩ := hchild
  · exact absurd hr (hc _ _)
  · have hstep : Signals.systemAct N reaps (.event .step) p = (system N reaps).step p :=
      act_step hend h.waiting
    rw [hstep]
    cases ha : p₀.action N.CHLD <;> simp [system, hpc, hl, leftBy, ha]

/-- **`system` leaves no trace.** While it waits for the child `SIGINT` and `SIGQUIT` are ignored and
`SIGCHLD` is blocked; the child has the caller's dispositions and mask, and `waitpid` returns when it has
ended. When `system` is done the caller has its dispositions and its mask again, and no child is left;
the status is that of the child, or -1 when `fork` has failed or the caller ignores `SIGCHLD`. -/
theorem system_restores (h₀ : Calls p₀) (h : Run (systemAct N reaps) p₀ AnyStep p) :
    (p.data.pc = .waitpid →
      p.action N.INT = .ign ∧ p.action N.QUIT = .ign ∧ p.mask N.CHLD = true ∧
      (∀ a m, p.data.child = .runs a m → a = p₀.action ∧ m = p₀.mask) ∧
      (p.ended = none → (∀ a m, p.data.child ≠ .runs a m) →
        (systemAct N reaps (.event .step) p).isSome)) ∧
    (p.data.pc = .done → p.action = p₀.action ∧ p.mask = p₀.mask ∧
      (p.data.child = .none ∧ p.data.status = -1 ∨
        ∃ st, p.data.child = .gone st ∧ p.data.status = returned (p₀.action N.CHLD) st)) ∧
    ∀ s, p.ended = some s → p.action s = .dfl := by
  have hr : Restores N p₀ p := h.inv (Restores.start h₀) fun _ _ _ _ _ hs hi => hi.systemAct hs
  have haction := hr.action
  have hmask := hr.mask
  have hchild := hr.child
  refine ⟨fun hpc => ?_, fun hpc => ?_, hr.ended⟩
  · rw [hpc] at haction hmask hchild
    refine ⟨?_, ?_, ?_, fun a m hc => ?_, hr.goes hpc⟩
    · simp [haction, actionBefore, Function.update_of_ne N.int_ne_quit]
    · simp [haction, actionBefore]
    · simp [hmask, maskBefore]
    · rw [hc] at hchild
      obtain hrun | ⟨st, hl⟩ := hchild
      · cases hrun
        exact ⟨rfl, rfl⟩
      · cases ha : p₀.action N.CHLD <;> simp [leftBy, ha] at hl
  · rw [hpc] at haction hmask hchild
    exact ⟨haction, hmask, hchild⟩

/-- `SIGINT`, `SIGQUIT` and `SIGCHLD`. -/
def linux : Names Nat := ⟨2, 3, 17, by decide, by decide, by decide⟩

/-- A process whose handler for `SIGCHLD` waits for every child. -/
def reaping : Caller Nat Unit where
  data := ⟨.ignoreInt, .dfl, .dfl, fun _ => false, .none, 0⟩
  action s := if s = 17 then .catch () else .dfl
  mask _ := false
  pending _ := false
  waiting := none
  ended := none

/-- A run whose command fails, with an interrupted `waitpid`. -/
def commandFails : List (SystemAct Nat) :=
  [.event .step, .event .step, .event .step, .fork true, .exits 256, .interrupt, .event .step,
    .event .step, .event .step, .event .step, .event (.deliver 17)]

/-- A command that fails, and an interrupted `waitpid`. -/
theorem system_restores_fails :
    ∃ p, perform (systemAct linux fun _ => true) commandFails reaping = some p ∧
      (p.data.pc = .done → p.action = reaping.action) := by
  obtain ⟨p, hp⟩ := Option.isSome_iff_exists.1
    (show (perform (systemAct linux fun _ => true) commandFails reaping).isSome by decide)
  exact ⟨p, hp, fun hpc => ((system_restores ⟨rfl, rfl, rfl, rfl⟩ (Run.of_perform hp)).2.1 hpc).1⟩

end LearningNotes.Signals
