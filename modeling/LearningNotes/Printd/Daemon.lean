import LearningNotes.Printd.Source

/-!
# The daemon

The threads of the daemon together, in any interleaving of their steps, with the spool directory
they work on. The daemon may be terminated at any point, and started again; all that is left
then is what is in the spool.

`Reach C` are the states that the steps lead to from an empty spool, as far as each step meets
the condition `C`.
-/

namespace LearningNotes.Printd

/-- The local state of a thread. -/
@[reducible] def Local : Who → Type
  | .main => Main
  | .printer => Printer
  | .client _ => Client × Conn

/-- A step of a thread. -/
def threadStep : (w : Who) → Local w → Sys → Ans → Option (Option (Local w) × Sys)
  | .main, l, s, a => (mainThread l s a).map fun (l', s') => (some l', s')
  | .printer, l, s, a => (printerThread l s a).map fun (l', s') => (some l', s')
  | .client t, (c, k), s, a =>
    (clientThread (.client t) c k s a).map fun (c', k', s') => (c'.map fun c' => (c', k'), s')

/-- A running daemon. -/
structure Proc where
  mem : Mem
  threads : (w : Who) → Option (Local w)

/-- The spool, what the world has seen, and the daemon, if it is running. -/
structure Daemon where
  spool : Spool
  out : List Out
  proc : Option Proc

/-- What the threads of the daemon share. -/
def Daemon.sys (d : Daemon) (p : Proc) : Sys := ⟨d.spool, p.mem, d.out⟩

/-- What happens next. -/
inductive Event where
  | start
  | kill
  /-- The main thread accepts a connection; `t` is the new thread. -/
  | accept (t : Nat) (k : Conn)
  | run (w : Who) (a : Ans)

/-- The threads when `init_request` is done. -/
def firstThreads : (w : Who) → Option (Local w)
  | .main => some Main.opendir
  | .printer => some Printer.lock
  | .client _ => none

/-- One event. -/
def step (d : Daemon) : Event → Option Daemon
  | .start =>
    match d.proc with
    | none => some { d with proc := some ⟨initRequest d.spool, firstThreads⟩ }
    | some _ => none
  | .kill =>
    match d.proc with
    | none => none
    | some _ => some { d with proc := none }
  | .accept t k =>
    match d.proc with
    | none => none
    | some p =>
      -- the main thread is in `accept`, and there is no thread `t` yet
      match p.threads .main, p.threads (.client t) with
      | some .accept, none =>
        let threads := Function.update p.threads (.client t) (some (Client.header [], k))
        some { d with proc := some { p with threads := threads } }
      | _, _ => none
  | .run w a =>
    match d.proc with
    | none => none
    | some p =>
      match p.threads w with
      | none => none
      | some l =>
        match threadStep w l ⟨d.spool, p.mem, d.out⟩ a with
        | none => none
        | some (l', s) =>
          some ⟨s.spool, s.out, some ⟨s.mem, Function.update p.threads w l'⟩⟩

/-- What an event does to the daemon, if it is running. -/
theorem step_cases {d d' : Daemon} {e : Event} (h : step d e = some d') :
    (e = .start ∧ d.proc = none ∧
      d' = { d with proc := some ⟨initRequest d.spool, firstThreads⟩ }) ∨
    (e = .kill ∧ (∃ p, d.proc = some p) ∧ d' = { d with proc := none }) ∨
    (∃ t k p, e = .accept t k ∧ d.proc = some p ∧ p.threads .main = some .accept ∧
      p.threads (.client t) = none ∧ d' = { d with proc := some { p with
        threads := Function.update p.threads (.client t) (some (Client.header [], k)) } }) ∨
    (∃ w a p l l' s, e = .run w a ∧ d.proc = some p ∧ p.threads w = some l ∧
      threadStep w l ⟨d.spool, p.mem, d.out⟩ a = some (l', s) ∧
      d' = ⟨s.spool, s.out, some ⟨s.mem, Function.update p.threads w l'⟩⟩) := by
  cases e with
  | start =>
    simp only [step] at h
    split at h
    · next hp =>
      cases h
      exact Or.inl ⟨rfl, hp, rfl⟩
    · exact absurd h (by simp)
  | kill =>
    simp only [step] at h
    split at h
    · exact absurd h (by simp)
    · next p hp =>
      cases h
      exact Or.inr (Or.inl ⟨rfl, ⟨p, hp⟩, rfl⟩)
  | accept t k =>
    simp only [step] at h
    split at h
    · exact absurd h (by simp)
    · next p hp =>
      split at h
      · next hm ht =>
        cases h
        exact Or.inr (Or.inr (Or.inl ⟨t, k, p, rfl, hp, hm, ht, rfl⟩))
      · exact absurd h (by simp)
  | run w a =>
    simp only [step] at h
    split at h
    · exact absurd h (by simp)
    · next p hp =>
      split at h
      · exact absurd h (by simp)
      · next l hl =>
        split at h
        · exact absurd h (by simp)
        · next l' s hs =>
          cases h
          exact Or.inr (Or.inr (Or.inr ⟨w, a, p, l, l', s, rfl, hp, hl, hs, rfl⟩))

/-- An empty spool. -/
def Daemon.fresh : Daemon := ⟨⟨[], [], []⟩, [], none⟩

/-- The states that are reached by steps that meet the condition. -/
inductive Reach (C : Daemon → Event → Prop) : Daemon → Prop where
  | fresh : Reach C Daemon.fresh
  | step {d d' : Daemon} {e : Event} (h : Reach C d) (hc : C d e) (hs : step d e = some d') :
      Reach C d'

/-- A run of events. -/
def runs (d : Daemon) : List Event → Option Daemon
  | [] => some d
  | e :: es => (step d e).bind fun d' => runs d' es

theorem Reach.runs {C : Daemon → Event → Prop} {es : List Event} : ∀ {d d' : Daemon}, Reach C d →
    (∀ e ∈ es, ∀ d, C d e) → runs d es = some d' → Reach C d' := by
  induction es with
  | nil =>
    intro d d' h _ hr
    cases hr
    exact h
  | cons e es ih =>
    intro d d' h hc hr
    obtain ⟨d₁, hs, hr⟩ := Option.bind_eq_some_iff.mp hr
    exact ih (.step h (hc e List.mem_cons_self d) hs) (fun e he => hc e (List.mem_cons_of_mem _ he)) hr

/-- A request of zero bytes, and one byte of data. -/
def smallConn : Conn := ⟨List.replicate (REQSZ + 1) 0, []⟩

/-- A client thread receives a request and one byte of data, and accepts the job. -/
def submit (t : Nat) : List Event :=
  .accept t smallConn ::
    [.count REQSZ, .ok, .ok, .ok, .ok, .count 1, .ok, .eof, .ok, .ok, .ok].map (.run (.client t))

/-- The daemon starts and finds nothing in the spool. -/
def startEmpty : List Event := [.start, .run .main .ok, .run .main .eof]

/-! ## What is recorded -/

/-- A job that has been accepted, with the data that was in the spool then. -/
structure Accepted where
  jobid : Int
  req : PrintReq
  data : Option (List Byte)

/-- What one record does to the jobs that are not printed yet. -/
def Out.note (js : List Accepted) : Out → List Accepted
  | .accepted jobid req data => js ++ [⟨jobid, req, data⟩]
  | .printed jobid => js.filter (·.jobid ≠ jobid)
  | .numbered _ | .rejected _ => js

/-- The jobs that have been accepted and are not printed yet. -/
def unprinted (out : List Out) : List Accepted := out.foldl Out.note []

/-- How many numbers `get_newjobno` has returned. -/
def numbered (out : List Out) : Nat := out.countP fun o => o matches .numbered _

section History

variable {out : List Out} {i : Int} {req : PrintReq} {data : Option (List Byte)} {r : UInt32}
  {j : Accepted}

theorem unprinted_append (out : List Out) (o : Out) :
    unprinted (out ++ [o]) = o.note (unprinted out) := by
  unfold unprinted
  rw [List.foldl_append]
  rfl

@[simp] theorem unprinted_numbered : unprinted (out ++ [.numbered i]) = unprinted out :=
  unprinted_append ..

@[simp] theorem unprinted_rejected : unprinted (out ++ [.rejected r]) = unprinted out :=
  unprinted_append ..

theorem mem_unprinted_accepted : j ∈ unprinted (out ++ [.accepted i req data]) ↔
    j ∈ unprinted out ∨ j = ⟨i, req, data⟩ := by
  rw [unprinted_append]
  exact List.mem_append.trans (or_congr Iff.rfl List.mem_singleton)

theorem mem_unprinted_printed : j ∈ unprinted (out ++ [.printed i]) ↔
    j ∈ unprinted out ∧ j.jobid ≠ i := by
  rw [unprinted_append]
  simp [Out.note, List.mem_filter]

theorem numbered_append (out : List Out) (o : Out) :
    numbered (out ++ [o]) = numbered out + if o matches .numbered _ then 1 else 0 := by
  unfold numbered
  rw [List.countP_append, List.countP_singleton]

end History

end LearningNotes.Printd
