import LearningNotes.Printd.Files

/-!
# What the threads do to the spool

`Stage` is what a thread has to do with the files and the numbers of jobs, and `Act` lists all that
a step can do to them (`threadStep_act`). The queue appears here only as the set of jobs that are
in memory: a step that works on the queue, on locks or on the condition variable is `quiet`.
-/

namespace LearningNotes.Printd

/-- What a thread has to do with the spool. -/
inductive Stage where
  | none
  /-- a client thread is about to get a number -/
  | numbering
  /-- a client thread has a number -/
  | fresh (i : Int)
  /-- the data file is there -/
  | data (i : Int)
  /-- the control file is there too, and empty -/
  | control (i : Int) (req : PrintReq)
  /-- both files are complete -/
  | full (i : Int) (req : PrintReq)
  /-- the submission has failed, and its files are unlinked -/
  | undo (i : Int)
  /-- a job is handed to `add_job` -/
  | passing (job : Job)
  /-- the job has been printed, and its files are unlinked -/
  | printed (jp : Nat)
  /-- the counter is about to be written -/
  | update (buf : List Byte)
  /-- a request file is read -/
  | reading (name bytes : List Byte)
  /-- a request file is incomplete, and the files are unlinked -/
  | unlinking (name : List Byte)

/-- The number of the job that a client thread receives. -/
def Stage.jobid : Stage → Option Int
  | fresh i | data i | control i _ | full i _ | undo i => some i
  | _ => Option.none

/-- How far `add_job` has come with the entry. -/
def Adding.stage : Adding → Stage
  | .malloc job => .passing job
  | _ => .none

/-- How far a client thread has come with its job. -/
def Client.stage : Client → Stage
  | .jobUnlock _ i | .creatData _ i => .fresh i
  | .readData _ i _ _ | .writeData _ i _ _ | .creatReq _ i => .data i
  | .writeReq req i => .control i req
  | .reply req i => .full i req
  | .adding x => x.stage
  | .reject _ (.data i) | .reject _ (.both i) | .unlinkReq i | .unlinkData i => .undo i
  | .jobInc _ => .numbering
  | .header _ | .jobLock _ | .reject _ .nothing => .none

/-- How far the printer thread has come with its job. -/
def Printer.stage : Printer → Stage
  | .updateWrite _ buf => .update buf
  | .unlinkData jp | .unlinkReq jp => .printed jp
  | _ => .none

/-- How far the main thread has come with the directory. -/
def Main.stage : Main → Stage
  | .readReq _ name bytes => .reading name bytes
  | .unlinkReq _ name | .unlinkData _ name => .unlinking name
  | .adding _ x => x.stage
  | _ => .none

/-- The stage of a thread, if it exists. -/
def stageOf : (w : Who) → Option (Local w) → Stage
  | _, none => .none
  | .main, some l => Main.stage l
  | .printer, some l => Printer.stage l
  | .client _, some l => Client.stage l.1

/-- The stages of all threads. -/
def Proc.stage (p : Proc) (w : Who) : Stage := stageOf w (p.threads w)

/-- A thread may go on, ask for a number, give up its submission, or be through with it. -/
inductive Calm : Stage → Stage → Prop where
  | same (st : Stage) : Calm st st
  | ask : Calm .none .numbering
  | giveUp {st : Stage} {i : Int} (h : st.jobid = some i) : Calm st (.undo i)
  | through {st : Stage} {i : Int} (h : st.jobid = some i) : Calm st .none

/-- No new jobs are in memory. -/
structure Mem.Quiet (m m' : Mem) : Prop where
  nextjob : m'.nextjob = m.nextjob
  requeued : m'.requeued = m.requeued
  vals : Dlist.SameVals m.jobs.heap m'.jobs.heap

/-- All that a step can do to the spool, the counter and the record. -/
inductive Act (a : Ans) (s s' : Sys) : Stage → Stage → Prop where
  | quiet {st st' : Stage} (hst : Calm st st') (hspool : s'.spool = s.spool)
      (hout : s'.out = s.out ∨ ∃ r, s'.out = s.out ++ [.rejected r]) (hmem : s.mem.Quiet s'.mem) :
      Act a s s' st st'
  | malloc {job : Job} {b : Nat} (ha : a = .addr b) (hb : s.mem.jobs.heap b = Option.none)
      (h : s' = { s with mem.jobs.heap := s.mem.jobs.heap.set b ⟨Option.none, Option.none, job⟩ }) :
      Act a s s' (.passing job) .none
  | number (h : s' = { s with mem := s.mem.bumpJobno, out := s.out ++ [.numbered s.mem.nextjob] }) :
      Act a s s' .numbering (.fresh s.mem.nextjob)
  | creatData {i : Int} (h : s' = { s with spool.data := s.spool.data.set (fileName i) [] }) :
      Act a s s' (.fresh i) (.data i)
  | writeData {i : Int} {off : Nat} {bytes : List Byte} {st' : Stage}
      (hst : st' = .data i ∨ st' = .undo i)
      (h : s' = { s with spool.data := s.spool.data.write (fileName i) off bytes }) :
      Act a s s' (.data i) st'
  | creatReq {i : Int} {req : PrintReq}
      (h : s' = { s with spool.reqs := s.spool.reqs.set (fileName i) [] }) :
      Act a s s' (.data i) (.control i req)
  | writeReq {i : Int} {req : PrintReq}
      (h : s' = { s with spool.reqs := s.spool.reqs.write (fileName i) 0 req.bytes }) :
      Act a s s' (.control i req) (.full i req)
  | shortReq {i : Int} {req : PrintReq} {bytes : List Byte}
      (h : s' = { s with spool.reqs := s.spool.reqs.write (fileName i) 0 bytes }) :
      Act a s s' (.control i req) (.undo i)
  | accept {i : Int} {req : PrintReq}
      (h : s' = { s with out := s.out ++ [.accepted i req (s.spool.data.get (fileName i))] }) :
      Act a s s' (.full i req) (.passing ⟨i, req⟩)
  | undoReq {i : Int} (h : s' = { s with spool.reqs := s.spool.reqs.remove (fileName i) }) :
      Act a s s' (.undo i) (.undo i)
  | undoData {i : Int} (h : s' = { s with spool.data := s.spool.data.remove (fileName i) }) :
      Act a s s' (.undo i) .none
  | print {jp : Nat} {n : Node Job} (hn : s.mem.jobs.heap jp = some n)
      (h : s' = { s with out := s.out ++ [.printed n.val.jobid] }) : Act a s s' .none (.printed jp)
  | unlinkData {jp : Nat} {n : Node Job} (hn : s.mem.jobs.heap jp = some n)
      (h : s' = { s with spool.data := s.spool.data.remove (fileName n.val.jobid) }) :
      Act a s s' (.printed jp) (.printed jp)
  | unlinkReq {jp : Nat} {n : Node Job} (hn : s.mem.jobs.heap jp = some n)
      (h : s' = { s with spool.reqs := s.spool.reqs.remove (fileName n.val.jobid) }) :
      Act a s s' (.printed jp) .none
  | sprint (h : s' = s) : Act a s s' .none (.update (decimalInt s.mem.nextjob))
  | updateJobno {buf : List Byte}
      (h : s' = { s with spool.jobno := overwrite 0 s.spool.jobno 0 buf }) :
      Act a s s' (.update buf) .none
  | openReq {name bytes : List Byte} (hget : s.spool.reqs.get name = some bytes) (h : s' = s) :
      Act a s s' .none (.reading name bytes)
  | requeue {name bytes : List Byte} {req : PrintReq}
      (hreq : PrintReq.ofBytes (bytes.take REQSZ) = some req)
      (h : s' = { s with mem.requeued := s.mem.requeued ++ [⟨int32 (atol name), req⟩] }) :
      Act a s s' (.reading name bytes) (.passing ⟨int32 (atol name), req⟩)
  | broken {name bytes : List Byte}
      (hreq : PrintReq.ofBytes (bytes.take REQSZ) = Option.none ∨ ∃ e, a = .fail e) (h : s' = s) :
      Act a s s' (.reading name bytes) (.unlinking name)
  | brokenReq {name : List Byte} (h : s' = { s with spool.reqs := s.spool.reqs.remove name }) :
      Act a s s' (.unlinking name) (.unlinking name)
  | brokenData {name : List Byte} (h : s' = { s with spool.data := s.spool.data.remove name }) :
      Act a s s' (.unlinking name) .none

variable {w : Who} {s s' : Sys} {a : Ans} {m m' : Mem}

theorem Mem.Quiet.refl (m : Mem) : m.Quiet m := ⟨rfl, rfl, .refl _⟩

/-- Nothing has been done. -/
theorem Act.idle (a : Ans) (s : Sys) (st : Stage) : Act a s s st st :=
  .quiet (.same _) rfl (Or.inl rfl) (.refl _)

/-- The stage of `add_job`, or of what comes after it. -/
def addStage : Option Adding → Stage
  | none => .none
  | some x => x.stage

/-- What a step of `add_job` can change. -/
theorem addJob_act {x : Adding} {x' : Option Adding} (h : addJob w x s.mem a = some (x', m')) :
    Act a s { s with mem := m' } x.stage (addStage x') := by
  have hquiet : ∀ {m'}, s.mem.Quiet m' → Act a s { s with mem := m' } .none .none :=
    fun hm => .quiet (.same _) rfl (Or.inl rfl) hm
  unfold addJob at h
  split at h
  · split at h
    · next hb =>
      cases h
      exact .malloc rfl hb rfl
    · exact absurd h (by simp)
  · split at h
    · cases h
      exact hquiet ⟨rfl, rfl, .refl _⟩
    · exact absurd h (by simp)
  · split at h
    · next hpush =>
      cases h
      exact hquiet ⟨rfl, rfl, Dlist.pushBack_vals hpush⟩
    · exact absurd h (by simp)
  · cases h
    exact hquiet ⟨rfl, rfl, .refl _⟩
  · cases h
    exact hquiet ⟨rfl, rfl, .refl _⟩
  · exact absurd h (by simp)

/-- `add_job` passes the job on once. -/
theorem addJob_stage {x : Adding} {x' : Option Adding}
    (h : addJob w x m a = some (x', m')) : addStage x' = .none ∧ m'.requeued = m.requeued := by
  unfold addJob at h
  split at h
  · split at h
    · cases h
      exact ⟨rfl, rfl⟩
    · exact absurd h (by simp)
  · split at h
    · cases h
      exact ⟨rfl, rfl⟩
    · exact absurd h (by simp)
  · split at h
    · cases h
      exact ⟨rfl, rfl⟩
    · exact absurd h (by simp)
  · cases h
    exact ⟨rfl, rfl⟩
  · cases h
    exact ⟨rfl, rfl⟩
  · exact absurd h (by simp)

/-- The stage of a client thread, or of none. -/
def clientStage : Option Client → Stage
  | none => .none
  | some c => c.stage

/-- What a step of a client thread can change. -/
theorem clientThread_act {c : Client} {c' : Option Client} {k k' : Conn}
    (h : clientThread w c k s a = some (c', k', s')) :
    Act a s s' c.stage (clientStage c') := by
  cases c with
  | header got =>
    simp only [clientThread] at h
    split at h
    · exact absurd h (by simp)
    · cases h
      exact .idle ..
    · split at h
      · cases h
        exact .idle ..
      · split at h
        · cases h
          exact .idle ..
        · cases h
          exact .idle ..
  | jobLock req =>
    simp only [clientThread] at h
    split at h
    · cases h
      exact .quiet .ask rfl (Or.inl rfl) ⟨rfl, rfl, .refl _⟩
    · exact absurd h (by simp)
  | jobInc req =>
    cases h
    exact .number rfl
  | jobUnlock req jobid =>
    cases h
    exact .quiet (.same _) rfl (Or.inl rfl) ⟨rfl, rfl, .refl _⟩
  | creatData req jobid =>
    cases a with
    | ok =>
      cases h
      exact .creatData rfl
    | fail e =>
      cases h
      exact .quiet (.through rfl) rfl (Or.inl rfl) (.refl _)
    | _ => exact absurd h (by simp [clientThread])
  | readData req jobid first off =>
    simp only [clientThread] at h
    split at h
    · exact absurd h (by simp)
    · cases h
      exact .idle ..
    · split at h
      · cases h
        exact .idle ..
      · cases h
        exact .idle ..
  | writeData req jobid nr off =>
    simp only [clientThread] at h
    split at h
    · cases h
      exact .writeData (Or.inl rfl) rfl
    · split at h
      · cases h
        exact .writeData (Or.inr rfl) rfl
      · exact absurd h (by simp)
    · cases h
      exact .quiet (.giveUp rfl) rfl (Or.inl rfl) (.refl _)
    · exact absurd h (by simp)
  | creatReq req jobid =>
    cases a with
    | ok =>
      cases h
      exact .creatReq rfl
    | fail e =>
      cases h
      exact .quiet (.giveUp rfl) rfl (Or.inl rfl) (.refl _)
    | _ => exact absurd h (by simp [clientThread])
  | writeReq req jobid =>
    simp only [clientThread] at h
    split at h
    · cases h
      exact .writeReq rfl
    · split at h
      · cases h
        exact .shortReq rfl
      · exact absurd h (by simp)
    · cases h
      exact .quiet (.giveUp rfl) rfl (Or.inl rfl) (.refl _)
    · exact absurd h (by simp)
  | reply req jobid =>
    cases h
    exact .accept rfl
  | adding x =>
    obtain ⟨⟨x', m⟩, hx, he⟩ := Option.map_eq_some_iff.mp h
    cases he
    cases x' with
    | none => exact addJob_act hx
    | some x' => exact addJob_act hx
  | reject retcode u =>
    cases h
    cases u with
    | nothing => exact .quiet (.same _) rfl (Or.inr ⟨retcode, rfl⟩) (.refl _)
    | data jobid => exact .quiet (.same _) rfl (Or.inr ⟨retcode, rfl⟩) (.refl _)
    | both jobid => exact .quiet (.same _) rfl (Or.inr ⟨retcode, rfl⟩) (.refl _)
  | unlinkReq jobid =>
    cases h
    exact .undoReq rfl
  | unlinkData jobid =>
    cases h
    exact .undoData rfl

/-- What a step of the printer thread can change. -/
theorem printerThread_act {p p' : Printer} (h : printerThread p s a = some (p', s')) :
    Act a s s' p.stage p'.stage := by
  have hquiet : ∀ {m'}, s.mem.Quiet m' → Act a s { s with mem := m' } .none .none :=
    fun hm => .quiet (.same _) rfl (Or.inl rfl) hm
  cases p with
  | lock =>
    simp only [printerThread] at h
    split at h
    · cases h
      exact hquiet ⟨rfl, rfl, .refl _⟩
    · exact absurd h (by simp)
  | test =>
    simp only [printerThread] at h
    split at h
    · cases h
      exact hquiet ⟨rfl, rfl, .refl _⟩
    · split at h
      · exact absurd h (by simp)
      · next herase =>
        cases h
        exact hquiet ⟨rfl, rfl, Dlist.erase_vals herase⟩
  | waiting =>
    simp only [printerThread] at h
    split at h
    · split at h
      · exact absurd h (by simp)
      · cases h
        exact .idle ..
    · cases h
      exact hquiet ⟨rfl, rfl, .refl _⟩
    · exact absurd h (by simp)
  | woken =>
    simp only [printerThread] at h
    split at h
    · cases h
      exact hquiet ⟨rfl, rfl, .refl _⟩
    · exact absurd h (by simp)
  | unlock jp =>
    cases h
    exact hquiet ⟨rfl, rfl, .refl _⟩
  | update jp =>
    cases h
    exact .sprint rfl
  | updateWrite jp buf =>
    cases h
    exact .updateJobno rfl
  | openData jp =>
    simp only [printerThread] at h
    split at h
    · split at h
      · exact absurd h (by simp)
      · cases h
        exact .idle ..
    · cases h
      exact .idle ..
    · exact absurd h (by simp)
  | talk jp =>
    simp only [printerThread] at h
    split at h
    · next n hn =>
      cases h
      exact .print hn rfl
    · cases h
      exact .idle ..
    · exact absurd h (by simp)
  | unlinkData jp =>
    simp only [printerThread] at h
    split at h
    · exact absurd h (by simp)
    · next n hn =>
      cases h
      exact .unlinkData hn rfl
  | unlinkReq jp =>
    simp only [printerThread] at h
    split at h
    · exact absurd h (by simp)
    · next n hn =>
      cases h
      exact .unlinkReq hn rfl
  | free jp =>
    simp only [printerThread] at h
    split at h
    · exact absurd h (by simp)
    · next n hn =>
      cases h
      refine hquiet ⟨rfl, rfl, fun b n' hn' => ?_⟩
      by_cases hb : b = jp
      · subst hb
        exact absurd ((Heap.free_self ..).symm.trans hn') (by simp)
      · exact ⟨n', (Heap.free_of_ne hb).symm.trans hn', rfl⟩
  | deferLock jp =>
    simp only [printerThread] at h
    split at h
    · cases h
      exact hquiet ⟨rfl, rfl, .refl _⟩
    · exact absurd h (by simp)
  | deferLink jp =>
    simp only [printerThread] at h
    split at h
    · exact absurd h (by simp)
    · next hpush =>
      cases h
      exact hquiet ⟨rfl, rfl, Dlist.pushFront_vals hpush⟩
  | deferUnlock =>
    cases h
    exact hquiet ⟨rfl, rfl, .refl _⟩
  | sleep =>
    cases h
    exact .idle ..

/-- What a step of the main thread can change. -/
theorem mainThread_act {p p' : Main} (h : mainThread p s a = some (p', s')) :
    Act a s s' p.stage p'.stage := by
  cases p with
  | opendir => cases a <;> cases h <;> exact .idle ..
  | readdir seen =>
    simp only [mainThread] at h
    split at h
    · split at h
      · exact absurd h (by simp)
      · cases h
        exact .idle ..
    · split at h
      · cases h
        exact .idle ..
      · exact absurd h (by simp)
    · exact absurd h (by simp)
  | openReq seen name =>
    simp only [mainThread] at h
    split at h
    · next hget =>
      cases h
      exact .openReq hget rfl
    · cases h
      exact .idle ..
    · exact absurd h (by simp)
  | readReq seen name bytes =>
    simp only [mainThread] at h
    split at h
    · next hreq =>
      cases h
      exact .requeue hreq rfl
    · next hreq =>
      cases h
      exact .broken (Or.inl hreq) rfl
    · cases h
      exact .broken (Or.inr ⟨_, rfl⟩) rfl
    · exact absurd h (by simp)
  | unlinkReq seen name =>
    cases h
    exact .brokenReq rfl
  | unlinkData seen name =>
    cases h
    exact .brokenData rfl
  | adding seen x =>
    obtain ⟨⟨x', m⟩, hx, he⟩ := Option.map_eq_some_iff.mp h
    cases he
    cases x' with
    | none => exact addJob_act hx
    | some x' => exact addJob_act hx
  | accept => exact absurd h (by simp [mainThread])

/-- **Every step of a thread is one of the acts.** -/
theorem threadStep_act {l : Local w} {l' : Option (Local w)}
    (h : threadStep w l s a = some (l', s')) :
    Act a s s' (stageOf w (some l)) (stageOf w l') := by
  cases w with
  | main =>
    obtain ⟨⟨p', s''⟩, hp, he⟩ := Option.map_eq_some_iff.mp h
    cases he
    exact mainThread_act hp
  | printer =>
    obtain ⟨⟨p', s''⟩, hp, he⟩ := Option.map_eq_some_iff.mp h
    cases he
    exact printerThread_act hp
  | client t =>
    obtain ⟨c, k⟩ := l
    obtain ⟨⟨c', k', s''⟩, hc, he⟩ := Option.map_eq_some_iff.mp h
    cases he
    have hact := clientThread_act hc
    cases c' with
    | none => exact hact
    | some c' => exact hact

/-! What a step does not do. -/

section Effects

variable {st st' : Stage}

/-- A node that is allocated keeps its job. -/
theorem Act.vals (h : Act a s s' st st') {b : Nat} {n' : Node Job}
    (hb : s.mem.jobs.heap b ≠ none) (hn' : s'.mem.jobs.heap b = some n') :
    ∃ n, s.mem.jobs.heap b = some n ∧ n.val = n'.val := by
  cases h with
  | quiet _ _ _ hmem => exact hmem.vals b n' hn'
  | malloc _ hfree hs =>
    subst hs
    have hne : b ≠ _ := fun he => hb (he ▸ hfree)
    exact ⟨n', (Heap.set_of_ne _ hne).symm.trans hn', rfl⟩
  | number hs | creatData hs | creatReq hs | writeReq hs | shortReq hs | accept hs | undoReq hs
  | undoData hs | sprint hs | updateJobno hs | brokenReq hs | brokenData hs =>
    subst hs
    exact ⟨n', hn', rfl⟩
  | writeData _ hs | print _ hs | unlinkData _ hs | unlinkReq _ hs | openReq _ hs | requeue _ hs
  | broken _ hs =>
    subst hs
    exact ⟨n', hn', rfl⟩

/-- A node is new only if `malloc` has just answered its address. -/
theorem Act.allocated (h : Act a s s' st st') {b : Nat} {n' : Node Job}
    (hn' : s'.mem.jobs.heap b = some n') :
    s.mem.jobs.heap b ≠ none ∨ ∃ job, a = .addr b ∧ st = .passing job ∧ n'.val = job := by
  by_cases hb : s.mem.jobs.heap b = none
  · right
    cases h with
    | quiet _ _ _ hmem =>
      obtain ⟨n, hn, -⟩ := hmem.vals b n' hn'
      exact absurd (hb.symm.trans hn) (by simp)
    | @malloc job b' ha _ hs =>
      subst hs
      change s.mem.jobs.heap.set b' ⟨none, none, job⟩ b = some n' at hn'
      by_cases he : b = b'
      · subst he
        rw [Heap.set_self] at hn'
        cases hn'
        exact ⟨job, ha, rfl, rfl⟩
      · rw [Heap.set_of_ne _ he, hb] at hn'
        exact absurd hn' (by simp)
    | number hs | creatData hs | creatReq hs | writeReq hs | shortReq hs | accept hs | undoReq hs
    | undoData hs | sprint hs | updateJobno hs | brokenReq hs | brokenData hs =>
      subst hs
      exact absurd (hb.symm.trans hn') (by simp)
    | writeData _ hs | print _ hs | unlinkData _ hs | unlinkReq _ hs | openReq _ hs | requeue _ hs
    | broken _ hs =>
      subst hs
      exact absurd (hb.symm.trans hn') (by simp)
  · exact Or.inl hb

end Effects

theorem Proc.threads_self (p : Proc) (m : Mem) (w : Who) (l : Option (Local w)) :
    (Proc.mk m (Function.update p.threads w l)).threads w = l :=
  Function.update_self ..

theorem Proc.threads_ne (p : Proc) (m : Mem) {w w' : Who} (l : Option (Local w)) (h : w' ≠ w) :
    (Proc.mk m (Function.update p.threads w l)).threads w' = p.threads w' :=
  Function.update_of_ne h ..

/-- One thread goes on. -/
theorem Proc.stage_update (p : Proc) (w : Who) (l : Option (Local w)) (m : Mem) :
    Proc.stage ⟨m, Function.update p.threads w l⟩ = Function.update p.stage w (stageOf w l) := by
  funext w'
  by_cases hw : w' = w
  · subst hw
    unfold Proc.stage
    dsimp only
    rw [Function.update_self, Function.update_self]
  · rw [Function.update_of_ne hw]
    unfold Proc.stage
    dsimp only
    rw [Function.update_of_ne hw]

/-! ## Runs -/

/-- At the start nothing has been done. -/
theorem stage_start (spool : Spool) :
    Proc.stage ⟨initRequest spool, firstThreads⟩ = fun _ => .none := by
  funext w
  cases w <;> rfl

/-- A new client thread has nothing to do with the spool yet. -/
theorem stage_accept {p : Proc} {t : Nat} {k : Conn} (ht : p.threads (.client t) = none) :
    Proc.stage ⟨p.mem, Function.update p.threads (.client t) (some (Client.header [], k))⟩ =
      p.stage := by
  have hstage : p.stage (.client t) = .none := by
    unfold Proc.stage
    rw [ht]
    rfl
  rw [Proc.stage_update, show stageOf (.client t) (some (Client.header [], k)) = .none from rfl,
    ← hstage, Function.update_eq_self]

/-- An invariant `R` of the acts, with what `S` leaves of it while the daemon is not running. -/
theorem Reach.stages {C : Daemon → Event → Prop} {S : Spool → List Out → Prop}
    {R : Sys → (Who → Stage) → Prop} (fresh : S Daemon.fresh.spool Daemon.fresh.out)
    (start : ∀ spool out, S spool out → R ⟨spool, initRequest spool, out⟩ fun _ => .none)
    (kill : ∀ d p, C d .kill → R (d.sys p) p.stage → S d.spool d.out)
    (act : ∀ (d : Daemon) (p : Proc) (w : Who) (a : Ans) (l' : Option (Local w)) (s' : Sys),
      Reach C d → d.proc = some p → C d (.run w a) → Act a (d.sys p) s' (p.stage w) (stageOf w l') →
      R (d.sys p) p.stage → R s' (Function.update p.stage w (stageOf w l')))
    {d : Daemon} (h : Reach C d) :
    (d.proc = none → S d.spool d.out) ∧ ∀ p, d.proc = some p → R (d.sys p) p.stage := by
  induction h with
  | fresh => exact ⟨fun _ => fresh, fun p hp => absurd hp (by simp [Daemon.fresh])⟩
  | @step d d' e h hc hs ih =>
    rcases step_cases hs with ⟨-, hp, rfl⟩ | ⟨rfl, ⟨p, hp⟩, rfl⟩ | ⟨t, k, p, -, hp, -, ht, rfl⟩ |
      ⟨w, a, p, l, l', s, rfl, hp, hl, hstep, rfl⟩
    · refine ⟨fun hn => absurd hn (by simp), fun p' hp' => ?_⟩
      cases hp'
      rw [stage_start]
      exact start d.spool d.out (ih.1 hp)
    · exact ⟨fun _ => kill d p hc (ih.2 p hp), fun p' hp' => absurd hp' (by simp)⟩
    · refine ⟨fun hn => absurd hn (by simp), fun p' hp' => ?_⟩
      cases hp'
      rw [stage_accept ht]
      exact ih.2 p hp
    · refine ⟨fun hn => absurd hn (by simp), fun p' hp' => ?_⟩
      cases hp'
      have hstage : p.stage w = stageOf w (some l) := by
        unfold Proc.stage
        rw [hl]
      have hact := threadStep_act hstep
      rw [← hstage] at hact
      rw [Proc.stage_update]
      exact act d p w a l' s h hp hc hact (ih.2 p hp)

end LearningNotes.Printd
