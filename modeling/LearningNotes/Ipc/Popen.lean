import LearningNotes.Lib.CString
import LearningNotes.Lib.Descriptors

/-!
# `popen.c`

A process that calls `popen`, `pclose`, `open` and `close` in any order, from any table of
descriptors. `popen` records the child of each stream under the descriptor of the stream, and a
later child closes all descriptors that have a record.

`popen_child_iff` says when the new child is right: it is unless the descriptor it is to have its
end of the pipe at has a record itself. The child has put the pipe there by then, and closes it
again.

Mirroring notes:
- The record outlives a plain `close`, and the descriptor may be given to something else then.
- What can fail outside is in `Env`. `fork` that fails leaves both ends of the pipe open, `fdopen`
  that fails one of them, with the child running.
- `streams` is not in the source: the streams that `popen` has returned and `pclose` has not taken.
- The status of a child, which `pclose` waits for, is left out.
-/

namespace LearningNotes.Popen

/-- What a descriptor can refer to; the pipes of `popen` have numbers. -/
inductive File where
  | other (id : Nat)
  | readEnd (pipe : Nat)
  | writeEnd (pipe : Nat)
  deriving DecidableEq

/-- A stream of `popen`: its descriptor, and the end of the pipe that was put there. -/
structure Stream where
  fd : Nat
  file : File
  deriving DecidableEq

/-- `childpid` is `NULL` at first; then it has `maxfd` entries. -/
structure State where
  fds : Descriptors File
  childpid : Option (List Nat)
  pipes : Nat
  streams : List Stream

/-- The entry of `childpid` for a descriptor, 0 when there is none. -/
def State.record (s : State) (fd : Nat) : Nat := (s.childpid.getD []).getD fd 0

/-- The two values of `type`. -/
inductive Mode where
  | r
  | w
  deriving DecidableEq

def Mode.type : Mode → CString
  | .r => ⟨['r'.toUInt8], by decide⟩
  | .w => ⟨['w'.toUInt8], by decide⟩

/-- Only "r" or "w" is allowed. -/
def modeOf (type : CString) : Option Mode :=
  let s := type.1 ++ [0]
  if s.getD 0 0 ≠ 'r'.toUInt8 ∧ s.getD 0 0 ≠ 'w'.toUInt8 ∨ s.getD 1 0 ≠ 0 then none
  else if s.getD 0 0 = 'r'.toUInt8 then some .r
  else some .w

theorem modeOf_type (mode : Mode) : modeOf mode.type = some mode := by
  cases mode with
  | r => rfl
  | w => rfl

def STDIN_FILENO : Nat := 0
def STDOUT_FILENO : Nat := 1

/-- The descriptor at which the child is to have its end of the pipe. -/
def Mode.target : Mode → Nat
  | .r => STDOUT_FILENO
  | .w => STDIN_FILENO

/-- The end of the pipe that the child has. -/
def Mode.childEnd : Mode → Nat → File
  | .r => File.writeEnd
  | .w => File.readEnd

/-- The end of the pipe that the stream has. -/
def Mode.streamEnd : Mode → Nat → File
  | .r => File.readEnd
  | .w => File.writeEnd

/-- The descriptor of the pipe that the parent keeps, out of `pfd`. -/
def Mode.parentFd (mode : Mode) (pfd : Nat × Nat) : Nat :=
  match mode with
  | .r => pfd.1
  | .w => pfd.2

/-- The descriptor of the pipe that the child keeps. -/
def Mode.childFd (mode : Mode) (pfd : Nat × Nat) : Nat :=
  match mode with
  | .r => pfd.2
  | .w => pfd.1

/-- What the calls of `popen` give: `open_max()`, whether `calloc` and `pipe` succeed, the child that
`fork` starts, and whether `fdopen` succeeds. -/
structure Env where
  openMax : Nat
  calloc : Bool
  pipe : Bool
  fork : Option {pid : Nat // 0 < pid}
  fdopen : Bool

/-- The program a child executes: `sh -c command`. -/
structure Child where
  fds : Descriptors File
  command : CString

/-- What `popen` returns (`NULL` is none), and the child, when one was started. -/
structure Result where
  state : State
  fp : Option Stream
  child : Option Child

/-- `pipe(pfd)`: the descriptors, and the table with them. -/
def pipe (t : Descriptors File) (n : Nat) : (Nat × Nat) × Descriptors File :=
  let t' := t.take (.readEnd n)
  ((t.lowest, t'.lowest), t'.take (.writeEnd n))

/-- The end of the parent is closed, and the one of the child put at `std`. -/
def plug (t : Descriptors File) (theirs own std : Nat) : Descriptors File :=
  let t := t.put theirs none
  if own ≠ std then (t.dup2 own std).put own none else t

/-- The child up to `execl`. -/
def childFds (mode : Mode) (t : Descriptors File) (pfd : Nat × Nat) (childpid : List Nat) :
    Descriptors File :=
  (plug t (mode.parentFd pfd) (mode.childFd pfd) mode.target).closeRecorded childpid

/-- The parent behind `fork`; `n` is the pipe. -/
def parent (mode : Mode) (n : Nat) (pfd : Nat × Nat) (childpid : List Nat) (pid : Nat)
    (fdopen : Bool) (s : State) : State × Option Stream :=
  let s := { s with fds := s.fds.put (mode.childFd pfd) none }
  if fdopen then
    let fp : Stream := ⟨mode.parentFd pfd, mode.streamEnd n⟩
    ({ s with childpid := some (childpid.set fp.fd pid), streams := fp :: s.streams }, some fp)
  else (s, none)

/-- `popen` behind the allocation of `childpid`. -/
def popenPipe (cmdstring : CString) (mode : Mode) (env : Env) (childpid : List Nat) (s : State) :
    Result :=
  if env.pipe = false then ⟨s, none, none⟩
  else
    let n := s.pipes
    let p := pipe s.fds n
    let s := { s with fds := p.2, pipes := n + 1 }
    -- `EMFILE`: both ends are closed again
    if childpid.length ≤ p.1.1 ∨ childpid.length ≤ p.1.2 then
      ⟨{ s with fds := (s.fds.put p.1.1 none).put p.1.2 none }, none, none⟩
    else
      match env.fork with
      | none => ⟨s, none, none⟩
      | some pid =>
        let r := parent mode n p.1 childpid pid env.fdopen s
        ⟨r.1, r.2, some ⟨childFds mode s.fds p.1 childpid, cmdstring⟩⟩

def popen (cmdstring type : CString) (env : Env) (s : State) : Result :=
  match modeOf type with
  | none => ⟨s, none, none⟩
  | some mode =>
    match s.childpid with
    | some childpid => popenPipe cmdstring mode env childpid s
    | none =>
      if env.calloc = false then ⟨s, none, none⟩
      else
        let childpid := List.replicate env.openMax 0
        popenPipe cmdstring mode env childpid { s with childpid := some childpid }

/-- `pclose`, up to the wait. -/
def pclose (fp : Stream) (s : State) : State :=
  match s.childpid with
  | none => s
  | some childpid =>
    if childpid.length ≤ fp.fd then s
    else if childpid.getD fp.fd 0 = 0 then s
    else
      { s with
        childpid := some (childpid.set fp.fd 0)
        fds := s.fds.put fp.fd none
        streams := s.streams.erase fp }

/-- What the process can do; `open` names the file that is opened. -/
inductive Call where
  | popen (cmdstring type : CString) (env : Env)
  | pclose (fp : Stream)
  | openFile (id : Nat)
  | close (fd : Nat)

def step (s : State) : Call → State
  | .popen cmdstring type env => (Popen.popen cmdstring type env s).state
  | .pclose fp => Popen.pclose fp s
  | .openFile id => { s with fds := s.fds.take (.other id) }
  | .close fd => { s with fds := s.fds.put fd none }

/-- The process when it starts, with any descriptors open. -/
def start (inherited : List (Option Nat)) : State where
  fds := inherited.map fun f => f.map .other
  childpid := none
  pipes := 0
  streams := []

def run (inherited : List (Option Nat)) (calls : List Call) : State :=
  calls.foldl step (start inherited)

/-! ## The child -/

theorem pipe_spec (t : Descriptors File) (n : Nat) :
    (pipe t n).1.1 ≠ (pipe t n).1.2 ∧ t.fileAt (pipe t n).1.1 = none ∧
      t.fileAt (pipe t n).1.2 = none ∧
      ∀ i, (pipe t n).2.fileAt i = if i = (pipe t n).1.2 then some (.writeEnd n)
        else if i = (pipe t n).1.1 then some (.readEnd n) else t.fileAt i := by
  have hfirst := t.fileAt_lowest
  have hsecond := (t.take (.readEnd n)).fileAt_lowest
  have htake : ∀ i, (t.take (.readEnd n)).fileAt i =
      if i = t.lowest then some (.readEnd n) else t.fileAt i := by
    intro i
    exact Descriptors.fileAt_put ..
  have hne : t.lowest ≠ (t.take (.readEnd n)).lowest := by
    intro he
    rw [← he, htake, if_pos rfl] at hsecond
    exact nomatch hsecond
  refine ⟨hne, hfirst, ?_, ?_⟩
  · rw [htake, if_neg (Ne.symm hne)] at hsecond
    exact hsecond
  · intro i
    unfold pipe Descriptors.take
    rw [Descriptors.fileAt_put]
    split
    · rfl
    · exact htake i

theorem fileAt_plug {t : Descriptors File} {theirs own : Nat} {f : File} (hne : own ≠ theirs)
    (hown : t.fileAt own = some f) (std i : Nat) :
    (plug t theirs own std).fileAt i =
      if i = std then some f else if i = own ∨ i = theirs then none else t.fileAt i := by
  unfold plug Descriptors.dup2
  by_cases hstd : own = std
  · subst hstd
    rw [if_neg (fun h => h rfl), Descriptors.fileAt_put]
    by_cases hi : i = own
    · rw [if_pos hi, hi, if_neg hne, hown]
    · rw [if_neg hi]
      simp [hi]
  · rw [if_pos hstd]
    simp only [Descriptors.fileAt_put, if_neg hne, hown]
    by_cases hi : i = own
    · rw [if_pos hi, if_neg (fun h => hstd (hi ▸ h)), if_pos (Or.inl hi)]
    · rw [if_neg hi]
      simp [hi]

/-- The child has the table of the parent without what has a record, and its end of the pipe. -/
theorem fileAt_childFds (t : Descriptors File) (n : Nat) (mode : Mode) (childpid : List Nat)
    (i : Nat) :
    (childFds mode (pipe t n).2 (pipe t n).1 childpid).fileAt i =
      if 0 < childpid.getD i 0 then none
      else if i = mode.target then some (mode.childEnd n) else t.fileAt i := by
  obtain ⟨hne, hfirst, hsecond, hfile⟩ := pipe_spec t n
  unfold childFds
  rw [Descriptors.fileAt_closeRecorded]
  congr 1
  have hown : (pipe t n).2.fileAt (mode.childFd (pipe t n).1) = some (mode.childEnd n) := by
    rw [hfile]
    cases mode with
    | r => exact if_pos rfl
    | w => exact (if_neg hne).trans (if_pos rfl)
  have hdiff : mode.childFd (pipe t n).1 ≠ mode.parentFd (pipe t n).1 := by
    cases mode with
    | r => exact Ne.symm hne
    | w => exact hne
  rw [fileAt_plug hdiff hown]
  congr 1
  -- the two new descriptors were closed before
  by_cases hnew : i = (pipe t n).1.1 ∨ i = (pipe t n).1.2
  · have hclosed : t.fileAt i = none := by
      rcases hnew with rfl | rfl
      · exact hfirst
      · exact hsecond
    have heither : i = mode.childFd (pipe t n).1 ∨ i = mode.parentFd (pipe t n).1 := by
      cases mode with
      | r => exact hnew.symm
      | w => exact hnew
    rw [if_pos heither, hclosed]
  · have hneither : ¬ (i = mode.childFd (pipe t n).1 ∨ i = mode.parentFd (pipe t n).1) := by
      cases mode with
      | r => exact fun h => hnew h.symm
      | w => exact hnew
    rw [if_neg hneither, hfile, if_neg (fun h => hnew (Or.inr h)), if_neg (fun h => hnew (Or.inl h))]

theorem popenPipe_child {cmdstring : CString} {mode : Mode} {env : Env} {childpid : List Nat}
    {s : State} {child : Child} (h : (popenPipe cmdstring mode env childpid s).child = some child) :
    child = ⟨childFds mode (pipe s.fds s.pipes).2 (pipe s.fds s.pipes).1 childpid, cmdstring⟩ := by
  unfold popenPipe at h
  by_cases hpipe : env.pipe = false
  · rw [if_pos hpipe] at h
    exact nomatch h
  · rw [if_neg hpipe] at h
    simp only at h
    by_cases hmax : childpid.length ≤ (pipe s.fds s.pipes).1.1 ∨
        childpid.length ≤ (pipe s.fds s.pipes).1.2
    · rw [if_pos hmax] at h
      exact nomatch h
    · rw [if_neg hmax] at h
      cases hfork : env.fork with
      | none =>
        rw [hfork] at h
        exact nomatch h
      | some pid =>
        rw [hfork] at h
        exact (Option.some.inj h).symm

theorem getD_replicate_zero (n i : Nat) : (List.replicate n 0).getD i 0 = 0 := by
  rw [List.getD_eq_getElem?_getD, List.getElem?_replicate]
  split
  · rfl
  · rfl

/-- What the child of `popen` has at each descriptor. -/
theorem popen_child {cmdstring : CString} {mode : Mode} {env : Env} {s : State} {child : Child}
    (h : (popen cmdstring mode.type env s).child = some child) (i : Nat) :
    child.fds.fileAt i = if 0 < s.record i then none
      else if i = mode.target then some (mode.childEnd s.pipes) else s.fds.fileAt i := by
  unfold popen at h
  rw [modeOf_type] at h
  unfold State.record
  cases hpid : s.childpid with
  | some childpid =>
    simp only [hpid] at h
    rw [popenPipe_child h]
    exact fileAt_childFds ..
  | none =>
    simp only [hpid] at h
    by_cases hcalloc : env.calloc = false
    · rw [if_pos hcalloc] at h
      exact nomatch h
    · rw [if_neg hcalloc] at h
      rw [popenPipe_child h, fileAt_childFds, getD_replicate_zero]
      rfl

/-! ## Streams that are open have a record -/

/-- The descriptor of the stream still refers to its end of the pipe. -/
def StillOpen (s : State) (st : Stream) : Prop := s.fds.fileAt st.fd = some st.file

/-- An end of the pipe `n`. -/
def IsEnd (n : Nat) (f : File) : Prop := f = .readEnd n ∨ f = .writeEnd n

structure Inv (s : State) : Prop where
  made : ∀ st ∈ s.streams, ∃ n < s.pipes, IsEnd n st.file
  kept : ∀ st ∈ s.streams, StillOpen s st → 0 < s.record st.fd

/-- What a step did to the table, the streams and the record. -/
structure Moved (s s' : State) : Prop where
  pipes : s.pipes ≤ s'.pipes
  /-- nothing is at a descriptor that was not there, or is new -/
  fds : ∀ i n f, IsEnd n f → n < s.pipes → s'.fds.fileAt i = some f → s.fds.fileAt i = some f
  streams : ∀ st ∈ s'.streams, st ∈ s.streams ∨
    (∃ n < s'.pipes, IsEnd n st.file) ∧ 0 < s'.record st.fd
  record : ∀ i, 0 < s.record i → 0 < s'.record i ∨ s'.fds.fileAt i = none

theorem Inv.moved {s s' : State} (hi : Inv s) (h : Moved s s') : Inv s' := by
  constructor
  · intro st hst
    rcases h.streams st hst with hold | ⟨hmade, -⟩
    · obtain ⟨n, hn, hend⟩ := hi.made st hold
      exact ⟨n, Nat.lt_of_lt_of_le hn h.pipes, hend⟩
    · exact hmade
  · intro st hst hopen
    rcases h.streams st hst with hold | ⟨-, hrec⟩
    · obtain ⟨n, hn, hend⟩ := hi.made st hold
      have hbefore := hi.kept st hold (h.fds _ n _ hend hn hopen)
      rcases h.record _ hbefore with hrec | hclosed
      · exact hrec
      · unfold StillOpen at hopen
        rw [hclosed] at hopen
        exact nomatch hopen
    · exact hrec

theorem moved_refl (s : State) : Moved s s :=
  ⟨Nat.le_refl _, fun _ _ _ _ _ h => h, fun _ h => Or.inl h, fun _ h => Or.inl h⟩

/-- The new pipe is not one of the old ones. -/
theorem pipe_old {t : Descriptors File} {m n i : Nat} {f : File} (hend : IsEnd n f) (hn : n < m)
    (h : (pipe t m).2.fileAt i = some f) : t.fileAt i = some f := by
  obtain ⟨-, -, -, hfile⟩ := pipe_spec t m
  rw [hfile] at h
  have hold : ∀ g : File, IsEnd m g → some g ≠ some f := by
    intro g hg he
    rw [Option.some.inj he] at hg
    rcases hend with rfl | rfl <;> rcases hg with he | he <;> injection he <;> omega
  split at h
  · exact absurd h (hold _ (Or.inr rfl))
  · split at h
    · exact absurd h (hold _ (Or.inl rfl))
    · exact h

theorem getD_set_pos {l : List Nat} {i j pid : Nat} (hpid : 0 < pid) (h : 0 < l.getD i 0) :
    0 < (l.set j pid).getD i 0 := by
  rw [List.getD_eq_getElem?_getD, List.getElem?_set]
  rw [List.getD_eq_getElem?_getD] at h
  by_cases hij : j = i
  · subst hij
    by_cases hlt : j < l.length
    · rw [if_pos rfl, if_pos hlt]
      exact hpid
    · rw [List.getElem?_eq_none (Nat.le_of_not_lt hlt)] at h
      exact absurd h (Nat.lt_irrefl 0)
  · rwa [if_neg hij]

theorem isEnd_streamEnd (mode : Mode) (n : Nat) : IsEnd n (mode.streamEnd n) := by
  cases mode with
  | r => exact Or.inl rfl
  | w => exact Or.inr rfl

theorem popenPipe_moved (cmdstring : CString) (mode : Mode) (env : Env) {childpid : List Nat}
    {s : State} (hpid : s.childpid = some childpid) :
    Moved s (popenPipe cmdstring mode env childpid s).state := by
  have hrecord : s.record = fun i => childpid.getD i 0 := by
    unfold State.record
    rw [hpid]
    rfl
  unfold popenPipe
  by_cases hpipe : env.pipe = false
  · rw [if_pos hpipe]
    exact moved_refl s
  · rw [if_neg hpipe]
    simp only
    by_cases hmax : childpid.length ≤ (pipe s.fds s.pipes).1.1 ∨
        childpid.length ≤ (pipe s.fds s.pipes).1.2
    · rw [if_pos hmax]
      refine ⟨Nat.le_succ _, ?_, fun _ h => Or.inl h, fun _ h => Or.inl h⟩
      intro i n f hend hn hf
      exact pipe_old hend hn (Descriptors.fileAt_of_put_none (Descriptors.fileAt_of_put_none hf))
    · rw [if_neg hmax]
      cases hfork : env.fork with
      | none =>
        exact ⟨Nat.le_succ _, fun i n f hend hn hf => pipe_old hend hn hf,
          fun _ h => Or.inl h, fun _ h => Or.inl h⟩
      | some pid =>
        have hfds : ∀ i n f, IsEnd n f → n < s.pipes →
            ((pipe s.fds s.pipes).2.put (mode.childFd (pipe s.fds s.pipes).1) none).fileAt i =
              some f → s.fds.fileAt i = some f := by
          intro i n f hend hn hf
          exact pipe_old hend hn (Descriptors.fileAt_of_put_none hf)
        unfold parent
        cases env.fdopen with
        | false => exact ⟨Nat.le_succ _, hfds, fun _ h => Or.inl h, fun _ h => Or.inl h⟩
        | true =>
          refine ⟨Nat.le_succ _, hfds, ?_, ?_⟩
          · intro st hst
            rcases List.mem_cons.mp hst with rfl | hold
            · refine Or.inr ⟨⟨s.pipes, Nat.lt_succ_self _, isEnd_streamEnd mode s.pipes⟩, ?_⟩
              -- the descriptor is below `maxfd`, so it has an entry
              have hlt : mode.parentFd (pipe s.fds s.pipes).1 < childpid.length := by
                cases mode with
                | r => exact Nat.lt_of_not_le fun h => hmax (Or.inl h)
                | w => exact Nat.lt_of_not_le fun h => hmax (Or.inr h)
              show 0 < (childpid.set (mode.parentFd (pipe s.fds s.pipes).1) pid.1).getD
                (mode.parentFd (pipe s.fds s.pipes).1) 0
              rw [List.getD_eq_getElem?_getD, List.getElem?_set, if_pos rfl, if_pos hlt]
              exact pid.2
            · exact Or.inl hold
          · intro i hi
            rw [hrecord] at hi
            exact Or.inl (getD_set_pos pid.2 hi)

theorem popen_inv {s : State} (hi : Inv s) (cmdstring type : CString) (env : Env) :
    Inv (popen cmdstring type env s).state := by
  unfold popen
  cases modeOf type with
  | none => exact hi
  | some mode =>
    cases hpid : s.childpid with
    | some childpid => exact hi.moved (popenPipe_moved cmdstring mode env hpid)
    | none =>
      simp only
      by_cases hcalloc : env.calloc = false
      · rw [if_pos hcalloc]
        exact hi
      · rw [if_neg hcalloc]
        have hzero : ∀ i, s.record i = 0 := by
          intro i
          unfold State.record
          rw [hpid]
          rfl
        have halloc : Moved s { s with childpid := some (List.replicate env.openMax 0) } := by
          refine ⟨Nat.le_refl _, fun _ _ _ _ _ h => h, fun _ h => Or.inl h, fun i h => ?_⟩
          rw [hzero] at h
          exact absurd h (Nat.lt_irrefl 0)
        exact (hi.moved halloc).moved (popenPipe_moved cmdstring mode env rfl)

theorem pclose_moved (fp : Stream) (s : State) : Moved s (pclose fp s) := by
  unfold pclose
  cases hpid : s.childpid with
  | none => exact moved_refl s
  | some childpid =>
    simp only
    split
    · exact moved_refl s
    · split
      · exact moved_refl s
      · refine ⟨Nat.le_refl _, fun _ _ _ _ _ h => Descriptors.fileAt_of_put_none h,
          fun _ h => Or.inl (List.mem_of_mem_erase h), fun i h => ?_⟩
        by_cases hfd : i = fp.fd
        · exact Or.inr (by rw [Descriptors.fileAt_put, if_pos hfd])
        · unfold State.record at h ⊢
          rw [hpid] at h
          refine Or.inl ?_
          rw [Option.getD_some, List.getD_eq_getElem?_getD, List.getElem?_set,
            if_neg (Ne.symm hfd), ← List.getD_eq_getElem?_getD]
          exact h

theorem step_inv {s : State} (hi : Inv s) (c : Call) : Inv (step s c) := by
  cases c with
  | popen cmdstring type env => exact popen_inv hi cmdstring type env
  | pclose fp => exact hi.moved (pclose_moved fp s)
  | openFile id =>
    refine hi.moved ⟨Nat.le_refl _, fun i n f hend _ hf => ?_, fun _ h => Or.inl h,
      fun _ h => Or.inl h⟩
    unfold step Descriptors.take at hf
    rw [Descriptors.fileAt_put] at hf
    split at hf
    · rcases hend with rfl | rfl
      · exact nomatch hf
      · exact nomatch hf
    · exact hf
  | close fd =>
    exact hi.moved ⟨Nat.le_refl _, fun _ _ _ _ _ h => Descriptors.fileAt_of_put_none h,
      fun _ h => Or.inl h, fun _ h => Or.inl h⟩

theorem run_inv (inherited : List (Option Nat)) (calls : List Call) :
    Inv (run inherited calls) := by
  unfold run
  have hstart : Inv (start inherited) := ⟨nofun, nofun⟩
  generalize start inherited = s at hstart
  induction calls generalizing s with
  | nil => exact hstart
  | cons c calls ih => exact ih _ (step_inv hstart c)

/-! ## When the child is right -/

/-- The child has its end of the new pipe where the shell looks for it, and no other descriptor of a
stream that is still open. -/
structure ChildRight (s : State) (mode : Mode) (child : Child) : Prop where
  target : child.fds.fileAt mode.target = some (mode.childEnd s.pipes)
  closed : ∀ st ∈ s.streams, StillOpen s st → st.fd ≠ mode.target → child.fds.fileAt st.fd = none

/-- In every state that can be reached, the child of `popen` is right when the descriptor it is to
read or write has no record, and only then. -/
theorem popen_child_iff (inherited : List (Option Nat)) (calls : List Call) (cmdstring : CString)
    (mode : Mode) (env : Env) (child : Child)
    (h : (popen cmdstring mode.type env (run inherited calls)).child = some child) :
    ChildRight (run inherited calls) mode child ↔ (run inherited calls).record mode.target = 0 := by
  have hfile := popen_child h
  have hi := run_inv inherited calls
  generalize run inherited calls = s at hfile hi
  constructor
  · intro hright
    have htarget := hright.target
    rcases Nat.eq_zero_or_pos (s.record mode.target) with hrec | hrec
    · exact hrec
    · rw [hfile, if_pos hrec] at htarget
      exact nomatch htarget
  · intro hrec
    constructor
    · rw [hfile, hrec, if_neg (Nat.lt_irrefl 0), if_pos rfl]
    · intro st hst hopen hne
      rw [hfile, if_pos (hi.kept st hst hopen)]

/-- All calls succeed. -/
def Env.well : Env where
  openMax := 16
  calloc := true
  pipe := true
  fork := some ⟨100, by decide⟩
  fdopen := true

/-- The child of a second `popen` does not have the pipe of the first one, which is at descriptor 3. -/
theorem popen_child_second :
    let s := run [some 0, some 1, some 2] [.popen ⟨['l'.toUInt8], by decide⟩ Mode.r.type Env.well]
    ∃ child, (popen ⟨['l'.toUInt8], by decide⟩ Mode.w.type Env.well s).child = some child ∧
      ChildRight s .w child ∧ ∃ st ∈ s.streams, st.fd = 3 ∧ child.fds.fileAt st.fd = none := by
  intro s
  obtain ⟨child, hchild⟩ : ∃ child, (popen ⟨['l'.toUInt8], by decide⟩ Mode.w.type Env.well s).child =
      some child := ⟨_, rfl⟩
  have hright : ChildRight s .w child := (popen_child_iff _ _ _ .w Env.well child hchild).mpr rfl
  have hmem : ⟨3, .readEnd 0⟩ ∈ s.streams := by decide
  exact ⟨child, hchild, hright, _, hmem, rfl, hright.closed _ hmem rfl (by decide)⟩

/-- Started without a standard input: the first stream gets descriptor 0, and the child of the second
one has none. -/
theorem popen_child_closed : ¬ ∀ (inherited : List (Option Nat)) (calls : List Call)
    (cmdstring : CString) (mode : Mode) (env : Env) (child : Child),
    (popen cmdstring mode.type env (run inherited calls)).child = some child →
    ChildRight (run inherited calls) mode child := by
  intro hall
  let calls := [Call.popen ⟨['l'.toUInt8], by decide⟩ Mode.r.type Env.well]
  obtain ⟨child, hchild⟩ : ∃ child, (popen ⟨['l'.toUInt8], by decide⟩ Mode.w.type Env.well
      (run [none, some 1, some 2] calls)).child = some child := ⟨_, rfl⟩
  have htarget := (hall _ calls _ .w Env.well child hchild).target
  have hrec : 0 < (run [none, some 1, some 2] calls).record Mode.w.target := by decide
  rw [popen_child hchild, if_pos hrec] at htarget
  exact nomatch htarget

end LearningNotes.Popen
