import LearningNotes.Lib.Handles
import LearningNotes.Printd.Daemon

/-!
# The queue of jobs

What the threads do to the queue, whatever else they do: `Phase` is what the queue knows of a
thread, and `Move` what a step can do to the memory and to the phase (`threadStep_move`). The
invariant `Queued` is over the phases:

- the nodes between `jobhead` and `jobtail` are linked in both directions;
- the node a thread has in its hand is allocated, is not in the queue, and is in no other hand;
- who is in a section has the lock;
- what has arrived is what is gone, the job the printer thread has, and the queue, in this order;
- when the printer thread is blocked, the queue is empty, or somebody is about to signal.
-/

namespace LearningNotes.Printd

/-- What the queue knows of a thread. -/
inductive Phase where
  | idle
  /-- has the lock, and no job -/
  | holding
  /-- has a job that is to be added -/
  | adding (a : Nat)
  | linking (a : Nat)
  /-- has the lock, and has added its job -/
  | linked
  | signalling
  /-- the printer thread, in `pthread_cond_wait` -/
  | waiting
  /-- has the lock, and has taken the job out of the queue -/
  | picked (jp : Nat)
  | has (jp : Nat)
  | putting (jp : Nat)
  deriving DecidableEq

namespace Phase

/-- The node in the hand of the thread. -/
def addr : Phase → Option Nat
  | adding a | linking a | picked a | has a | putting a => some a
  | _ => none

/-- The job that is being printed. -/
def job : Phase → Option Nat
  | picked jp | has jp | putting jp => some jp
  | _ => none

/-- The node has been prepared by `add_job`. -/
def adds : Phase → Bool
  | adding _ | linking _ => true
  | _ => false

/-- The thread has `joblock`. -/
def holds : Phase → Bool
  | holding | linking _ | linked | picked _ | putting _ => true
  | _ => false

/-- The thread has added a job, and `pthread_cond_signal` is still to come. -/
def signals : Phase → Bool
  | linked | signalling => true
  | _ => false

end Phase

def Adding.phase : Adding → Phase
  | .malloc _ => .idle
  | .lock a => .adding a
  | .link a => .linking a
  | .unlock => .linked
  | .signal => .signalling

def Client.phase : Client → Phase
  | .jobInc _ | .jobUnlock _ _ => .holding
  | .adding x => x.phase
  | _ => .idle

def Printer.phase : Printer → Phase
  | .test | .deferUnlock => .holding
  | .waiting => .waiting
  | .unlock jp => .picked jp
  | .update jp | .updateWrite jp _ | .openData jp | .talk jp | .unlinkData jp | .unlinkReq jp
  | .free jp | .deferLock jp => .has jp
  | .deferLink jp => .putting jp
  | .lock | .woken | .sleep => .idle

def Main.phase : Main → Phase
  | .adding _ x => x.phase
  | _ => .idle

/-- The phase of a thread, if it exists. -/
def phaseOf : (w : Who) → Option (Local w) → Phase
  | _, none => .idle
  | .main, some l => Main.phase l
  | .printer, some l => Printer.phase l
  | .client _, some l => Client.phase l.1

def Proc.phase (p : Proc) (w : Who) : Phase := phaseOf w (p.threads w)

/-! ## What a step does -/

/-- Nothing that concerns the queue has changed. -/
structure Mem.Same (m m' : Mem) : Prop where
  jobs : m'.jobs = m.jobs
  joblock : m'.joblock = m.joblock
  blocked : m'.blocked = m.blocked
  arrived : m'.arrived = m.arrived
  gone : m'.gone = m.gone

/-- The phases before and after `pthread_mutex_lock`. -/
inductive Locks : Phase → Phase → Prop where
  | section_ : Locks .idle .holding
  | link (a : Nat) : Locks (.adding a) (.linking a)
  | put (jp : Nat) : Locks (.has jp) (.putting jp)

/-- The phases before and after `pthread_mutex_unlock`. -/
inductive Unlocks : Phase → Phase → Prop where
  | section_ : Unlocks .holding .idle
  | link : Unlocks .linked .signalling
  | pick (jp : Nat) : Unlocks (.picked jp) (.has jp)

/-- What a step of thread `w` does to the memory and to the phase of the thread. -/
inductive Move (w : Who) (m m' : Mem) : Phase → Phase → Prop where
  | same {φ : Phase} (h : m.Same m') : Move w m m' φ φ
  | lock {φ φ' : Phase} (hφ : Locks φ φ') (hfree : m.joblock = none)
      (h : m' = { m with joblock := some w }) : Move w m m' φ φ'
  | unlock {φ φ' : Phase} (hφ : Unlocks φ φ') (h : m' = { m with joblock := none }) : Move w m m' φ φ'
  | malloc {a : Nat} {job : Job} (hfree : m.jobs.heap a = none)
      (h : m' = { m with jobs.heap := m.jobs.heap.set a ⟨none, none, job⟩ }) :
      Move w m m' .idle (.adding a)
  | link {a : Nat} {n : Node Job} {jobs : Dlist Job} (hn : m.jobs.heap a = some n)
      (hpush : m.jobs.pushBack a = some jobs)
      (h : m' = { m with jobs := jobs, arrived := m.arrived ++ [n.val] }) :
      Move w m m' (.linking a) .linked
  | signal (h : m' = { m with blocked := false }) : Move w m m' .signalling .idle
  | pick {jp : Nat} {jobs : Dlist Job} (hw : w = .printer) (hhead : m.jobs.head = some jp)
      (herase : m.jobs.erase jp = some jobs) (h : m' = { m with jobs := jobs }) :
      Move w m m' .holding (.picked jp)
  | wait (hw : w = .printer) (hhead : m.jobs.head = none)
      (h : m' = { m with joblock := none, blocked := true }) : Move w m m' .holding .waiting
  | wake (hw : w = .printer) (h : m' = { m with blocked := false }) : Move w m m' .waiting .idle
  | free {jp : Nat} {n : Node Job} (hw : w = .printer) (hn : m.jobs.heap jp = some n)
      (h : m' = { m with jobs.heap := m.jobs.heap.free jp, gone := m.gone ++ [n.val] }) :
      Move w m m' (.has jp) .idle
  | put {jp : Nat} {jobs : Dlist Job} (hw : w = .printer)
      (hpush : m.jobs.pushFront jp = some jobs) (h : m' = { m with jobs := jobs }) :
      Move w m m' (.putting jp) .holding

variable {w : Who} {m m' : Mem} {s s' : Sys} {a : Ans}

theorem Mem.Same.refl (m : Mem) : m.Same m := ⟨rfl, rfl, rfl, rfl, rfl⟩

/-- The phase of `add_job`, or of what comes after it. -/
def addPhase : Option Adding → Phase
  | none => .idle
  | some x => x.phase

theorem addJob_move {x : Adding} {x' : Option Adding} (h : addJob w x m a = some (x', m')) :
    Move w m m' x.phase (addPhase x') := by
  unfold addJob at h
  split at h
  · split at h
    · next hfree =>
      cases h
      exact .malloc hfree rfl
    · exact absurd h (by simp)
  · split at h
    · next hfree =>
      cases h
      exact .lock (.link _) hfree rfl
    · exact absurd h (by simp)
  · split at h
    · next hn hpush =>
      cases h
      exact .link hn hpush rfl
    · exact absurd h (by simp)
  · cases h
    exact .unlock .link rfl
  · cases h
    exact .signal rfl
  · exact absurd h (by simp)

/-- The phase of a client thread, or of none. -/
def clientPhase : Option Client → Phase
  | none => .idle
  | some c => c.phase

theorem clientThread_move {c : Client} {c' : Option Client} {k k' : Conn}
    (h : clientThread w c k s a = some (c', k', s')) :
    Move w s.mem s'.mem c.phase (clientPhase c') := by
  cases c with
  | jobLock req =>
    simp only [clientThread] at h
    split at h
    · next hfree =>
      cases h
      exact .lock .section_ hfree rfl
    · exact absurd h (by simp)
  | jobInc req =>
    cases h
    exact .same ⟨rfl, rfl, rfl, rfl, rfl⟩
  | jobUnlock req jobid =>
    cases h
    exact .unlock .section_ rfl
  | adding x =>
    obtain ⟨⟨x', m⟩, hx, he⟩ := Option.map_eq_some_iff.mp h
    cases he
    cases x' with
    | none => exact addJob_move hx
    | some x' => exact addJob_move hx
  | reject retcode u =>
    cases h
    cases u with
    | nothing => exact .same (.refl _)
    | data jobid => exact .same (.refl _)
    | both jobid => exact .same (.refl _)
  | unlinkReq jobid =>
    cases h
    exact .same (.refl _)
  | unlinkData jobid =>
    cases h
    exact .same (.refl _)
  | header got =>
    simp only [clientThread] at h
    split at h
    · exact absurd h (by simp)
    · cases h
      exact .same (.refl _)
    · split at h
      · cases h
        exact .same (.refl _)
      · split at h
        · cases h
          exact .same (.refl _)
        · cases h
          exact .same (.refl _)
  | readData req jobid first off =>
    simp only [clientThread] at h
    split at h
    · exact absurd h (by simp)
    · cases h
      exact .same (.refl _)
    · split at h
      · cases h
        exact .same (.refl _)
      · cases h
        exact .same (.refl _)
  | creatData req jobid =>
    cases a <;> cases h <;> exact .same (.refl _)
  | creatReq req jobid =>
    cases a <;> cases h <;> exact .same (.refl _)
  | reply req jobid =>
    cases h
    exact .same (.refl _)
  | writeData req jobid nr off =>
    simp only [clientThread] at h
    split at h
    · cases h
      exact .same (.refl _)
    · split at h
      · cases h
        exact .same (.refl _)
      · exact absurd h (by simp)
    · cases h
      exact .same (.refl _)
    · exact absurd h (by simp)
  | writeReq req jobid =>
    simp only [clientThread] at h
    split at h
    · cases h
      exact .same (.refl _)
    · split at h
      · cases h
        exact .same (.refl _)
      · exact absurd h (by simp)
    · cases h
      exact .same (.refl _)
    · exact absurd h (by simp)

theorem printerThread_move {p p' : Printer} (h : printerThread p s a = some (p', s')) :
    Move .printer s.mem s'.mem p.phase p'.phase := by
  cases p with
  | lock =>
    simp only [printerThread] at h
    split at h
    · next hfree =>
      cases h
      exact .lock .section_ hfree rfl
    · exact absurd h (by simp)
  | test =>
    simp only [printerThread] at h
    split at h
    · next hhead =>
      cases h
      exact .wait rfl hhead rfl
    · next jp hhead =>
      split at h
      · exact absurd h (by simp)
      · next herase =>
        cases h
        exact .pick rfl hhead herase rfl
  | waiting =>
    simp only [printerThread] at h
    split at h
    · split at h
      · exact absurd h (by simp)
      · next hb =>
        cases h
        refine .wake rfl ?_
        have hb' : s.mem.blocked = false := by simpa using hb
        rw [← hb']
    · cases h
      exact .wake rfl rfl
    · exact absurd h (by simp)
  | woken =>
    simp only [printerThread] at h
    split at h
    · next hfree =>
      cases h
      exact .lock .section_ hfree rfl
    · exact absurd h (by simp)
  | unlock jp =>
    cases h
    exact .unlock (.pick jp) rfl
  | update jp =>
    cases h
    exact .same (.refl _)
  | updateWrite jp buf =>
    cases h
    exact .same (.refl _)
  | openData jp =>
    simp only [printerThread] at h
    split at h
    · split at h
      · exact absurd h (by simp)
      · cases h
        exact .same (.refl _)
    · cases h
      exact .same (.refl _)
    · exact absurd h (by simp)
  | talk jp =>
    simp only [printerThread] at h
    split at h
    · cases h
      exact .same (.refl _)
    · cases h
      exact .same (.refl _)
    · exact absurd h (by simp)
  | unlinkData jp =>
    simp only [printerThread] at h
    split at h
    · exact absurd h (by simp)
    · cases h
      exact .same (.refl _)
  | unlinkReq jp =>
    simp only [printerThread] at h
    split at h
    · exact absurd h (by simp)
    · cases h
      exact .same (.refl _)
  | free jp =>
    simp only [printerThread] at h
    split at h
    · exact absurd h (by simp)
    · next n hn =>
      cases h
      exact .free rfl hn rfl
  | deferLock jp =>
    simp only [printerThread] at h
    split at h
    · next hfree =>
      cases h
      exact .lock (.put jp) hfree rfl
    · exact absurd h (by simp)
  | deferLink jp =>
    simp only [printerThread] at h
    split at h
    · exact absurd h (by simp)
    · next hpush =>
      cases h
      exact .put rfl hpush rfl
  | deferUnlock =>
    cases h
    exact .unlock .section_ rfl
  | sleep =>
    cases h
    exact .same (.refl _)

theorem mainThread_move {p p' : Main} (h : mainThread p s a = some (p', s')) :
    Move .main s.mem s'.mem p.phase p'.phase := by
  cases p with
  | opendir => cases a <;> cases h <;> exact .same (.refl _)
  | readdir seen =>
    simp only [mainThread] at h
    split at h
    · split at h
      · exact absurd h (by simp)
      · cases h
        exact .same (.refl _)
    · split at h
      · cases h
        exact .same (.refl _)
      · exact absurd h (by simp)
    · exact absurd h (by simp)
  | openReq seen name =>
    simp only [mainThread] at h
    split at h
    · cases h
      exact .same (.refl _)
    · cases h
      exact .same (.refl _)
    · exact absurd h (by simp)
  | readReq seen name bytes =>
    simp only [mainThread] at h
    split at h
    · cases h
      exact .same ⟨rfl, rfl, rfl, rfl, rfl⟩
    · cases h
      exact .same (.refl _)
    · cases h
      exact .same (.refl _)
    · exact absurd h (by simp)
  | unlinkReq seen name =>
    cases h
    exact .same (.refl _)
  | unlinkData seen name =>
    cases h
    exact .same (.refl _)
  | adding seen x =>
    obtain ⟨⟨x', m⟩, hx, he⟩ := Option.map_eq_some_iff.mp h
    cases he
    cases x' with
    | none => exact addJob_move hx
    | some x' => exact addJob_move hx
  | accept => exact absurd h (by simp [mainThread])

/-- **Every step of a thread is a move.** -/
theorem threadStep_move {l : Local w} {l' : Option (Local w)}
    (h : threadStep w l s a = some (l', s')) :
    Move w s.mem s'.mem (phaseOf w (some l)) (phaseOf w l') := by
  cases w with
  | main =>
    obtain ⟨⟨p', s''⟩, hp, he⟩ := Option.map_eq_some_iff.mp h
    cases he
    exact mainThread_move hp
  | printer =>
    obtain ⟨⟨p', s''⟩, hp, he⟩ := Option.map_eq_some_iff.mp h
    cases he
    exact printerThread_move hp
  | client t =>
    obtain ⟨c, k⟩ := l
    obtain ⟨⟨c', k', s''⟩, hc, he⟩ := Option.map_eq_some_iff.mp h
    cases he
    have hmove := clientThread_move hc
    cases c' with
    | none => exact hmove
    | some c' => exact hmove

/-! ## The invariant -/

/-- The job that the printer thread has taken out of the queue. -/
def held (m : Mem) (φ : Who → Phase) : List Job :=
  match (φ .printer).job with
  | none => []
  | some jp => ((m.jobs.heap jp).map Node.val).toList

/-- The queue has the entries `es`. -/
structure Queued (m : Mem) (φ : Who → Phase) (es : List (Nat × Job)) : Prop where
  is : m.jobs.Is es
  hand : ∀ w a, (φ w).addr = some a → a ∉ es.map Prod.fst ∧
    ∃ n, m.jobs.heap a = some n ∧ ((φ w).adds = true → n.next = none)
  once : ∀ w w' a, (φ w).addr = some a → (φ w').addr = some a → w = w'
  lock : ∀ w, (φ w).holds = true ↔ m.joblock = some w
  order : m.arrived = m.gone ++ held m φ ++ es.map Prod.snd
  sleep : m.blocked = true → φ .printer = .waiting ∧ (es = [] ∨ ∃ w, (φ w).signals = true)

section Moves

variable {φ : Who → Phase} {φ₁ φ₂ : Phase} {es : List (Nat × Job)} {b jp : Nat} {n : Node Job}
  {jobs : Dlist Job} {job : Job}

open Function (update update_self update_of_ne)

theorem addr_of_job (h : φ₁.job = some b) : φ₁.addr = some b := by
  cases φ₁ with
  | picked jp | has jp | putting jp => exact h
  | _ => exact absurd h (by simp [Phase.job])

theorem held_of_job (h : (φ .printer).job = some jp) (hn : m.jobs.heap jp = some n) :
    held m φ = [n.val] := by
  unfold held
  rw [h]
  dsimp only
  rw [hn]
  rfl

theorem held_of_none (h : (φ .printer).job = none) : held m φ = [] := by
  unfold held
  rw [h]

/-- What is held depends on the job in the hand only. -/
theorem held_congr {φ' : Who → Phase} (hjob : (φ' .printer).job = (φ .printer).job)
    (hheap : ∀ b, (φ .printer).job = some b → m'.jobs.heap b = m.jobs.heap b) :
    held m' φ' = held m φ := by
  unfold held
  rw [hjob]
  cases hb : (φ .printer).job with
  | none => rfl
  | some b =>
    dsimp only
    rw [hheap b hb]

/-- The locks, when the lock stays where it is. -/
theorem Queued.lock_same (h : Queued m φ es) (hw : φ w = φ₁) (hholds : φ₂.holds = φ₁.holds)
    (hl : m'.joblock = m.joblock) (w' : Who) :
    (update φ w φ₂ w').holds = true ↔ m'.joblock = some w' := by
  rw [hl, ← h.lock w']
  by_cases hw' : w' = w
  · subst hw'
    rw [update_self, hholds, hw]
  · rw [update_of_ne hw']

/-- The locks, when the lock is taken. -/
theorem Queued.lock_taken (h : Queued m φ es) (hholds : φ₂.holds = true) (hfree : m.joblock = none)
    (hl : m'.joblock = some w) (w' : Who) :
    (update φ w φ₂ w').holds = true ↔ m'.joblock = some w' := by
  rw [hl]
  by_cases hw' : w' = w
  · subst hw'
    rw [update_self, hholds]
    exact iff_of_true rfl rfl
  · rw [update_of_ne hw']
    refine iff_of_false ?_ fun he => hw' (Option.some.inj he).symm
    rw [h.lock w', hfree]
    intro he
    exact absurd he (by simp)

/-- The locks, when the lock is given back. -/
theorem Queued.lock_left (h : Queued m φ es) (hw : φ w = φ₁) (hholds : φ₁.holds = true)
    (hnot : φ₂.holds = false) (hl : m'.joblock = none) (w' : Who) :
    (update φ w φ₂ w').holds = true ↔ m'.joblock = some w' := by
  rw [hl]
  refine iff_of_false ?_ fun he => absurd he (by simp)
  by_cases hw' : w' = w
  · subst hw'
    rw [update_self, hnot]
    simp
  · rw [update_of_ne hw', h.lock w', (h.lock w).mp (hw ▸ hholds)]
    intro he
    exact hw' (Option.some.inj he).symm

/-- Somebody is still about to signal, if it is another one, or this one still is. -/
theorem Queued.sleep_same (h : Queued m φ es) (hw : φ w = φ₁) (hwait : φ₁ ≠ .waiting)
    (hsig : φ₁.signals = true → φ₂.signals = true) (hb : m'.blocked = m.blocked)
    (hblocked : m'.blocked = true) :
    update φ w φ₂ .printer = .waiting ∧ (es = [] ∨ ∃ w', (update φ w φ₂ w').signals = true) := by
  obtain ⟨hp, hes⟩ := h.sleep (hb ▸ hblocked)
  have hwp : Who.printer ≠ w := by
    rintro rfl
    exact hwait (hw.symm.trans hp)
  refine ⟨(update_of_ne hwp ..).trans hp, hes.imp_right ?_⟩
  rintro ⟨w', hw'⟩
  by_cases hww : w' = w
  · subst hww
    exact ⟨w', by rw [update_self]; exact hsig (hw ▸ hw')⟩
  · exact ⟨w', by rwa [update_of_ne hww]⟩

/-- A step that leaves the queue alone, and what the thread has in its hand. -/
theorem Queued.rephase (h : Queued m φ es) (hw : φ w = φ₁) (hjobs : m'.jobs = m.jobs)
    (harr : m'.arrived = m.arrived) (hgone : m'.gone = m.gone) (haddr : φ₂.addr = φ₁.addr)
    (hadds : φ₂.adds = φ₁.adds) (hjob : φ₂.job = φ₁.job)
    (hlock : ∀ w', (update φ w φ₂ w').holds = true ↔ m'.joblock = some w')
    (hsleep : m'.blocked = true → update φ w φ₂ .printer = .waiting ∧
      (es = [] ∨ ∃ w', (update φ w φ₂ w').signals = true)) : Queued m' (update φ w φ₂) es := by
  have haddr' : ∀ w', (update φ w φ₂ w').addr = (φ w').addr ∧
      (update φ w φ₂ w').adds = (φ w').adds ∧ (update φ w φ₂ w').job = (φ w').job := by
    intro w'
    by_cases hw' : w' = w
    · subst hw'
      rw [update_self, hw]
      exact ⟨haddr, hadds, hjob⟩
    · rw [update_of_ne hw']
      exact ⟨rfl, rfl, rfl⟩
  refine ⟨hjobs ▸ h.is, ?_, ?_, hlock, ?_, hsleep⟩
  · intro w' b hb
    rw [(haddr' w').1] at hb
    rw [(haddr' w').2.1, hjobs]
    exact h.hand w' b hb
  · intro w₁ w₂ b h₁ h₂
    rw [(haddr' _).1] at h₁ h₂
    exact h.once w₁ w₂ b h₁ h₂
  · have hheld : held m' (update φ w φ₂) = held m φ :=
      held_congr (haddr' _).2.2 fun b _ => by rw [hjobs]
    rw [harr, hgone, hheld]
    exact h.order

/-- Blocked is the printer thread, and nobody else. -/
theorem Queued.awake (h : Queued m φ es) (hw : φ .printer = φ₁) (hwait : φ₁ ≠ .waiting) :
    m.blocked = false := by
  cases hb : m.blocked with
  | false => rfl
  | true => exact absurd (hw.symm.trans (h.sleep hb).1) hwait

/-- `malloc`: the new node is in no queue and in no hand. -/
theorem Queued.malloc (h : Queued m φ es) (hw : φ w = .idle) (hfree : m.jobs.heap b = none) :
    Queued { m with jobs.heap := m.jobs.heap.set b ⟨none, none, job⟩ } (update φ w (.adding b)) es := by
  have hes : ∀ c ∈ es.map Prod.fst, c ≠ b := by
    rintro c hc rfl
    exact h.is.chain.alloc hc hfree
  have hhand : ∀ w' c, (φ w').addr = some c → c ≠ b := by
    rintro w' c hc rfl
    obtain ⟨-, n, hn, -⟩ := h.hand w' c hc
    exact absurd (hn.symm.trans hfree) (by simp)
  refine ⟨⟨h.is.chain.congr fun c hc => Heap.set_of_ne _ (hes c hc), h.is.head, h.is.tail⟩, ?_, ?_,
    h.lock_same hw rfl rfl, ?_, h.sleep_same hw (by simp) (by simp [Phase.signals]) rfl⟩
  · intro w' c hc
    by_cases hw' : w' = w
    · subst hw'
      rw [update_self] at hc ⊢
      obtain rfl : b = c := Option.some.inj hc
      exact ⟨fun hmem => hes b hmem rfl, _, Heap.set_self .., fun _ => rfl⟩
    · rw [update_of_ne hw'] at hc ⊢
      obtain ⟨hmem, n, hn, hadds⟩ := h.hand w' c hc
      exact ⟨hmem, n, (Heap.set_of_ne _ (hhand w' c hc)).trans hn, hadds⟩
  · refine fun w₁ w₂ c => eq_of_hand_update h.once fun w' c' _ hc' hc => ?_
    obtain rfl : b = c' := Option.some.inj hc'
    exact hhand w' b hc rfl
  · have hjob : (update φ w (.adding b) .printer).job = (φ .printer).job := by
      by_cases hp : Who.printer = w
      · subst hp
        rw [update_self, hw]
        rfl
      · rw [update_of_ne hp]
    rw [held_congr hjob fun c hc => Heap.set_of_ne _ (hhand _ c (addr_of_job hc))]
    exact h.order

/-- What is left of the hands when thread `w` has nothing in its hand any more. -/
theorem hands_drop (haddr : φ₂.addr = none) {w' : Who} {c : Nat}
    (hc : (update φ w φ₂ w').addr = some c) :
    w' ≠ w ∧ update φ w φ₂ w' = φ w' ∧ (φ w').addr = some c := by
  by_cases hw' : w' = w
  · subst hw'
    rw [update_self, haddr] at hc
    exact absurd hc (by simp)
  · rw [update_of_ne hw'] at hc ⊢
    exact ⟨hw', rfl, hc⟩

theorem Queued.once_drop (h : Queued m φ es) (haddr : φ₂.addr = none) {w₁ w₂ : Who} {c : Nat}
    (h₁ : (update φ w φ₂ w₁).addr = some c) (h₂ : (update φ w φ₂ w₂).addr = some c) : w₁ = w₂ :=
  h.once w₁ w₂ c (hand_of_update (.inr haddr) h₁) (hand_of_update (.inr haddr) h₂)

/-- The section of `add_job`. -/
theorem Queued.link (h : Queued m φ es) (hw : φ w = .linking b) (hn : m.jobs.heap b = some n)
    (hpush : m.jobs.pushBack b = some jobs) :
    Queued { m with jobs := jobs, arrived := m.arrived ++ [n.val] } (update φ w .linked)
      (es ++ [(b, n.val)]) := by
  obtain ⟨hfresh, n', hn', hnext⟩ := h.hand w b (by rw [hw]; rfl)
  cases hn.symm.trans hn'
  obtain ⟨jobs', hjobs, his, hoff⟩ := Dlist.pushBack_is h.is hn (hnext (by rw [hw]; rfl)) hfresh
  cases hpush.symm.trans hjobs
  -- another thread's node is not touched
  have hother : ∀ w' c, w' ≠ w → (φ w').addr = some c →
      c ≠ b ∧ c ∉ es.map Prod.fst ∧ jobs.heap c = m.jobs.heap c := by
    intro w' c hw' hc
    have hcb : c ≠ b := by
      rintro rfl
      exact hw' (h.once w' w c hc (by rw [hw]; rfl))
    have hces := (h.hand w' c hc).1
    refine ⟨hcb, hces, hoff c ?_⟩
    rw [List.mem_cons, not_or]
    exact ⟨hcb, hces⟩
  refine ⟨his, ?_, fun _ _ _ => h.once_drop rfl, h.lock_same hw rfl rfl, ?_, ?_⟩
  · intro w' c hc
    obtain ⟨hw', hφ, hc'⟩ := hands_drop rfl hc
    obtain ⟨hcb, hces, hheap⟩ := hother w' c hw' hc'
    obtain ⟨-, n', hn', hadds⟩ := h.hand w' c hc'
    refine ⟨?_, n', hheap.trans hn', hφ ▸ hadds⟩
    rw [List.map_append, List.mem_append, not_or]
    exact ⟨hces, by simpa using hcb⟩
  · have hheld : held { m with jobs := jobs, arrived := m.arrived ++ [n.val] } (update φ w .linked) =
        held m φ := by
      by_cases hp : Who.printer = w
      · subst hp
        rw [held_of_none (by rw [update_self]; rfl), held_of_none (by rw [hw]; rfl)]
      · refine held_congr (by rw [update_of_ne hp]) fun c hc => ?_
        exact (hother _ c hp (addr_of_job hc)).2.2
    rw [hheld, List.map_append, ← List.append_assoc, ← h.order]
    rfl
  · intro hb
    have hwait := (h.sleep hb).1
    have hp : Who.printer ≠ w := by
      rintro rfl
      exact absurd (hw.symm.trans hwait) (by simp)
    exact ⟨(update_of_ne hp ..).trans hwait, Or.inr ⟨w, by rw [update_self]; rfl⟩⟩

/-- `remove_job` of the first job. -/
theorem Queued.pick (h : Queued m φ es) (hw : φ .printer = .holding) (hhead : m.jobs.head = some jp)
    (herase : m.jobs.erase jp = some jobs) :
    ∃ es', Queued { m with jobs := jobs } (update φ .printer (.picked jp)) es' := by
  cases es with
  | nil => exact absurd (hhead.symm.trans h.is.head) (by simp)
  | cons e es =>
    obtain ⟨b, job⟩ := e
    obtain rfl : jp = b := Option.some.inj (hhead.symm.trans h.is.head)
    obtain ⟨jobs', hjobs, his, hsame, hoff⟩ := Dlist.erase_is (show m.jobs.Is ([] ++ (jp, job) :: es) from h.is)
    cases herase.symm.trans hjobs
    have hnode : jobs.heap jp = some ⟨first es, none, job⟩ :=
      hsame.trans (h.is.chain.node [] jp job es rfl)
    have hnodup := h.is.chain.nodup
    rw [List.map_cons, List.nodup_cons] at hnodup
    -- what the other threads hold is not in the queue, so `erase` does not touch it
    have hother : ∀ w' c, w' ≠ .printer → (φ w').addr = some c →
        c ≠ jp ∧ c ∉ es.map Prod.fst ∧ jobs.heap c = m.jobs.heap c := by
      intro w' c _ hc
      have hmem := (h.hand w' c hc).1
      rw [List.map_cons, List.mem_cons, not_or] at hmem
      exact ⟨hmem.1, hmem.2, hoff c hmem.2⟩
    refine ⟨es, his, ?_, ?_, h.lock_same hw rfl rfl, ?_, ?_⟩
    · intro w' c hc
      by_cases hw' : w' = .printer
      · subst hw'
        rw [update_self] at hc ⊢
        obtain rfl : jp = c := Option.some.inj hc
        exact ⟨hnodup.1, _, hnode, fun hadds => absurd hadds (by simp [Phase.adds])⟩
      · rw [update_of_ne hw'] at hc ⊢
        obtain ⟨-, n', hn', hadds⟩ := h.hand w' c hc
        obtain ⟨-, hces, hheap⟩ := hother w' c hw' hc
        exact ⟨hces, n', hheap.trans hn', hadds⟩
    · refine fun w₁ w₂ c => eq_of_hand_update h.once fun w' c' hw' hc' hc => ?_
      obtain rfl : jp = c' := Option.some.inj hc'
      exact (hother w' jp hw' hc).1 rfl
    · have hjob : (update φ .printer (.picked jp) .printer).job = some jp := by
        rw [update_self]
        rfl
      -- the job goes from the front of the queue to the hand of the printer thread
      have hheld : held { m with jobs := jobs } (update φ .printer (.picked jp)) = [job] :=
        @held_of_job { m with jobs := jobs } _ jp _ hjob hnode
      have horder := h.order
      rw [held_of_none (by rw [hw]; rfl), List.append_nil] at horder
      rw [hheld, List.append_assoc]
      exact horder
    · intro hb
      exact absurd ((h.awake hw (by simp)).symm.trans hb) (by simp)

/-- `free` of the job in hand. -/
theorem Queued.free (h : Queued m φ es) (hw : φ .printer = .has jp) (hn : m.jobs.heap jp = some n) :
    Queued { m with jobs.heap := m.jobs.heap.free jp, gone := m.gone ++ [n.val] }
      (update φ .printer .idle) es := by
  have hes := (h.hand .printer jp (by rw [hw]; rfl)).1
  refine ⟨⟨h.is.chain.congr fun c hc => Heap.free_of_ne ?_, h.is.head, h.is.tail⟩, ?_,
    fun _ _ _ => h.once_drop rfl, h.lock_same hw rfl rfl, ?_, ?_⟩
  · rintro rfl
    exact hes hc
  · intro w' c hc
    obtain ⟨hw', hφ, hc'⟩ := hands_drop rfl hc
    obtain ⟨hmem, n', hn', hadds⟩ := h.hand w' c hc'
    refine ⟨hmem, n', (Heap.free_of_ne ?_).trans hn', hφ ▸ hadds⟩
    rintro rfl
    exact hw' (h.once w' _ c hc' (by rw [hw]; rfl))
  · have horder := h.order
    rw [held_of_job (by rw [hw]; rfl) hn] at horder
    rw [held_of_none (by rw [update_self]; rfl), List.append_nil]
    exact horder
  · intro hb
    exact absurd ((h.awake hw (by simp)).symm.trans hb) (by simp)

/-- The section of `replace_job`. -/
theorem Queued.put (h : Queued m φ es) (hw : φ .printer = .putting jp)
    (hpush : m.jobs.pushFront jp = some jobs) :
    ∃ es', Queued { m with jobs := jobs } (update φ .printer .holding) es' := by
  obtain ⟨hfresh, n, hn, -⟩ := h.hand .printer jp (by rw [hw]; rfl)
  obtain ⟨jobs', hjobs, his, hoff⟩ := Dlist.pushFront_is h.is hn hfresh
  cases hpush.symm.trans hjobs
  refine ⟨(jp, n.val) :: es, his, ?_, fun _ _ _ => h.once_drop rfl, h.lock_same hw rfl rfl, ?_, ?_⟩
  · intro w' c hc
    obtain ⟨hw', hφ, hc'⟩ := hands_drop rfl hc
    obtain ⟨hmem, n', hn', hadds⟩ := h.hand w' c hc'
    have hcjp : c ≠ jp := by
      rintro rfl
      exact hw' (h.once w' _ c hc' (by rw [hw]; rfl))
    have hnot : c ∉ jp :: es.map Prod.fst := by
      rw [List.mem_cons, not_or]
      exact ⟨hcjp, hmem⟩
    exact ⟨hnot, n', (hoff c hnot).trans hn', hφ ▸ hadds⟩
  · have horder := h.order
    rw [held_of_job (by rw [hw]; rfl) hn] at horder
    rw [held_of_none (by rw [update_self]; rfl), List.append_nil, horder, List.append_assoc]
    rfl
  · intro hb
    exact absurd ((h.awake hw (by simp)).symm.trans hb) (by simp)

/-- **Every move keeps the invariant.** -/
theorem Queued.move (h : Queued m φ es) (hmove : Move w m m' (φ w) φ₂) :
    ∃ es', Queued m' (update φ w φ₂) es' := by
  generalize hw : φ w = φ₁ at hmove
  cases hmove with
  | same hsame =>
    subst hw
    refine ⟨es, h.rephase rfl hsame.jobs hsame.arrived hsame.gone rfl rfl rfl
      (h.lock_same rfl rfl hsame.joblock) fun hb => ?_⟩
    rw [Function.update_eq_self]
    exact h.sleep (hsame.blocked ▸ hb)
  | lock hφ hfree hm =>
    subst hm
    cases hφ with
    | section_ =>
      exact ⟨es, h.rephase hw rfl rfl rfl rfl rfl rfl (h.lock_taken rfl hfree rfl)
        (h.sleep_same hw (by simp) (by simp [Phase.signals]) rfl)⟩
    | link b =>
      exact ⟨es, h.rephase hw rfl rfl rfl rfl rfl rfl (h.lock_taken rfl hfree rfl)
        (h.sleep_same hw (by simp) (by simp [Phase.signals]) rfl)⟩
    | put jp =>
      exact ⟨es, h.rephase hw rfl rfl rfl rfl rfl rfl (h.lock_taken rfl hfree rfl)
        (h.sleep_same hw (by simp) (by simp [Phase.signals]) rfl)⟩
  | unlock hφ hm =>
    subst hm
    cases hφ with
    | section_ =>
      exact ⟨es, h.rephase hw rfl rfl rfl rfl rfl rfl (h.lock_left hw rfl rfl rfl)
        (h.sleep_same hw (by simp) (by simp [Phase.signals]) rfl)⟩
    | link =>
      exact ⟨es, h.rephase hw rfl rfl rfl rfl rfl rfl (h.lock_left hw rfl rfl rfl)
        (h.sleep_same hw (by simp) (by simp [Phase.signals]) rfl)⟩
    | pick jp =>
      exact ⟨es, h.rephase hw rfl rfl rfl rfl rfl rfl (h.lock_left hw rfl rfl rfl)
        (h.sleep_same hw (by simp) (by simp [Phase.signals]) rfl)⟩
  | malloc hfree hm => exact ⟨es, hm ▸ h.malloc hw hfree⟩
  | link hn hpush hm => exact ⟨_, hm ▸ h.link hw hn hpush⟩
  | signal hm =>
    subst hm
    exact ⟨es, h.rephase hw rfl rfl rfl rfl rfl rfl (h.lock_same hw rfl rfl)
      fun hb => absurd hb (by simp)⟩
  | pick hp hhead herase hm =>
    subst hp
    exact hm ▸ h.pick hw hhead herase
  | wait hp hhead hm =>
    subst hp
    subst hm
    refine ⟨es, h.rephase hw rfl rfl rfl rfl rfl rfl (h.lock_left hw rfl rfl rfl) fun _ => ?_⟩
    -- it goes to sleep only on an empty queue
    exact ⟨update_self .., Or.inl (first_eq_none (h.is.head.symm.trans hhead))⟩
  | wake hp hm =>
    subst hp
    subst hm
    exact ⟨es, h.rephase hw rfl rfl rfl rfl rfl rfl (h.lock_same hw rfl rfl)
      fun hb => absurd hb (by simp)⟩
  | free hp hn hm =>
    subst hp
    exact ⟨es, hm ▸ h.free hw hn⟩
  | put hp hpush hm =>
    subst hp
    exact hm ▸ h.put hw hpush

end Moves

/-! ## All runs -/

theorem Queued.start (spool : Spool) :
    Queued (initRequest spool) (Proc.phase ⟨initRequest spool, firstThreads⟩) [] := by
  have hidle : ∀ w, Proc.phase ⟨initRequest spool, firstThreads⟩ w = .idle := by
    intro w
    cases w <;> rfl
  refine ⟨⟨Chain.nil _, rfl, rfl⟩, ?_, ?_, ?_, ?_, ?_⟩
  · intro w b hb
    rw [hidle] at hb
    exact absurd hb (by simp [Phase.addr])
  · intro w w' b hb
    rw [hidle] at hb
    exact absurd hb (by simp [Phase.addr])
  · intro w
    rw [hidle]
    exact iff_of_false (by simp [Phase.holds]) (by simp [initRequest])
  · rw [held_of_none (by rw [hidle]; rfl)]
    rfl
  · intro hb
    exact absurd hb (by simp [initRequest])

theorem Proc.phase_update (p : Proc) (w : Who) (l : Option (Local w)) (m : Mem) :
    Proc.phase ⟨m, Function.update p.threads w l⟩ =
      Function.update p.phase w (phaseOf w l) := by
  funext w'
  by_cases hw : w' = w
  · subst hw
    unfold Proc.phase
    dsimp only
    rw [Function.update_self, Function.update_self]
  · rw [Function.update_of_ne hw]
    unfold Proc.phase
    dsimp only
    rw [Function.update_of_ne hw]

/-- **The invariant holds in every reachable state.** -/
theorem Reach.queued {C : Daemon → Event → Prop} {d : Daemon} (h : Reach C d) :
    ∀ p, d.proc = some p → ∃ es, Queued p.mem p.phase es := by
  induction h with
  | fresh =>
    intro p hp
    exact absurd hp (by simp [Daemon.fresh])
  | @step d d' e _ _ hs ih =>
    intro p' hp'
    rcases step_cases hs with ⟨-, -, rfl⟩ | ⟨-, -, rfl⟩ | ⟨t, k, p, -, hp, -, ht, rfl⟩ |
      ⟨w, a, p, l, l', s, -, hp, hl, hstep, rfl⟩
    · cases hp'
      exact ⟨[], Queued.start d.spool⟩
    · exact absurd hp' (by simp)
    · cases hp'
      obtain ⟨es, hes⟩ := ih p hp
      -- the new thread has nothing to do with the queue yet
      have hmove : Move (.client t) p.mem p.mem (p.phase (.client t)) .idle := by
        have hidle : p.phase (.client t) = .idle := by
          unfold Proc.phase
          rw [ht]
          rfl
        rw [hidle]
        exact .same (.refl _)
      obtain ⟨es', hes'⟩ := hes.move hmove
      refine ⟨es', ?_⟩
      rw [Proc.phase_update]
      exact hes'
    · cases hp'
      obtain ⟨es, hes⟩ := ih p hp
      have hmove := threadStep_move hstep
      have hphase : p.phase w = phaseOf w (some l) := by
        unfold Proc.phase
        rw [hl]
      rw [← hphase] at hmove
      obtain ⟨es', hes'⟩ := hes.move hmove
      refine ⟨es', ?_⟩
      rw [Proc.phase_update]
      exact hes'

/-- **The queue is linked and in order, and no wake-up is lost.** Forwards from `jobhead` and
backwards from `jobtail` the queue has the same nodes. Its jobs are those that have arrived and
that are neither gone nor in the hand of the printer thread, in the order of their arrival; a
job that the printer thread has put back is in front again, and the next job to be printed is
the first one that is not gone. When the printer thread is blocked, the queue is empty, or a
thread that has added a job is about to signal. -/
theorem queue_in_order {d : Daemon} {p : Proc} (h : Reach (fun _ _ => True) d)
    (hp : d.proc = some p) :
    ∃ as js, Follows Node.next p.mem.jobs.heap p.mem.jobs.head as ∧
      Follows Node.prev p.mem.jobs.heap p.mem.jobs.tail as.reverse ∧
      as.Nodup ∧ as.map (fun b => (p.mem.jobs.heap b).map Node.val) = js.map some ∧
      p.mem.arrived = p.mem.gone ++ held p.mem p.phase ++ js ∧
      (p.threads .printer = some Printer.test →
        js.head? = p.mem.arrived[p.mem.gone.length]?) ∧
      ¬ (as ≠ [] ∧ p.mem.blocked = true ∧ ∀ w, (p.phase w).signals = false) := by
  obtain ⟨es, hes⟩ := h.queued p hp
  refine ⟨es.map Prod.fst, es.map Prod.snd, ?_, ?_, hes.is.chain.nodup, ?_, hes.order, ?_, ?_⟩
  · rw [hes.is.head]
    exact hes.is.chain.follows_next
  · rw [hes.is.tail]
    exact hes.is.chain.follows_prev
  · rw [List.map_map, List.map_map]
    refine List.map_congr_left fun e he => ?_
    obtain ⟨b, job⟩ := e
    obtain ⟨l, r, hs⟩ := List.append_of_mem he
    show (p.mem.jobs.heap b).map Node.val = some job
    rw [hes.is.chain.node l b job r hs, Option.map_some]
  · intro htest
    have hphase : p.phase .printer = .holding := by
      unfold Proc.phase
      rw [htest]
      rfl
    rw [hes.order, held_of_none (by rw [hphase]; rfl), List.append_nil,
      List.getElem?_append_right (Nat.le_refl _), Nat.sub_self, List.head?_eq_getElem?]
  · rintro ⟨hne, hb, hno⟩
    rcases (hes.sleep hb).2 with rfl | ⟨w, hw⟩
    · exact hne rfl
    · exact absurd ((hno w).symm.trans hw) (by simp)

/-- The client thread `t` adds its job, in a node at the address `t`. -/
def added (t : Nat) : List Event := [.addr t, .ok, .ok, .ok, .ok].map (.run (.client t))

/-- Two jobs are added; the printer thread takes the first one, defers it and puts it back, and
looks at the queue again. -/
def putBack : List Event :=
  startEmpty ++ submit 0 ++ added 0 ++ submit 1 ++ added 1 ++
    ([.ok, .ok, .ok, .ok, .ok, .ok, .deferred, .ok, .ok, .ok, .ok, .ok] : List Ans).map (.run .printer)

set_option maxRecDepth 10000 in
/-- The job that has been put back is the first one again. -/
theorem queue_in_order_deferred : ∃ d p, runs Daemon.fresh putBack = some d ∧ d.proc = some p ∧
    p.mem.gone = [] ∧ p.mem.arrived.map Job.jobid = [1, 2] ∧
    ∃ as js, Follows Node.next p.mem.jobs.heap p.mem.jobs.head as ∧
      Follows Node.prev p.mem.jobs.heap p.mem.jobs.tail as.reverse ∧ as.length = 2 ∧
      as.map (fun b => (p.mem.jobs.heap b).map Node.val) = js.map some ∧ p.mem.arrived = js ∧
      js.head?.map Job.jobid = some 1 := by
  have hrun : ((runs Daemon.fresh putBack).any fun d => d.proc.any fun p =>
      decide (p.threads .printer = some Printer.test ∧ p.mem.gone.length = 0 ∧
        p.mem.arrived.map Job.jobid = [1, 2])) = true := by
    decide +kernel
  obtain ⟨d, hd, hrun⟩ := (Option.any_eq_true _ _).mp hrun
  obtain ⟨p, hp, hrun⟩ := (Option.any_eq_true _ _).mp hrun
  obtain ⟨htest, hgone, harrived⟩ := of_decide_eq_true hrun
  obtain ⟨as, js, hnext, hprev, -, hval, horder, hhead, -⟩ :=
    queue_in_order (Reach.fresh.runs (fun _ _ _ => trivial) hd) hp
  have hgone : p.mem.gone = [] := List.length_eq_zero_iff.mp hgone
  have hheld : held p.mem p.phase = [] := by
    apply held_of_none
    unfold Proc.phase
    rw [htest]
    rfl
  rw [hgone, hheld, List.nil_append, List.nil_append] at horder
  refine ⟨d, p, hd, hp, hgone, harrived, as, js, hnext, hprev, ?_, hval, horder, ?_⟩
  · have hlen := congrArg List.length hval
    have htwo := congrArg List.length harrived
    rw [List.length_map, List.length_map] at hlen
    rw [List.length_map, horder] at htwo
    rw [hlen, htwo]
    rfl
  · rw [hhead htest, hgone, List.length_nil, ← List.getElem?_map, harrived]
    rfl

/-- No section dereferences a node that has been freed, and the job in the hand of the printer
thread is allocated. -/
theorem sections_run {d : Daemon} {p : Proc} (h : Reach (fun _ _ => True) d)
    (hp : d.proc = some p) :
    (∀ w b, p.phase w = .linking b → p.mem.jobs.pushBack b ≠ none) ∧
      (∀ jp, p.mem.jobs.head = some jp → p.mem.jobs.erase jp ≠ none) ∧
      (∀ jp, p.phase .printer = .putting jp → p.mem.jobs.pushFront jp ≠ none) ∧
      ∀ jp, (p.phase .printer).job = some jp → p.mem.jobs.heap jp ≠ none := by
  obtain ⟨es, hes⟩ := h.queued p hp
  refine ⟨?_, ?_, ?_, ?_⟩
  · intro w b hw
    obtain ⟨hfresh, n, hn, hnext⟩ := hes.hand w b (by rw [hw]; rfl)
    obtain ⟨jobs, hjobs, -⟩ := Dlist.pushBack_is hes.is hn (hnext (by rw [hw]; rfl)) hfresh
    rw [hjobs]
    exact Option.some_ne_none _
  · intro jp hhead
    cases es with
    | nil => exact absurd (hhead.symm.trans hes.is.head) (by simp)
    | cons e es =>
      obtain ⟨b, job⟩ := e
      obtain rfl : jp = b := Option.some.inj (hhead.symm.trans hes.is.head)
      have his : p.mem.jobs.Is ([] ++ (jp, job) :: es) := hes.is
      obtain ⟨jobs, hjobs, -⟩ := Dlist.erase_is his
      rw [hjobs]
      exact Option.some_ne_none _
  · intro jp hw
    obtain ⟨hfresh, n, hn, -⟩ := hes.hand .printer jp (by rw [hw]; rfl)
    obtain ⟨jobs, hjobs, -⟩ := Dlist.pushFront_is hes.is hn hfresh
    rw [hjobs]
    exact Option.some_ne_none _
  · intro jp hjob
    obtain ⟨-, n, hn, -⟩ := hes.hand .printer jp (addr_of_job hjob)
    rw [hn]
    exact Option.some_ne_none _

end LearningNotes.Printd
