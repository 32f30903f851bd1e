import LearningNotes.Printd.Acts
import LearningNotes.Printd.Queue

/-!
# An accepted job stays in the spool

Two files and an entry in memory belong to a job, and three threads touch them. What keeps an
accepted job safe is that nobody else works under its number: neither another client thread, nor
the printer thread when it unlinks the files of a job it has printed, nor `build_qonstart` when it
unlinks what a client thread has left unfinished.

So all depends on the numbers that `get_newjobno` returns (`NewNumber`). They may be in use after
a restart (`Counter.lean`); it is not enough that no *unprinted* job has the number, because the
printer thread still unlinks the files of the job it has just printed (`accepted_lost`).
-/

namespace LearningNotes.Printd

open Function (update update_self update_of_ne)

/-- There is a job with this number in memory, or on the way to it. -/
def InMemory (s : Sys) (σ : Who → Stage) (i : Int) : Prop :=
  (∃ b n, s.mem.jobs.heap b = some n ∧ n.val.jobid = i) ∨
    ∃ w job, σ w = .passing job ∧ job.jobid = i

/-- Both files of the job are in the spool, as they were when the job was accepted. -/
def Filed (spool : Spool) (j : Accepted) : Prop :=
  (∃ bytes, j.data = some bytes ∧ spool.data.get (fileName j.jobid) = some bytes) ∧
    spool.reqs.get (fileName j.jobid) = some j.req.bytes

/-- What is true of the spool while a thread is at the stage. -/
def StageOk (s : Sys) : Stage → Prop
  | .data i => s.spool.data.get (fileName i) ≠ none
  | .control i _ =>
    s.spool.data.get (fileName i) ≠ none ∧ s.spool.reqs.get (fileName i) = some []
  | .full i req =>
    s.spool.data.get (fileName i) ≠ none ∧ s.spool.reqs.get (fileName i) = some req.bytes
  | .printed jp => ∀ n, s.mem.jobs.heap jp = some n → ∀ j ∈ unprinted s.out, j.jobid ≠ n.val.jobid
  | .reading name bytes => ∀ j ∈ unprinted s.out, fileName j.jobid = name → bytes = j.req.bytes
  | .unlinking name => ∀ j ∈ unprinted s.out, fileName j.jobid ≠ name
  | _ => True

/-- The thread is in `build_qonstart`, with an entry of the directory. -/
def Stage.starts : Stage → Bool
  | .reading _ _ | .unlinking _ => true
  | _ => false

/-- Who can be where. -/
structure Proper (s : Sys) (σ : Who → Stage) : Prop where
  start : ∀ w w' i, (σ w).jobid = some i → (σ w').starts = false
  held : ∀ w jp, σ w = .printed jp → s.mem.jobs.heap jp ≠ none

structure Kept (s : Sys) (σ : Who → Stage) : Prop where
  files : ∀ j ∈ unprinted s.out, Filed s.spool j
  mine : ∀ w i, (σ w).jobid = some i → (∀ j ∈ unprinted s.out, j.jobid ≠ i) ∧ ¬ InMemory s σ i
  once : ∀ w w' i, (σ w).jobid = some i → (σ w').jobid = some i → w = w'
  ok : ∀ w, StageOk s (σ w)

/-- A number under which nobody works. -/
structure Unused (s : Sys) (σ : Who → Stage) (i : Int) : Prop where
  accepted : ∀ j ∈ unprinted s.out, j.jobid ≠ i
  memory : ¬ InMemory s σ i
  received : ∀ w, (σ w).jobid ≠ some i

/-- A number under which others work than the thread `w`. -/
def Others (s : Sys) (σ : Who → Stage) (w : Who) (i : Int) : Prop :=
  (∃ j ∈ unprinted s.out, j.jobid = i) ∨ ∃ w', w' ≠ w ∧ (σ w').jobid = some i

/-- The files with this name are the same. -/
def SameFiles (s s' : Sys) (name : List Byte) : Prop :=
  s'.spool.data.get name = s.spool.data.get name ∧ s'.spool.reqs.get name = s.spool.reqs.get name

variable {s s' : Sys} {σ : Who → Stage} {w : Who} {st st' : Stage} {a : Ans} {i : Int}
  {j : Accepted}

theorem Filed.same (h : Filed s.spool j) (hs : SameFiles s s' (fileName j.jobid)) :
    Filed s'.spool j := by
  obtain ⟨⟨bytes, hj, hdata⟩, hreq⟩ := h
  exact ⟨⟨bytes, hj, hs.1.trans hdata⟩, hs.2.trans hreq⟩

/-- What another thread relies on. -/
theorem StageOk.same (h : StageOk s st) (hU : ∀ j ∈ unprinted s'.out, j ∈ unprinted s.out)
    (hsame : ∀ i, st.jobid = some i → SameFiles s s' (fileName i))
    (hheap : ∀ jp n', st = .printed jp → s'.mem.jobs.heap jp = some n' →
      ∃ n, s.mem.jobs.heap jp = some n ∧ n.val = n'.val) : StageOk s' st := by
  cases st with
  | data i =>
    show s'.spool.data.get (fileName i) ≠ none
    rw [(hsame i rfl).1]
    exact h
  | control i req | full i req =>
    obtain ⟨hdata, hreq⟩ := h
    refine ⟨?_, (hsame i rfl).2.trans hreq⟩
    rw [(hsame i rfl).1]
    exact hdata
  | printed jp =>
    intro n' hn' j hj
    obtain ⟨n, hn, hval⟩ := hheap jp n' rfl hn'
    exact hval ▸ h n hn j (hU j hj)
  | reading name bytes => exact fun j hj => h j (hU j hj)
  | unlinking name => exact fun j hj => h j (hU j hj)
  | _ => trivial

/-- A step that accepts no job, gives no number, and works on files that are nobody else's. -/
theorem Kept.keep (h : Kept s σ) (hw : σ w = st)
    (hU : ∀ j ∈ unprinted s'.out, j ∈ unprinted s.out)
    (hsame : ∀ i, Others s σ w i → SameFiles s s' (fileName i))
    (hid : st'.jobid = st.jobid ∨ st'.jobid = none)
    (hmem : ∀ w' i, (σ w').jobid = some i → InMemory s' (update σ w st') i → InMemory s σ i)
    (hheap : ∀ w' jp n', σ w' = .printed jp → s'.mem.jobs.heap jp = some n' →
      ∃ n, s.mem.jobs.heap jp = some n ∧ n.val = n'.val)
    (hok : StageOk s' st') : Kept s' (update σ w st') := by
  have hjobid : ∀ w' i, (update σ w st' w').jobid = some i → (σ w').jobid = some i :=
    fun w' i => hand_of_update (hw.symm ▸ hid)
  refine ⟨?_, ?_, ?_, ?_⟩
  · intro j hj
    exact (h.files j (hU j hj)).same (hsame _ (Or.inl ⟨j, hU j hj, rfl⟩))
  · intro w' i hi
    obtain ⟨hne, hmi⟩ := h.mine w' i (hjobid w' i hi)
    exact ⟨fun j hj => hne j (hU j hj), fun hin => hmi (hmem w' i (hjobid w' i hi) hin)⟩
  · intro w₁ w₂ i h₁ h₂
    exact h.once w₁ w₂ i (hjobid w₁ i h₁) (hjobid w₂ i h₂)
  · intro w'
    by_cases hw' : w' = w
    · subst hw'
      rw [update_self]
      exact hok
    · rw [update_of_ne hw']
      exact (h.ok w').same hU (fun i hi => hsame i (Or.inr ⟨w', hw', hi⟩))
        fun jp n' => hheap w' jp n'

/-- In memory is what was there before, or what the step has put there. -/
theorem Act.inMemory (hact : Act a s s' (σ w) st') (h : InMemory s' (update σ w st') i) :
    InMemory s σ i ∨ ∃ job, st' = .passing job ∧ job.jobid = i := by
  rcases h with ⟨b, n', hn', rfl⟩ | ⟨w', job, hw', rfl⟩
  · left
    rcases hact.allocated hn' with hb | ⟨job, -, hpass, rfl⟩
    · obtain ⟨n, hn, hval⟩ := hact.vals hb hn'
      exact Or.inl ⟨b, n, hn, congrArg Job.jobid hval⟩
    · exact Or.inr ⟨w, _, hpass, rfl⟩
  · by_cases he : w' = w
    · subst he
      rw [update_self] at hw'
      exact Or.inr ⟨job, hw', rfl⟩
    · rw [update_of_ne he] at hw'
      exact Or.inl (Or.inr ⟨w', job, hw', rfl⟩)

/-- The files under the number of a client thread are nobody else's. -/
theorem Kept.own (h : Kept s σ) (hi : (σ w).jobid = some i) {i' : Int} (ho : Others s σ w i') :
    fileName i' ≠ fileName i := by
  intro he
  obtain rfl := fileName_inj he
  rcases ho with ⟨j, hj, rfl⟩ | ⟨w', hw', hi'⟩
  · exact (h.mine w _ hi).1 j hj rfl
  · exact hw' (h.once w' w _ hi' hi)

/-- The files of the job that has been printed are nobody else's. -/
theorem Kept.printed_own (h : Kept s σ) {jp : Nat} {n : Node Job} (hw : σ w = .printed jp)
    (hn : s.mem.jobs.heap jp = some n) {i' : Int} (ho : Others s σ w i') :
    fileName i' ≠ fileName n.val.jobid := by
  intro he
  obtain rfl := fileName_inj he
  rcases ho with ⟨j, hj, hid⟩ | ⟨w', -, hi'⟩
  · have hok : StageOk s (.printed jp) := hw ▸ h.ok w
    exact hok n hn j hj hid
  · exact (h.mine w' _ hi').2 (Or.inl ⟨jp, n, hn, rfl⟩)

/-- The files that `build_qonstart` unlinks are nobody else's. -/
theorem Kept.unlinking_own (h : Kept s σ) (hp : Proper s σ) {name : List Byte}
    (hw : σ w = .unlinking name) {i' : Int} (ho : Others s σ w i') : fileName i' ≠ name := by
  rcases ho with ⟨j, hj, rfl⟩ | ⟨w', -, hi'⟩
  · have hok : StageOk s (.unlinking name) := hw ▸ h.ok w
    exact hok j hj
  · have hstart := hp.start w' w i' hi'
    rw [hw] at hstart
    exact absurd hstart (by simp [Stage.starts])

/-! ## What one step preserves -/

/-- `get_newjobno` returns a number under which nobody works. -/
theorem Kept.number (h : Kept s σ) (hi : Unused s σ i) {m : Mem} {o : Out}
    (hm : m.jobs = s.mem.jobs) (ho : unprinted (s.out ++ [o]) = unprinted s.out)
    (hmem : ∀ i', InMemory { s with mem := m, out := s.out ++ [o] } (update σ w (.fresh i)) i' →
      InMemory s σ i') :
    Kept { s with mem := m, out := s.out ++ [o] } (update σ w (.fresh i)) := by
  refine ⟨?_, ?_, ?_, ?_⟩
  · intro j hj
    exact h.files j (ho ▸ hj)
  · intro w' i' hi'
    show (∀ j ∈ unprinted (s.out ++ [o]), j.jobid ≠ i') ∧ _
    rw [ho]
    by_cases hw' : w' = w
    · subst hw'
      rw [update_self] at hi'
      obtain rfl : i = i' := Option.some.inj hi'
      exact ⟨hi.accepted, fun hin => hi.memory (hmem _ hin)⟩
    · rw [update_of_ne hw'] at hi'
      obtain ⟨hne, hmi⟩ := h.mine w' i' hi'
      exact ⟨hne, fun hin => hmi (hmem _ hin)⟩
  · refine fun w₁ w₂ i' => eq_of_hand_update h.once fun w' i₁ _ hi₁ hi' => ?_
    obtain rfl : i = i₁ := Option.some.inj hi₁
    exact hi.received w' hi'
  · intro w'
    by_cases hw' : w' = w
    · subst hw'
      rw [update_self]
      trivial
    · rw [update_of_ne hw']
      refine (h.ok w').same (fun j hj => ho ▸ hj) (fun _ _ => ⟨rfl, rfl⟩) fun jp n' _ hn' => ?_
      exact ⟨n', hm ▸ hn', rfl⟩

/-- The job is accepted, with both files in the spool. -/
theorem Kept.accept (h : Kept s σ) (hp : Proper s σ) {req : PrintReq} (hw : σ w = .full i req) :
    Kept { s with out := s.out ++ [.accepted i req (s.spool.data.get (fileName i))] }
      (update σ w (.passing ⟨i, req⟩)) := by
  obtain ⟨hdata, hreq⟩ : StageOk s (.full i req) := hw ▸ h.ok w
  have hi : (σ w).jobid = some i := by
    rw [hw]
    rfl
  obtain ⟨hne, hmi⟩ := h.mine w i hi
  -- the other threads work under other numbers
  have hother : ∀ w' i', (update σ w (.passing ⟨i, req⟩) w').jobid = some i' →
      w' ≠ w ∧ (σ w').jobid = some i' := by
    intro w' i' hi'
    by_cases hw' : w' = w
    · subst hw'
      rw [update_self] at hi'
      exact absurd hi' (by simp [Stage.jobid])
    · rw [update_of_ne hw'] at hi'
      exact ⟨hw', hi'⟩
  refine ⟨?_, ?_, ?_, ?_⟩
  · intro j hj
    rcases mem_unprinted_accepted.mp hj with hj | rfl
    · exact h.files j hj
    · obtain ⟨bytes, hbytes⟩ := Option.ne_none_iff_exists'.mp hdata
      exact ⟨⟨bytes, hbytes, hbytes⟩, hreq⟩
  · intro w' i' hi'
    obtain ⟨hw', hi'⟩ := hother w' i' hi'
    obtain ⟨hne', hmi'⟩ := h.mine w' i' hi'
    have hii : i ≠ i' := fun he => hw' (h.once w' w i' hi' (he ▸ hi))
    refine ⟨fun j hj => ?_, fun hin => ?_⟩
    · rcases mem_unprinted_accepted.mp hj with hj | rfl
      · exact hne' j hj
      · exact hii
    · rcases hin with hin | ⟨w'', job, hjob, rfl⟩
      · exact hmi' (Or.inl hin)
      · by_cases he : w'' = w
        · subst he
          rw [update_self] at hjob
          cases hjob
          exact hii rfl
        · rw [update_of_ne he] at hjob
          exact hmi' (Or.inr ⟨w'', job, hjob, rfl⟩)
  · intro w₁ w₂ i' h₁ h₂
    exact h.once w₁ w₂ i' (hother w₁ i' h₁).2 (hother w₂ i' h₂).2
  · intro w'
    by_cases hw' : w' = w
    · subst hw'
      rw [update_self]
      trivial
    · rw [update_of_ne hw']
      have hok := h.ok w'
      have hstart := hp.start w w' i hi
      cases hst : σ w' with
      | printed jp =>
        rw [hst] at hok
        intro n hn j hj
        rcases mem_unprinted_accepted.mp hj with hj | rfl
        · exact hok n hn j hj
        · intro he
          exact hmi (Or.inl ⟨jp, n, hn, he.symm⟩)
      -- `build_qonstart` is over
      | reading name bytes =>
        rw [hst] at hstart
        exact absurd hstart (by simp [Stage.starts])
      | unlinking name =>
        rw [hst] at hstart
        exact absurd hstart (by simp [Stage.starts])
      | data i' | control i' req' | full i' req' =>
        rw [hst] at hok
        exact hok
      | _ => trivial

/-- **Every act keeps the files of accepted jobs.** -/
theorem Kept.act (h : Kept s σ) (hp : Proper s σ) (hact : Act a s s' (σ w) st')
    (hnew : σ w = .numbering → Unused s σ s.mem.nextjob)
    (hread : ∀ name bytes e, σ w = .reading name bytes → a ≠ .fail e) :
    Kept s' (update σ w st') := by
  have hokw := h.ok w
  have hown : ∀ i, (σ w).jobid = some i → ∀ i', Others s σ w i' → fileName i' ≠ fileName i :=
    fun i hi i' ho => h.own hi ho
  -- what the step does to the memory
  have hheap : ∀ w' jp n', σ w' = .printed jp → s'.mem.jobs.heap jp = some n' →
      ∃ n, s.mem.jobs.heap jp = some n ∧ n.val = n'.val :=
    fun w' jp n' hw' hn' => hact.vals (hp.held w' jp hw') hn'
  have hmem : (∀ job, st' = .passing job → σ w = .passing job) → ∀ i,
      InMemory s' (update σ w st') i → InMemory s σ i := by
    intro hpass i hin
    rcases hact.inMemory hin with hin | ⟨job, he, rfl⟩
    · exact hin
    · exact Or.inr ⟨w, job, hpass job he, rfl⟩
  generalize hw : σ w = st at hact hnew hread hokw hown hmem
  cases hact with
  | quiet hst hspool hout hquiet =>
    have hU : unprinted s'.out = unprinted s.out := by
      rcases hout with hout | ⟨r, hout⟩
      · exact congrArg _ hout
      · rw [hout, unprinted_rejected]
    have hsame : ∀ name, SameFiles s s' name :=
      fun name => ⟨congrArg (fun sp : Spool => sp.data.get name) hspool,
        congrArg (fun sp : Spool => sp.reqs.get name) hspool⟩
    refine h.keep hw (fun j hj => hU ▸ hj) (fun _ _ => hsame _) ?_ (fun _ i _ => hmem ?_ i) hheap ?_
    · cases hst with
      | same => exact Or.inl rfl
      | ask => exact Or.inr rfl
      | giveUp hi => exact Or.inl hi.symm
      | through => exact Or.inr rfl
    · intro job he
      cases hst with
      | same => exact he
      | ask => exact absurd he (by simp)
      | giveUp => exact absurd he (by simp)
      | through => exact absurd he (by simp)
    · cases hst with
      | same => exact hokw.same (fun j hj => hU ▸ hj) (fun _ _ => hsame _) fun jp n' he => hheap w jp n' (hw.trans he)
      | ask => trivial
      | giveUp => trivial
      | through => trivial
  | malloc _ _ hs =>
    subst hs
    exact h.keep hw (fun _ hj => hj) (fun _ _ => ⟨rfl, rfl⟩) (Or.inr rfl)
      (fun _ i _ => hmem (fun _ => by simp) i) hheap trivial
  | number hs =>
    subst hs
    exact h.number (hnew rfl) rfl unprinted_numbered (hmem fun _ => by simp)
  | @creatData i hs =>
    subst hs
    refine h.keep hw (fun _ hj => hj) (fun i' ho => ⟨Dir.get_set_ne (hown i rfl i' ho), rfl⟩)
      (Or.inl rfl) (fun _ i _ => hmem (fun _ => by simp) i) hheap ?_
    show (s.spool.data.set (fileName i) []).get (fileName i) ≠ none
    rw [Dir.get_set_self]
    exact Option.some_ne_none _
  | @writeData i off bytes _ hst hs =>
    subst hs
    have hdata : StageOk s (.data i) := hokw
    refine h.keep hw (fun _ hj => hj) (fun i' ho => ⟨Dir.get_write_ne (hown i rfl i' ho), rfl⟩)
      ?_ (fun _ i _ => hmem ?_ i) hheap ?_
    · rcases hst with rfl | rfl
      · exact Or.inl rfl
      · exact Or.inl rfl
    · rcases hst with rfl | rfl
      · intro _
        simp
      · intro _
        simp
    · rcases hst with rfl | rfl
      · exact Dir.write_isSome hdata
      · trivial
  | @creatReq i req hs =>
    subst hs
    have hdata : StageOk s (.data i) := hokw
    exact h.keep hw (fun _ hj => hj) (fun i' ho => ⟨rfl, Dir.get_set_ne (hown i rfl i' ho)⟩)
      (Or.inl rfl) (fun _ i _ => hmem (fun _ => by simp) i) hheap ⟨hdata, Dir.get_set_self ..⟩
  | @writeReq i req hs =>
    subst hs
    obtain ⟨hdata, hreq⟩ : StageOk s (.control i req) := hokw
    refine h.keep hw (fun _ hj => hj) (fun i' ho => ⟨rfl, Dir.get_write_ne (hown i rfl i' ho)⟩)
      (Or.inl rfl) (fun _ i _ => hmem (fun _ => by simp) i) hheap ⟨hdata, ?_⟩
    show (s.spool.reqs.write (fileName i) 0 req.bytes).get (fileName i) = some req.bytes
    rw [Dir.get_write_self hreq]
    simp [overwrite]
  | @shortReq i req bytes hs =>
    subst hs
    exact h.keep hw (fun _ hj => hj) (fun i' ho => ⟨rfl, Dir.get_write_ne (hown i rfl i' ho)⟩)
      (Or.inl rfl) (fun _ i _ => hmem (fun _ => by simp) i) hheap trivial
  | accept hs =>
    subst hs
    exact h.accept hp hw
  | @undoReq i hs =>
    subst hs
    exact h.keep hw (fun _ hj => hj) (fun i' ho => ⟨rfl, Dir.get_remove_ne (hown i rfl i' ho)⟩)
      (Or.inl rfl) (fun _ i _ => hmem (fun _ => by simp) i) hheap trivial
  | @undoData i hs =>
    subst hs
    exact h.keep hw (fun _ hj => hj) (fun i' ho => ⟨Dir.get_remove_ne (hown i rfl i' ho), rfl⟩)
      (Or.inr rfl) (fun _ i _ => hmem (fun _ => by simp) i) hheap trivial
  | @print jp n hn hs =>
    subst hs
    refine h.keep hw (fun j hj => (mem_unprinted_printed.mp hj).1) (fun _ _ => ⟨rfl, rfl⟩)
      (Or.inl rfl) (fun _ i _ => hmem (fun _ => by simp) i) hheap ?_
    intro n' hn' j hj
    obtain rfl : n = n' := Option.some.inj (hn.symm.trans hn')
    exact (mem_unprinted_printed.mp hj).2
  | @unlinkData jp n hn hs =>
    subst hs
    exact h.keep hw (fun _ hj => hj)
      (fun _ ho => ⟨Dir.get_remove_ne (h.printed_own hw hn ho), rfl⟩) (Or.inl rfl)
      (fun _ i _ => hmem (fun _ => by simp) i) hheap hokw
  | @unlinkReq jp n hn hs =>
    subst hs
    exact h.keep hw (fun _ hj => hj)
      (fun _ ho => ⟨rfl, Dir.get_remove_ne (h.printed_own hw hn ho)⟩) (Or.inl rfl)
      (fun _ i _ => hmem (fun _ => by simp) i) hheap trivial
  | sprint hs | updateJobno hs =>
    subst hs
    exact h.keep hw (fun _ hj => hj) (fun _ _ => ⟨rfl, rfl⟩) (Or.inl rfl)
      (fun _ i _ => hmem (fun _ => by simp) i) hheap trivial
  | @openReq name bytes hget hs =>
    subst hs
    refine h.keep hw (fun _ hj => hj) (fun _ _ => ⟨rfl, rfl⟩) (Or.inl rfl)
      (fun _ i _ => hmem (fun _ => by simp) i) hheap ?_
    rintro j hj rfl
    exact Option.some.inj (hget.symm.trans (h.files j hj).2)
  | requeue _ hs =>
    subst hs
    refine h.keep hw (fun _ hj => hj) (fun _ _ => ⟨rfl, rfl⟩) (Or.inr rfl) ?_ hheap trivial
    -- there are no client threads yet
    intro w' i' hi' _
    have hstart := hp.start w' w i' hi'
    rw [hw] at hstart
    exact absurd hstart (by simp [Stage.starts])
  | @broken name bytes hreq hs =>
    subst hs
    refine h.keep hw (fun _ hj => hj) (fun _ _ => ⟨rfl, rfl⟩) (Or.inl rfl)
      (fun _ i _ => hmem (fun _ => by simp) i) hheap ?_
    intro j hj hname
    rcases hreq with hreq | ⟨e, he⟩
    · have hbytes : bytes = j.req.bytes := hokw j hj hname
      rw [hbytes, List.take_of_length_le (Nat.le_of_eq j.req.length_bytes),
        PrintReq.ofBytes_bytes] at hreq
      exact absurd hreq (by simp)
    · exact hread name bytes e rfl he
  | @brokenReq name hs =>
    subst hs
    exact h.keep hw (fun _ hj => hj)
      (fun _ ho => ⟨rfl, Dir.get_remove_ne (h.unlinking_own hp hw ho)⟩) (Or.inl rfl)
      (fun _ i _ => hmem (fun _ => by simp) i) hheap hokw
  | @brokenData name hs =>
    subst hs
    exact h.keep hw (fun _ hj => hj)
      (fun _ ho => ⟨Dir.get_remove_ne (h.unlinking_own hp hw ho), rfl⟩) (Or.inr rfl)
      (fun _ i _ => hmem (fun _ => by simp) i) hheap trivial

/-! ## All runs -/

/-- `get_newjobno` returns a number under which nobody works. -/
def NewNumber (d : Daemon) (e : Event) : Prop :=
  ∀ w a p, e = .run w a → d.proc = some p → p.stage w = .numbering →
    Unused (d.sys p) p.stage p.mem.nextjob

/-- In `build_qonstart`, only the `open` of a file that does not exist fails. -/
def Succeeds (d : Daemon) (e : Event) : Prop :=
  ∀ p err, e = .run .main (.fail err) → d.proc = some p →
    ∃ seen name, p.threads .main = some (Main.openReq seen name) ∧ d.spool.reqs.get name = none

section Stages

variable {p : Proc}

/-- Only client threads receive jobs. -/
theorem client_of_jobid (h : (p.stage w).jobid = some i) :
    ∃ t, w = .client t ∧ p.threads (.client t) ≠ none := by
  have hadd : ∀ x : Adding, x.stage.jobid ≠ some i := by
    intro x
    cases x <;> exact fun he => absurd he (by simp [Adding.stage, Stage.jobid])
  unfold Proc.stage at h
  cases w with
  | client t =>
    refine ⟨t, rfl, fun hl => ?_⟩
    rw [hl] at h
    exact absurd h (by simp [stageOf, Stage.jobid])
  | main =>
    cases hl : p.threads .main with
    | none =>
      rw [hl] at h
      exact absurd h (by simp [stageOf, Stage.jobid])
    | some l =>
      rw [hl] at h
      cases l with
      | adding seen x => exact absurd h (hadd x)
      | _ => exact absurd h (by simp [stageOf, Main.stage, Stage.jobid])
  | printer =>
    cases hl : p.threads .printer with
    | none =>
      rw [hl] at h
      exact absurd h (by simp [stageOf, Stage.jobid])
    | some l =>
      rw [hl] at h
      cases l <;> exact absurd h (by simp [stageOf, Printer.stage, Stage.jobid])

/-- Only the main thread is in `build_qonstart`. -/
theorem main_of_starts (h : (p.stage w).starts = true) :
    w = .main ∧ ∃ m : Main, p.threads .main = some m ∧ m.stage.starts = true := by
  have hadd : ∀ x : Adding, x.stage.starts = false := by
    intro x
    cases x <;> rfl
  unfold Proc.stage at h
  cases w with
  | main =>
    cases hl : p.threads .main with
    | none =>
      rw [hl] at h
      exact absurd h (by simp [stageOf, Stage.starts])
    | some m =>
      rw [hl] at h
      exact ⟨rfl, m, rfl, h⟩
  | printer =>
    cases hl : p.threads .printer with
    | none =>
      rw [hl] at h
      exact absurd h (by simp [stageOf, Stage.starts])
    | some l =>
      rw [hl] at h
      cases l <;> exact absurd h (by simp [stageOf, Printer.stage, Stage.starts])
  | client t =>
    cases hl : p.threads (.client t) with
    | none =>
      rw [hl] at h
      exact absurd h (by simp [stageOf, Stage.starts])
    | some l =>
      rw [hl] at h
      obtain ⟨c, k⟩ := l
      cases c with
      | adding x => exact absurd h (by simp [stageOf, Client.stage, hadd])
      | reject r u => cases u <;> exact absurd h (by simp [stageOf, Client.stage, Stage.starts])
      | _ => exact absurd h (by simp [stageOf, Client.stage, Stage.starts])

/-- The job that has been printed is in the hand of the printer thread. -/
theorem addr_of_printed {jp : Nat} (h : p.stage w = .printed jp) :
    (p.phase w).addr = some jp := by
  have hadd : ∀ x : Adding, x.stage ≠ .printed jp := by
    intro x
    cases x <;> exact fun he => absurd he (by simp [Adding.stage])
  unfold Proc.stage at h
  unfold Proc.phase
  cases hl : p.threads w with
  | none =>
    rw [hl] at h
    exact absurd h (by cases w <;> simp [stageOf])
  | some l =>
    rw [hl] at h
    cases w with
    | main =>
      cases l with
      | adding seen x => exact absurd h (hadd x)
      | _ => exact absurd h (by simp [stageOf, Main.stage])
    | printer =>
      cases l with
      | unlinkData jp' | unlinkReq jp' =>
        cases h
        rfl
      | _ => exact absurd h (by simp [stageOf, Printer.stage])
    | client t =>
      obtain ⟨c, k⟩ := l
      cases c with
      | adding x => exact absurd h (hadd x)
      | reject r u => cases u <;> exact absurd h (by simp [stageOf, Client.stage])
      | _ => exact absurd h (by simp [stageOf, Client.stage])

end Stages

/-- Client threads exist only when `build_qonstart` is over. -/
theorem Reach.accepting {C : Daemon → Event → Prop} {d : Daemon} (h : Reach C d) :
    ∀ p, d.proc = some p → ∀ t, p.threads (.client t) ≠ none →
      p.threads .main = some Main.accept := by
  induction h with
  | fresh => exact fun p hp => absurd hp (by simp [Daemon.fresh])
  | @step d d' e _ _ hs ih =>
    rcases step_cases hs with ⟨-, -, rfl⟩ | ⟨-, -, rfl⟩ | ⟨t, k, p, -, hp, hm, -, rfl⟩ |
      ⟨w, a, p, l, l', s, -, hp, hl, hstep, rfl⟩
    · intro p' hp' t ht
      cases hp'
      exact absurd rfl ht
    · intro p' hp'
      exact absurd hp' (by simp)
    · intro p' hp' t' _
      cases hp'
      have hne : Who.main ≠ .client t := by simp
      dsimp only
      rw [update_of_ne hne]
      exact hm
    · intro p' hp' t ht
      cases hp'
      dsimp only at ht ⊢
      by_cases hw : w = .client t
      · subst hw
        have hne : Who.main ≠ .client t := by simp
        refine (update_of_ne hne ..).trans (ih p hp t ?_)
        rw [hl]
        exact Option.some_ne_none _
      · rw [update_of_ne (Ne.symm hw)] at ht
        have hmain := ih p hp t ht
        by_cases hw' : w = .main
        · -- the main thread does not leave the accept loop
          subst hw'
          obtain rfl : l = Main.accept := Option.some.inj (hl.symm.trans hmain)
          exact absurd hstep (by simp [threadStep, mainThread])
        · exact (update_of_ne (Ne.symm hw') ..).trans hmain

theorem Reach.proper {C : Daemon → Event → Prop} {d : Daemon} (h : Reach C d) {p : Proc}
    (hp : d.proc = some p) : Proper (d.sys p) p.stage := by
  obtain ⟨es, hes⟩ := h.queued p hp
  refine ⟨fun w w' i hi => ?_, fun w jp hw => ?_⟩
  · obtain ⟨t, rfl, ht⟩ := client_of_jobid hi
    have hmain := h.accepting p hp t ht
    rw [Bool.eq_false_iff]
    intro hstart
    obtain ⟨-, m, hm, hstart⟩ := main_of_starts hstart
    obtain rfl : m = Main.accept := Option.some.inj (hm.symm.trans hmain)
    exact absurd hstart (by simp [Main.stage, Stage.starts])
  · obtain ⟨-, n, hn, -⟩ := hes.hand w jp (addr_of_printed hw)
    show p.mem.jobs.heap jp ≠ none
    rw [hn]
    exact Option.some_ne_none _

/-- **The invariant holds in every reachable state.** -/
theorem Reach.kept {d : Daemon} (h : Reach (fun d e => NewNumber d e ∧ Succeeds d e) d) :
    (d.proc = none → ∀ j ∈ unprinted d.out, Filed d.spool j) ∧
      ∀ p, d.proc = some p → Kept (d.sys p) p.stage := by
  apply @Reach.stages _ (fun spool out => ∀ j ∈ unprinted out, Filed spool j) Kept ?_ ?_ ?_ ?_ d h
  · intro j hj
    exact absurd hj List.not_mem_nil
  · intro spool out hfiles
    refine ⟨hfiles, ?_, ?_, ?_⟩
    · intro w i hi
      exact absurd hi (by simp [Stage.jobid])
    · intro w w' i hi
      exact absurd hi (by simp [Stage.jobid])
    · intro w
      trivial
  · intro d p _ hk
    exact hk.files
  · intro d p w a l' s' h hp ⟨hnew, hsucc⟩ hact hk
    refine hk.act (h.proper hp) hact (hnew w a p rfl hp) ?_
    rintro name bytes err hw rfl
    have hstart : (p.stage w).starts = true := by
      rw [hw]
      rfl
    obtain ⟨rfl, m, hm, hstart⟩ := main_of_starts hstart
    obtain ⟨seen, name', hopen, -⟩ := hsucc p err rfl hp
    obtain rfl : m = Main.openReq seen name' := Option.some.inj (hm.symm.trans hopen)
    exact absurd hstart (by simp [Main.stage, Stage.starts])

/-- The files of accepted jobs, whether the daemon is running or not. -/
theorem Reach.filed {d : Daemon} (h : Reach (fun d e => NewNumber d e ∧ Succeeds d e) d) :
    ∀ j ∈ unprinted d.out, Filed d.spool j := by
  cases hp : d.proc with
  | none => exact h.kept.1 hp
  | some p => exact (h.kept.2 p hp).files

end LearningNotes.Printd
