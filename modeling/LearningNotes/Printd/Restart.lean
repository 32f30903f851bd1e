import LearningNotes.Printd.Counter
import LearningNotes.Printd.Spool

/-!
# What `build_qonstart` finds

After a restart the main thread goes through the request directory, while the printer thread
already works on the jobs that have been added. `Progress` follows one job that was accepted
before the restart: either its file is still to come, or is the one that is open, or the job has
been added, once.
-/

namespace LearningNotes.Printd

open Function (update update_self update_of_ne)

variable {C : Daemon → Event → Prop} {d d₀ d' : Daemon} {p : Proc} {s s' : Sys}
  {σ : Who → Stage} {w : Who} {st st' : Stage} {a : Ans} {i : Int} {j : Accepted}

/-! ## Names in the request directory -/

/-- All numbers are `int32_t`, and all files in the request directory are named by numbers. -/
structure Named (s : Sys) (σ : Who → Stage) : Prop where
  next : IsInt32 s.mem.nextjob
  mine : ∀ w i, (σ w).jobid = some i → IsInt32 i
  reqs : ∀ name ∈ s.spool.reqs.map Prod.fst, ∃ i, IsInt32 i ∧ name = fileName i
  reading : ∀ w name bytes, σ w = .reading name bytes → ∃ i, IsInt32 i ∧ name = fileName i
  accepted : ∀ j ∈ unprinted s.out, IsInt32 j.jobid

theorem Named.keep (h : Named s σ) (hw : σ w = st) (hnext : IsInt32 s'.mem.nextjob)
    (hreqs : ∀ name ∈ s'.spool.reqs.map Prod.fst,
      name ∈ s.spool.reqs.map Prod.fst ∨ ∃ i, IsInt32 i ∧ name = fileName i)
    (hid : ∀ i, st'.jobid = some i → st.jobid = some i ∨ IsInt32 i)
    (hreading : ∀ name bytes, st' = .reading name bytes → ∃ i, IsInt32 i ∧ name = fileName i)
    (hU : ∀ j ∈ unprinted s'.out, j ∈ unprinted s.out ∨ IsInt32 j.jobid) :
    Named s' (update σ w st') := by
  refine ⟨hnext, fun w' i hi => ?_, fun name hn => ?_, fun w' name bytes he => ?_, fun j hj => ?_⟩
  · by_cases hw' : w' = w
    · subst hw'
      rw [update_self] at hi
      rcases hid i hi with hst | hint
      · exact h.mine w' i (by rw [hw, hst])
      · exact hint
    · rw [update_of_ne hw'] at hi
      exact h.mine w' i hi
  · exact (hreqs name hn).elim (h.reqs name) id
  · by_cases hw' : w' = w
    · subst hw'
      rw [update_self] at he
      exact hreading name bytes he
    · rw [update_of_ne hw'] at he
      exact h.reading w' name bytes he
  · exact (hU j hj).elim (h.accepted j) id

theorem Named.act (h : Named s σ) (hact : Act a s s' (σ w) st') : Named s' (update σ w st') := by
  have hmine : ∀ i, (σ w).jobid = some i → IsInt32 i := h.mine w
  have hread : ∀ name bytes, σ w = .reading name bytes → ∃ i, IsInt32 i ∧ name = fileName i :=
    h.reading w
  generalize hw : σ w = st at hact hmine hread
  cases hact with
  | quiet hst hspool hout hquiet =>
    have hU : unprinted s'.out = unprinted s.out := by
      rcases hout with hout | ⟨r, hout⟩
      · exact congrArg _ hout
      · rw [hout, unprinted_rejected]
    refine h.keep hw (hquiet.nextjob ▸ h.next) (fun _ hn => Or.inl (hspool ▸ hn)) ?_ ?_
      fun j hj => Or.inl (hU ▸ hj)
    · intro i hi
      cases hst with
      | same => exact Or.inl hi
      | ask => exact absurd hi (by simp [Stage.jobid])
      | giveUp hi' => exact Or.inl (hi'.trans hi)
      | through => exact absurd hi (by simp [Stage.jobid])
    · intro name bytes he
      cases hst with
      | same => exact hread name bytes he
      | ask => exact absurd he (by simp)
      | giveUp => exact absurd he (by simp)
      | through => exact absurd he (by simp)
  | number hs =>
    subst hs
    refine h.keep hw (bumpJobno_pos s.mem).2 (fun _ hn => Or.inl hn) ?_ (fun _ _ => by simp)
      fun j hj => Or.inl (unprinted_numbered ▸ hj)
    intro i hi
    cases hi
    exact Or.inr h.next
  | @writeData i off bytes _ hst hs =>
    subst hs
    refine h.keep hw h.next (fun _ hn => Or.inl hn) ?_ ?_ fun j hj => Or.inl hj
    · rcases hst with rfl | rfl
      · intro _ hi
        exact Or.inl hi
      · intro _ hi
        exact Or.inl hi
    · rcases hst with rfl | rfl
      · intro _ _
        simp
      · intro _ _
        simp
  | @creatReq i req hs =>
    subst hs
    refine h.keep hw h.next (fun name hn => ?_) (fun _ hi => Or.inl hi) (fun _ _ => by simp)
      fun j hj => Or.inl hj
    -- the only new name is that of the job's own number
    rcases Dir.names_set hn with rfl | hn
    · exact Or.inr ⟨i, hmine i rfl, rfl⟩
    · exact Or.inl hn
  | writeReq hs | shortReq hs =>
    subst hs
    exact h.keep hw h.next (fun _ hn => Or.inl (Dir.names_write hn)) (fun _ hi => Or.inl hi)
      (fun _ _ => by simp) fun j hj => Or.inl hj
  | @accept i req hs =>
    subst hs
    refine h.keep hw h.next (fun _ hn => Or.inl hn) (fun i hi => absurd hi (by simp [Stage.jobid]))
      (fun _ _ => by simp) fun j hj => ?_
    rcases mem_unprinted_accepted.mp hj with hj | rfl
    · exact Or.inl hj
    · exact Or.inr (hmine i rfl)
  | undoReq hs =>
    subst hs
    exact h.keep hw h.next (fun _ hn => Or.inl (Dir.names_remove hn)) (fun _ hi => Or.inl hi)
      (fun _ _ => by simp) fun j hj => Or.inl hj
  | unlinkReq _ hs | brokenReq hs =>
    subst hs
    exact h.keep hw h.next (fun _ hn => Or.inl (Dir.names_remove hn))
      (fun i hi => absurd hi (by simp [Stage.jobid])) (fun _ _ => by simp) fun j hj => Or.inl hj
  | print _ hs =>
    subst hs
    exact h.keep hw h.next (fun _ hn => Or.inl hn) (fun i hi => absurd hi (by simp [Stage.jobid]))
      (fun _ _ => by simp) fun j hj => Or.inl (mem_unprinted_printed.mp hj).1
  | openReq hget hs =>
    subst hs
    refine h.keep hw h.next (fun _ hn => Or.inl hn) (fun i hi => absurd hi (by simp [Stage.jobid]))
      (fun name bytes he => ?_) fun j hj => Or.inl hj
    cases he
    -- a name that is read has been found in the directory
    exact h.reqs _ (Dir.mem_of_get hget)
  | creatData hs =>
    subst hs
    exact h.keep hw h.next (fun _ hn => Or.inl hn) (fun _ hi => Or.inl hi) (fun _ _ => by simp)
      fun j hj => Or.inl hj
  | malloc _ _ hs | unlinkData _ hs | requeue _ hs | broken _ hs =>
    subst hs
    exact h.keep hw h.next (fun _ hn => Or.inl hn) (fun i hi => absurd hi (by simp [Stage.jobid]))
      (fun _ _ => by simp) fun j hj => Or.inl hj
  | undoData hs | sprint hs | updateJobno hs | brokenData hs =>
    subst hs
    exact h.keep hw h.next (fun _ hn => Or.inl hn) (fun i hi => absurd hi (by simp [Stage.jobid]))
      (fun _ _ => by simp) fun j hj => Or.inl hj

/-- The counter is an `int32_t`. -/
theorem isInt32_readJobno (jobno : List Byte) : IsInt32 (readJobno jobno) := by
  unfold readJobno
  dsimp only
  split
  · exact ⟨by decide, by decide⟩
  · exact isInt32_int32 _

theorem Reach.named (h : Reach C d) :
    (d.proc = none → (∀ name ∈ d.spool.reqs.map Prod.fst, ∃ i, IsInt32 i ∧ name = fileName i) ∧
      ∀ j ∈ unprinted d.out, IsInt32 j.jobid) ∧
      ∀ p, d.proc = some p → Named (d.sys p) p.stage := by
  apply @Reach.stages C (fun spool out =>
    (∀ name ∈ spool.reqs.map Prod.fst, ∃ i, IsInt32 i ∧ name = fileName i) ∧
      ∀ j ∈ unprinted out, IsInt32 j.jobid) Named ?_ ?_ ?_ ?_ d h
  · exact ⟨fun name hn => absurd hn List.not_mem_nil, fun j hj => absurd hj List.not_mem_nil⟩
  · intro spool out ⟨hreqs, hacc⟩
    refine ⟨isInt32_readJobno _, ?_, hreqs, ?_, hacc⟩
    · intro w i hi
      exact absurd hi (by simp [Stage.jobid])
    · intro w name bytes he
      exact absurd he (by simp)
  · intro d p _ hn
    exact ⟨hn.reqs, hn.accepted⟩
  · intro d p w a l' s' _ _ _ hact hn
    exact hn.act hact

/-! ## One accepted job -/

/-- The entries that `readdir` has returned. -/
def Main.seen : Main → List (List Byte)
  | .readdir seen | .openReq seen _ | .readReq seen _ _ | .unlinkReq seen _ | .unlinkData seen _
  | .adding seen _ => seen
  | .opendir | .accept => []

/-- The entry that `build_qonstart` works on. -/
def Main.name : Main → Option (List Byte)
  | .openReq _ name | .readReq _ name _ | .unlinkReq _ name | .unlinkData _ name => some name
  | .opendir | .readdir _ | .adding _ _ | .accept => none

/-- Where the request file of a job is that is not added yet. -/
inductive Todo (m : Main) (j : Accepted) : Prop where
  | toCome (hseen : fileName j.jobid ∉ m.seen) (hname : m.name ≠ some (fileName j.jobid))
  | found (seen : List (List Byte)) (hseen : fileName j.jobid ∈ seen)
      (h : m = .openReq seen (fileName j.jobid))
  | opened (seen : List (List Byte)) (hseen : fileName j.jobid ∈ seen)
      (h : m = .readReq seen (fileName j.jobid) j.req.bytes)

/-- What has become of an accepted job since the restart. -/
inductive Progress (s : Sys) (σ : Who → Stage) (m : Main) (j : Accepted) : Prop where
  | todo (hj : j ∈ unprinted s.out) (hmem : ¬ InMemory s σ j.jobid)
      (hnot : ∀ job ∈ s.mem.requeued, job.jobid ≠ j.jobid) (hm : m ≠ .accept) (h : Todo m j)
  | done (h : s.mem.requeued.filter (·.jobid = j.jobid) = [⟨j.jobid, j.req⟩])
      (hm : m = .accept ∨ fileName j.jobid ∈ m.seen ∧ m.name ≠ some (fileName j.jobid))

/-- Only `build_qonstart` adds to the jobs that it has added. -/
theorem Act.requeued (h : Act a s s' st st') :
    s'.mem.requeued = s.mem.requeued ∨ st.starts = true := by
  cases h with
  | quiet _ _ _ hquiet => exact Or.inl hquiet.requeued
  | requeue => exact Or.inr rfl
  | number hs | creatData hs | creatReq hs | writeReq hs | shortReq hs | accept hs | undoReq hs
  | undoData hs | sprint hs | updateJobno hs | brokenReq hs | brokenData hs =>
    subst hs
    exact Or.inl rfl
  | malloc _ _ hs | writeData _ hs | print _ hs | unlinkData _ hs | unlinkReq _ hs | openReq _ hs
  | broken _ hs =>
    subst hs
    exact Or.inl rfl

/-- Only a job in memory is printed. -/
theorem Act.stays (h : Act a s s' st st') (hj : j ∈ unprinted s.out)
    (hmem : ¬ InMemory s σ j.jobid) : j ∈ unprinted s'.out := by
  cases h with
  | quiet _ _ hout _ =>
    rcases hout with hout | ⟨r, hout⟩
    · rwa [hout]
    · rwa [hout, unprinted_rejected]
  | number hs =>
    subst hs
    show j ∈ unprinted (s.out ++ [_])
    rwa [unprinted_numbered]
  | accept hs =>
    subst hs
    exact mem_unprinted_accepted.mpr (Or.inl hj)
  | print hn hs =>
    subst hs
    exact mem_unprinted_printed.mpr ⟨hj, fun he => hmem (Or.inl ⟨_, _, hn, he.symm⟩)⟩
  | creatData hs | creatReq hs | writeReq hs | shortReq hs | undoReq hs | undoData hs | sprint hs
  | updateJobno hs | brokenReq hs | brokenData hs =>
    subst hs
    exact hj
  | malloc _ _ hs | writeData _ hs | unlinkData _ hs | unlinkReq _ hs | openReq _ hs | requeue _ hs
  | broken _ hs =>
    subst hs
    exact hj

/-- The job is still to be added after a step that adds no job with its number. -/
theorem Progress.wait {m : Main} (hact : Act a s s' (σ w) st') (hj : j ∈ unprinted s.out)
    (hmem : ¬ InMemory s σ j.jobid) (hnot : ∀ job ∈ s'.mem.requeued, job.jobid ≠ j.jobid)
    (hpass : ∀ job, st' = .passing job → job.jobid ≠ j.jobid) (hm : m ≠ .accept) (h : Todo m j) :
    Progress s' (update σ w st') m j := by
  refine .todo (hact.stays hj hmem) (fun hin => ?_) hnot hm h
  rcases hact.inMemory hin with hin | ⟨job, he, hid⟩
  · exact hmem hin
  · exact hpass job he hid

/-- **A step that adds no job**, and goes on with the same entry or leaves it. What it makes of the
request file of the job, if it works on that, is `hat`. -/
theorem Progress.goOn {m m' : Main} (h : Progress s σ m j) (hact : Act a s s' (σ .main) m'.stage)
    (hreq : s'.mem.requeued = s.mem.requeued) (hm : m ≠ .accept) (hm' : m' ≠ .accept)
    (hseen : m'.seen = m.seen) (hname : m'.name = m.name ∨ m'.name = none)
    (hpass : ∀ job, m'.stage ≠ .passing job)
    (hat : j ∈ unprinted s.out → ∀ seen, fileName j.jobid ∈ seen →
      m = .openReq seen (fileName j.jobid) ∨ m = .readReq seen (fileName j.jobid) j.req.bytes →
      Todo m' j) :
    Progress s' (update σ .main m'.stage) m' j := by
  have hleft : m.name ≠ some (fileName j.jobid) → m'.name ≠ some (fileName j.jobid) := by
    intro hne
    rcases hname with hsame | hnone
    · rwa [hsame]
    · rw [hnone]
      simp
  cases h with
  | todo hj hmem hnot _ ht =>
    refine .wait hact hj hmem (hreq ▸ hnot) (fun job he => absurd he (hpass job)) hm' ?_
    cases ht with
    | toCome hs hne => exact .toCome (hseen.symm ▸ hs) (hleft hne)
    | found seen hs he => exact hat hj seen hs (Or.inl he)
    | opened seen hs he => exact hat hj seen hs (Or.inr he)
  | done h hdone =>
    rcases hdone with he | ⟨hs, hne⟩
    · exact absurd he hm
    · exact .done (hreq ▸ h) (Or.inr ⟨hseen.symm ▸ hs, hleft hne⟩)

/-- **A step of the main thread.** -/
theorem Progress.main {m m' : Main} (h : Progress s σ m j) (hσ : σ .main = m.stage)
    (hk : Kept s σ) (hn : Named s σ)
    (hsucc : ∀ err, a = .fail err → ∃ seen name, m = .openReq seen name ∧ s.spool.reqs.get name = none)
    (hstep : mainThread m s a = some (m', s')) : Progress s' (update σ .main m'.stage) m' j := by
  have hact : Act a s s' (σ .main) m'.stage := hσ ▸ mainThread_act hstep
  have hreading : ∀ name bytes, m.stage = .reading name bytes →
      ∃ i, IsInt32 i ∧ name = fileName i := by
    intro name bytes he
    exact hn.reading .main name bytes (hσ.trans he)
  cases m with
  | opendir =>
    cases a with
    | ok =>
      cases hstep
      exact h.goOn hact rfl (by simp) (by simp) rfl (Or.inl rfl) (by simp [Main.stage])
        fun _ _ _ he => by simp at he
    | fail err =>
      obtain ⟨seen, name, he, -⟩ := hsucc err rfl
      exact absurd he (by simp)
    | _ => exact absurd hstep (by simp [mainThread])
  | readdir seen =>
    simp only [mainThread] at hstep
    split at hstep
    · next name =>
      split at hstep
      · exact absurd hstep (by simp)
      · next hnew =>
        cases hstep
        cases h with
        | todo hj hmem hnot _ ht =>
          refine .wait hact hj hmem hnot (fun _ => by simp [Main.stage]) (by simp) ?_
          cases ht with
          | toCome hseen _ =>
            by_cases he : fileName j.jobid = name
            · subst he
              exact .found _ List.mem_cons_self rfl
            · refine .toCome ?_ fun hname => he (Option.some.inj hname).symm
              intro hmem
              exact (List.mem_cons.mp hmem).elim he hseen
          | found _ _ he => exact absurd he (by simp)
          | opened _ _ he => exact absurd he (by simp)
        | done h hm =>
          rcases hm with hm | ⟨hm, -⟩
          · exact absurd hm (by simp)
          · refine .done h (Or.inr ⟨List.mem_cons_of_mem _ hm, fun hname => ?_⟩)
            exact hnew (Option.some.inj hname ▸ hm)
    · split at hstep
      · next hall =>
        cases hstep
        cases h with
        | todo hj _ _ _ ht =>
          -- the file is there, and so `readdir` has returned it
          have hin := Dir.mem_of_get (hk.files j hj).2
          obtain ⟨f, hf, hname⟩ := List.mem_map.mp hin
          have hseen : f.1 ∈ seen := by simpa using List.all_eq_true.mp hall f hf
          rw [hname] at hseen
          cases ht with
          | toCome hnot _ => exact absurd hseen hnot
          | found _ _ he => exact absurd he (by simp)
          | opened _ _ he => exact absurd he (by simp)
        | done h _ => exact .done h (Or.inl rfl)
      · exact absurd hstep (by simp)
    · exact absurd hstep (by simp)
  | openReq seen name =>
    simp only [mainThread] at hstep
    split at hstep
    · next bytes hget =>
      cases hstep
      refine h.goOn hact rfl (by simp) (by simp) rfl (Or.inl rfl) (by simp [Main.stage]) ?_
      intro hj seen' hseen he
      rcases he with he | he
      · cases he
        obtain rfl : bytes = j.req.bytes := Option.some.inj (hget.symm.trans (hk.files j hj).2)
        exact .opened seen hseen rfl
      · exact absurd he (by simp)
    · next err =>
      cases hstep
      refine h.goOn hact rfl (by simp) (by simp) rfl (Or.inr rfl) (by simp [Main.stage]) ?_
      intro hj seen' _ he
      rcases he with he | he
      · -- the file exists
        cases he
        obtain ⟨seen', name', he, hnone⟩ := hsucc err rfl
        cases he
        exact absurd (hnone.symm.trans (hk.files j hj).2) (by simp)
      · exact absurd he (by simp)
    · exact absurd hstep (by simp)
  | readReq seen name bytes =>
    obtain ⟨i, hi, rfl⟩ := hreading name bytes rfl
    simp only [mainThread] at hstep
    split at hstep
    · next req hreq =>
      cases hstep
      have hid : int32 (atol (fileName i)) = i := jobid_fileName hi
      cases h with
      | todo hj hmem hnot _ ht =>
        cases ht with
        | toCome hseen hname =>
          have hne : i ≠ j.jobid := fun he => hname (congrArg (fun n => some (fileName n)) he)
          refine .wait hact hj hmem ?_ ?_ (by simp) (.toCome hseen (by simp [Main.name]))
          · intro job hjob
            rcases List.mem_append.mp hjob with hjob | hjob
            · exact hnot job hjob
            · rw [List.mem_singleton.mp hjob]
              show int32 (atol (fileName i)) ≠ j.jobid
              rw [hid]
              exact hne
          · rintro job he
            cases he
            show int32 (atol (fileName i)) ≠ j.jobid
            rw [hid]
            exact hne
        | found _ _ he => exact absurd he (by simp)
        | opened _ hseen he =>
          obtain ⟨rfl, hname, rfl⟩ : seen = _ ∧ fileName i = _ ∧ bytes = _ := by simpa using he
          obtain rfl : i = j.jobid := fileName_inj hname
          rw [List.take_of_length_le (Nat.le_of_eq j.req.length_bytes), PrintReq.ofBytes_bytes] at hreq
          cases hreq
          refine .done ?_ (Or.inr ⟨hseen, by simp [Main.name]⟩)
          have hnil : s.mem.requeued.filter (·.jobid = j.jobid) = [] :=
            List.filter_eq_nil_iff.mpr fun job hjob => by simpa using hnot job hjob
          show (s.mem.requeued ++ [_]).filter (fun job : Job => job.jobid = j.jobid) = _
          rw [List.filter_append, hnil, hid]
          simp
      | done h hm =>
        rcases hm with hm | ⟨hm, hname⟩
        · exact absurd hm (by simp)
        · have hne : i ≠ j.jobid := fun he => hname (congrArg (fun n => some (fileName n)) he)
          refine .done ?_ (Or.inr ⟨hm, by simp [Main.name]⟩)
          show (s.mem.requeued ++ [_]).filter (fun job : Job => job.jobid = j.jobid) = _
          rw [List.filter_append, h, hid]
          simp [hne]
    · next hreq =>
      cases hstep
      refine h.goOn hact rfl (by simp) (by simp) rfl (Or.inl rfl) (by simp [Main.stage]) ?_
      intro hj seen' _ he
      rcases he with he | he
      · exact absurd he (by simp)
      · -- the file is complete
        obtain ⟨-, -, rfl⟩ : seen = _ ∧ fileName i = _ ∧ bytes = _ := by simpa using he
        rw [List.take_of_length_le (Nat.le_of_eq j.req.length_bytes), PrintReq.ofBytes_bytes] at hreq
        exact absurd hreq (by simp)
    · next err =>
      obtain ⟨seen, name, he, -⟩ := hsucc err rfl
      exact absurd he (by simp)
    · exact absurd hstep (by simp)
  | unlinkReq seen name =>
    cases hstep
    exact h.goOn hact rfl (by simp) (by simp) rfl (Or.inl rfl) (by simp [Main.stage])
      fun _ _ _ he => by simp at he
  | unlinkData seen name =>
    cases hstep
    exact h.goOn hact rfl (by simp) (by simp) rfl (Or.inr rfl) (by simp [Main.stage])
      fun _ _ _ he => by simp at he
  | adding seen x =>
    obtain ⟨⟨x', mem⟩, hx, he⟩ := Option.map_eq_some_iff.mp hstep
    cases he
    obtain ⟨hst, hreq⟩ := addJob_stage hx
    cases x' with
    | none =>
      -- the next entry
      exact h.goOn hact hreq (by simp) (by simp) rfl (Or.inl rfl) (by simp [Main.stage])
        fun _ _ _ he => by simp at he
    | some x' =>
      -- the rest of `add_job`
      have hstage : (Main.adding seen x').stage = .none := hst
      exact h.goOn hact hreq (by simp) (by simp) rfl (Or.inl rfl) (by simp [hstage])
        fun _ _ _ he => by simp at he
  | accept => exact absurd hstep (by simp [mainThread])

/-- A step of the printer thread while the main thread is in `build_qonstart`, or of any thread
after it. -/
theorem Progress.other {m : Main} (h : Progress s σ m j) (hact : Act a s s' (σ w) st')
    (hstart : (σ w).starts = false) (hpass : m ≠ .accept → ∀ job, st' ≠ .passing job) :
    Progress s' (update σ w st') m j := by
  have hreq : s'.mem.requeued = s.mem.requeued :=
    hact.requeued.resolve_right (by rw [hstart]; simp)
  cases h with
  | todo hj hmem hnot hm ht =>
    exact .wait hact hj hmem (hreq ▸ hnot) (fun job he => absurd he (hpass hm job)) hm ht
  | done h hm => exact .done (hreq ▸ h) hm

/-! ## From the restart on -/

/-- The states that are reached from a restart on, before the daemon is terminated again. -/
inductive Since (C : Daemon → Event → Prop) (d₀ : Daemon) : Daemon → Prop where
  | start {d : Daemon} (hc : C d₀ .start) (hs : step d₀ .start = some d) : Since C d₀ d
  | step {d d' : Daemon} {e : Event} (h : Since C d₀ d) (hc : C d e) (hk : e ≠ .kill)
      (hs : step d e = some d') : Since C d₀ d'

theorem Since.reach (h : Since C d₀ d) (h₀ : Reach C d₀) : Reach C d := by
  induction h with
  | start hc hs => exact h₀.step hc hs
  | step _ hc _ hs ih => exact ih.step hc hs

/-- The printer thread passes nothing to `add_job`. -/
theorem printer_stage_ne {l : Option (Local .printer)} {job : Job} :
    stageOf .printer l ≠ .passing job := by
  cases l with
  | none => simp [stageOf]
  | some l => cases l <;> simp [stageOf, Printer.stage]

theorem Since.progress (h : Since (fun d e => NewNumber d e ∧ Succeeds d e) d₀ d)
    (h₀ : Reach (fun d e => NewNumber d e ∧ Succeeds d e) d₀) (hj : j ∈ unprinted d₀.out) :
    ∃ p m, d.proc = some p ∧ p.threads .main = some m ∧ Progress (d.sys p) p.stage m j := by
  induction h with
  | @start d hc hs =>
    rcases step_cases hs with ⟨-, hp, rfl⟩ | ⟨he, -⟩ | ⟨_, _, _, he, -⟩ | ⟨_, _, _, _, _, _, he, -⟩
    · refine ⟨_, .opendir, rfl, rfl, .todo hj ?_ (fun _ hjob => absurd hjob List.not_mem_nil) (by simp)
        (.toCome List.not_mem_nil (by simp [Main.name]))⟩
      rw [stage_start]
      rintro (⟨b, n, hn, -⟩ | ⟨w, job, hw, -⟩)
      · exact absurd hn (by simp [Daemon.sys, initRequest])
      · exact absurd hw (by simp)
    · exact absurd he (by simp)
    · exact absurd he (by simp)
    · exact absurd he (by simp)
  | @step d d' e h hc hkill hs ih =>
    obtain ⟨p, m, hp, hm, hprog⟩ := ih
    have hr := h.reach h₀
    rcases step_cases hs with ⟨-, hnone, -⟩ | ⟨he, -⟩ | ⟨t, k, p', -, hp', hacc, ht, rfl⟩ |
      ⟨w, a, p', l, l', s, rfl, hp', hl, hstep, rfl⟩
    · exact absurd (hp.symm.trans hnone) (by simp)
    · exact absurd he hkill
    · obtain rfl : p = p' := Option.some.inj (hp.symm.trans hp')
      refine ⟨_, m, rfl, (p.threads_ne _ _ (by simp)).trans hm, ?_⟩
      rw [stage_accept ht]
      exact hprog
    · obtain rfl : p = p' := Option.some.inj (hp.symm.trans hp')
      have hstage : p.stage w = stageOf w (some l) := by
        unfold Proc.stage
        rw [hl]
      by_cases hw : w = .main
      · subst hw
        obtain rfl : m = l := Option.some.inj (hm.symm.trans hl)
        obtain ⟨⟨m', s''⟩, hmain, he⟩ := Option.map_eq_some_iff.mp hstep
        cases he
        refine ⟨_, m', rfl, p.threads_self .., ?_⟩
        rw [Proc.stage_update]
        refine hprog.main hstage (hr.kept.2 p hp) (hr.named.2 p hp) ?_ hmain
        rintro err rfl
        obtain ⟨seen, name, hopen, hno⟩ := hc.2 p err rfl hp
        exact ⟨seen, name, Option.some.inj (hm.symm.trans hopen), hno⟩
      · refine ⟨_, m, rfl, (p.threads_ne _ _ (Ne.symm hw)).trans hm, ?_⟩
        have hact := threadStep_act hstep
        rw [← hstage] at hact
        rw [Proc.stage_update]
        refine hprog.other hact ?_ ?_
        · rw [Bool.eq_false_iff]
          intro hstart
          exact hw (main_of_starts hstart).1
        · intro hacc job
          cases w with
          | main => exact absurd rfl hw
          | printer => exact printer_stage_ne
          | client t =>
            -- client threads exist only in the accept loop
            have hmain := hr.accepting p hp t (by rw [hl]; exact Option.some_ne_none _)
            exact absurd (Option.some.inj (hm.symm.trans hmain)) hacc

/-- What `build_qonstart` has added has arrived, but for the job in its hand. -/
def Handed (m : Mem) : Main → Prop
  | .accept => m.requeued <+: m.arrived
  | .adding _ (.malloc job) => m.requeued = m.arrived ++ [job]
  | .adding _ (.lock b) | .adding _ (.link b) =>
    ∃ n, m.jobs.heap b = some n ∧ m.requeued = m.arrived ++ [n.val]
  | _ => m.requeued = m.arrived

/-- Jobs arrive in the section of `add_job` only. -/
theorem Move.arrived {m m' : Mem} {φ φ' : Phase} (h : Move w m m' φ φ') :
    m'.arrived = m.arrived ∨
      ∃ b n, φ = .linking b ∧ m.jobs.heap b = some n ∧ m'.arrived = m.arrived ++ [n.val] := by
  cases h with
  | same h => exact Or.inl h.arrived
  | link hn _ hm =>
    subst hm
    exact Or.inr ⟨_, _, rfl, hn, rfl⟩
  | lock _ _ hm | unlock _ hm | malloc _ hm | wait _ _ hm | wake _ hm | free _ _ hm | put _ _ hm =>
    subst hm
    exact Or.inl rfl
  | signal hm =>
    subst hm
    exact Or.inl rfl
  | pick _ _ _ hm =>
    subst hm
    exact Or.inl rfl

/-- The printer thread adds no jobs. -/
theorem printer_phase_ne {l : Option (Local .printer)} {b : Nat} :
    phaseOf .printer l ≠ .linking b := by
  cases l with
  | none => simp [phaseOf]
  | some l => cases l <;> simp [phaseOf, Printer.phase]

/-- The node in the hand of the main thread. -/
def Main.addr : Main → Option Nat
  | .adding _ (.lock b) | .adding _ (.link b) => some b
  | _ => none

theorem Main.addr_phase {m : Main} {b : Nat} (h : m.addr = some b) :
    (m.phase).addr = some b := by
  cases m with
  | adding seen x =>
    cases x with
    | lock b' | link b' => exact h
    | _ => exact absurd h (by simp [Main.addr])
  | _ => exact absurd h (by simp [Main.addr])

/-- The node in the hand of the main thread keeps its job. -/
theorem Handed.keep {m m' : Mem} {l : Main} (h : Handed m l) (hreq : m'.requeued = m.requeued)
    (harr : m'.arrived = m.arrived ∨ l = .accept ∧ m.arrived <+: m'.arrived)
    (hheap : ∀ b n, l.addr = some b → m.jobs.heap b = some n →
      ∃ n', m'.jobs.heap b = some n' ∧ n'.val = n.val) : Handed m' l := by
  rcases harr with harr | ⟨rfl, harr⟩
  · have hadd : ∀ b, l.addr = some b → (∃ n, m.jobs.heap b = some n ∧ m.requeued = m.arrived ++ [n.val]) →
        ∃ n, m'.jobs.heap b = some n ∧ m'.requeued = m'.arrived ++ [n.val] := by
      rintro b hb ⟨n, hn, he⟩
      obtain ⟨n', hn', hval⟩ := hheap b n hb hn
      exact ⟨n', hn', by rw [hreq, harr, hval, he]⟩
    cases l with
    | adding seen x =>
      cases x with
      | lock b | link b => exact hadd b rfl h
      | malloc job =>
        show m'.requeued = m'.arrived ++ [job]
        rw [hreq, harr]
        exact h
      | unlock | signal =>
        show m'.requeued = m'.arrived
        rw [hreq, harr]
        exact h
    | accept =>
      show m'.requeued <+: m'.arrived
      rw [hreq, harr]
      exact h
    | opendir | readdir _ | openReq _ _ | readReq _ _ _ | unlinkReq _ _ | unlinkData _ _ =>
      show m'.requeued = m'.arrived
      rw [hreq, harr]
      exact h
  · show m'.requeued <+: m'.arrived
    rw [hreq]
    exact List.IsPrefix.trans h harr

theorem addJob_handed {seen : List (List Byte)} {x : Adding} {x' : Option Adding} {m m' : Mem}
    (hx : addJob .main x m a = some (x', m')) (h : Handed m (.adding seen x)) :
    Handed m' (x'.elim (.readdir seen) (.adding seen)) := by
  cases x with
  | malloc job =>
    cases a with
    | addr b =>
      simp only [addJob] at hx
      split at hx
      · cases hx
        exact ⟨_, Heap.set_self .., h⟩
      · exact absurd hx (by simp)
    | _ => exact absurd hx (by simp [addJob])
  | lock b =>
    cases a with
    | ok =>
      simp only [addJob] at hx
      split at hx
      · cases hx
        exact h
      · exact absurd hx (by simp)
    | _ => exact absurd hx (by simp [addJob])
  | link b =>
    cases a with
    | ok =>
      simp only [addJob] at hx
      split at hx
      · next n jobs hn hpush =>
        cases hx
        obtain ⟨n', hn', he⟩ := h
        -- what is linked is what `malloc` has made
        obtain rfl : n = n' := Option.some.inj (hn.symm.trans hn')
        exact he
      · exact absurd hx (by simp)
    | _ => exact absurd hx (by simp [addJob])
  | unlock | signal =>
    cases a with
    | ok =>
      cases hx
      exact h
    | _ => exact absurd hx (by simp [addJob])

theorem mainThread_handed {l l' : Main} (hstep : mainThread l s a = some (l', s'))
    (h : Handed s.mem l) : Handed s'.mem l' := by
  cases l with
  | opendir =>
    cases a with
    | ok =>
      cases hstep
      exact h
    | fail err =>
      cases hstep
      exact ⟨[], (List.append_nil _).trans h⟩
    | _ => exact absurd hstep (by simp [mainThread])
  | readdir seen =>
    simp only [mainThread] at hstep
    split at hstep
    · split at hstep
      · exact absurd hstep (by simp)
      · cases hstep
        exact h
    · split at hstep
      · cases hstep
        exact ⟨[], (List.append_nil _).trans h⟩
      · exact absurd hstep (by simp)
    · exact absurd hstep (by simp)
  | openReq seen name =>
    simp only [mainThread] at hstep
    split at hstep
    · cases hstep
      exact h
    · cases hstep
      exact h
    · exact absurd hstep (by simp)
  | readReq seen name bytes =>
    simp only [mainThread] at hstep
    split at hstep
    · next req hreq =>
      cases hstep
      -- the job is noted as requeued, and `add_job` is about to put it into the queue
      have he : s.mem.requeued = s.mem.arrived := h
      show s.mem.requeued ++ [_] = s.mem.arrived ++ [_]
      rw [he]
    · cases hstep
      exact h
    · cases hstep
      exact h
    · exact absurd hstep (by simp)
  | unlinkReq seen name =>
    cases hstep
    exact h
  | unlinkData seen name =>
    cases hstep
    exact h
  | adding seen x =>
    obtain ⟨⟨x', mem⟩, hx, he⟩ := Option.map_eq_some_iff.mp hstep
    cases he
    cases x' with
    | none => exact addJob_handed hx h
    | some x' => exact addJob_handed hx h
  | accept => exact absurd hstep (by simp [mainThread])

/-- What `build_qonstart` has added is in the queue, in every reachable state. -/
theorem Reach.handed (h : Reach C d) : ∀ p, d.proc = some p → ∀ m, p.threads .main = some m →
    Handed p.mem m := by
  induction h with
  | fresh => exact fun p hp => absurd hp (by simp [Daemon.fresh])
  | @step d d' e hr hc hs ih =>
    have hr' := hr.step hc hs
    -- the daemon starts, dies, gets a client, or a thread `w` takes a step
    rcases step_cases hs with ⟨-, -, rfl⟩ | ⟨-, -, rfl⟩ | ⟨t, k, p, -, hp, -, -, rfl⟩ |
      ⟨w, a, p, l, l', s, rfl, hp, hl, hstep, rfl⟩
    · intro p' hp' m hm
      cases hp'
      cases hm
      rfl
    · intro p' hp'
      exact absurd hp' (by simp)
    · intro p' hp' m hm
      cases hp'
      rw [Proc.threads_ne p p.mem _ (by simp)] at hm
      exact ih p hp m hm
    · intro p' hp' m hm
      have hes := hr'.queued p' hp'
      cases hp'
      by_cases hw : w = .main
      · subst hw
        rw [Proc.threads_self] at hm
        subst hm
        obtain ⟨⟨m', s''⟩, hmain, he⟩ := Option.map_eq_some_iff.mp hstep
        cases he
        exact mainThread_handed hmain (ih p hp l hl)
      · have hmain := (Proc.threads_ne p s.mem l' (Ne.symm hw)).symm.trans hm
        have hact := threadStep_act hstep
        have hphase : phaseOf .main (some m) = Proc.phase ⟨s.mem, update p.threads w l'⟩ .main := by
          unfold Proc.phase
          rw [hm]
        -- a step of another thread
        refine (ih p hp m hmain).keep ?_ ?_ ?_
        · refine hact.requeued.resolve_right fun hstart => hw ?_
          refine (main_of_starts (show (p.stage w).starts = true from ?_)).1
          unfold Proc.stage
          rw [hl]
          exact hstart
        · rcases (threadStep_move hstep).arrived with he | ⟨b, n, hlink, -, he⟩
          · exact Or.inl he
          · right
            cases w with
            | main => exact absurd rfl hw
            | printer => exact absurd hlink printer_phase_ne
            | client t =>
              have hacc := hr.accepting p hp t (by rw [hl]; exact Option.some_ne_none _)
              refine ⟨Option.some.inj (hmain.symm.trans hacc), ?_⟩
              show p.mem.arrived <+: s.mem.arrived
              rw [he]
              exact List.prefix_append ..
        · intro b n hb hn
          obtain ⟨es, hes⟩ := hes
          obtain ⟨-, n', hn', -⟩ := hes.hand .main b (hphase ▸ Main.addr_phase hb)
          obtain ⟨n₀, hn₀, hval⟩ := hact.vals (show p.mem.jobs.heap b ≠ none by rw [hn]; simp) hn'
          obtain rfl : n = n₀ := Option.some.inj (hn.symm.trans hn₀)
          exact ⟨n', hn', hval.symm⟩

/-- **Accepted jobs survive**, in runs in which `get_newjobno` returns only numbers under which
nobody works, and the calls of `build_qonstart` succeed: both files of a job that has been accepted
and is not printed are in the spool as they were written; and when `build_qonstart` is over, it has
added exactly one entry for each job that was accepted and not printed before the restart, with
the number and the request of the job, and what it has added has come first into the queue. -/
theorem accepted_kept (d : Daemon) :
    (Reach (fun d e => NewNumber d e ∧ Succeeds d e) d → ∀ j ∈ unprinted d.out, Filed d.spool j) ∧
      ∀ d₀ p, Reach (fun d e => NewNumber d e ∧ Succeeds d e) d₀ →
        Since (fun d e => NewNumber d e ∧ Succeeds d e) d₀ d → d.proc = some p →
        p.threads .main = some Main.accept →
        (∀ j ∈ unprinted d₀.out,
          p.mem.requeued.filter (fun job => job.jobid = j.jobid) = [⟨j.jobid, j.req⟩]) ∧
          p.mem.requeued <+: p.mem.arrived := by
  refine ⟨fun h => h.filed, fun d₀ p h₀ h hp hm => ⟨fun j hj => ?_, ?_⟩⟩
  · obtain ⟨p', m, hp', hm', hprog⟩ := h.progress h₀ hj
    obtain rfl : p = p' := Option.some.inj (hp.symm.trans hp')
    obtain rfl : m = Main.accept := Option.some.inj (hm'.symm.trans hm)
    cases hprog with
    | todo _ _ _ hacc _ => exact absurd rfl hacc
    | done h _ => exact h
  · exact (h.reach h₀).handed p hp _ hm

/-! ## Runs with few threads

In a run with client threads below `B` and addresses below `B` the conditions can be computed. -/

/-- Events with threads and addresses below `B`, in which no call fails. -/
def Event.plain (B : Nat) : Event → Bool
  | .accept t _ => t < B
  | .run _ (.addr b) => b < B
  | .run _ (.fail _) => false
  | _ => true

/-- The threads that there can be. -/
def whos (B : Nat) : List Who := .main :: .printer :: (List.range B).map .client

theorem Reach.small {B : Nat} (h : Reach (fun _ e => e.plain B = true) d) :
    ∀ p, d.proc = some p → (∀ b n, p.mem.jobs.heap b = some n → b < B) ∧
      ∀ w, p.threads w ≠ none → w ∈ whos B := by
  have hclient : ∀ t, t < B → Who.client t ∈ whos B := by
    intro t ht
    exact List.mem_cons_of_mem _ (List.mem_cons_of_mem _ (List.mem_map_of_mem (List.mem_range.mpr ht)))
  have hmain : Who.main ∈ whos B := List.mem_cons_self
  have hprinter : Who.printer ∈ whos B := List.mem_cons_of_mem _ List.mem_cons_self
  induction h with
  | fresh => exact fun p hp => absurd hp (by simp [Daemon.fresh])
  | @step d d' e _ hc hs ih =>
    rcases step_cases hs with ⟨-, -, rfl⟩ | ⟨-, -, rfl⟩ | ⟨t, k, p, rfl, hp, -, -, rfl⟩ |
      ⟨w, a, p, l, l', s, rfl, hp, hl, hstep, rfl⟩
    · intro p' hp'
      cases hp'
      refine ⟨fun b n hn => absurd hn (by simp [initRequest]), fun w hw => ?_⟩
      cases w with
      | main => exact hmain
      | printer => exact hprinter
      | client t => exact absurd rfl hw
    · intro p' hp'
      exact absurd hp' (by simp)
    · intro p' hp'
      cases hp'
      refine ⟨(ih p hp).1, fun w hw => ?_⟩
      by_cases he : w = .client t
      · exact he ▸ hclient t (of_decide_eq_true hc)
      · rw [Proc.threads_ne p p.mem _ he] at hw
        exact (ih p hp).2 w hw
    · intro p' hp'
      cases hp'
      refine ⟨fun b n hn => ?_, fun w' hw' => ?_⟩
      · rcases (threadStep_act hstep).allocated hn with hb | ⟨job, rfl, -⟩
        · -- `malloc` answers only addresses below `B`
          obtain ⟨n', hn'⟩ := Option.ne_none_iff_exists'.mp hb
          exact (ih p hp).1 b n' hn'
        · exact of_decide_eq_true hc
      · by_cases he : w' = w
        · subst he
          exact (ih p hp).2 w' (by rw [hl]; exact Option.some_ne_none _)
        · rw [Proc.threads_ne p s.mem _ he] at hw'
          exact (ih p hp).2 w' hw'

/-- `Unused`, with threads and addresses below `B`. -/
def unusedB (B : Nat) (s : Sys) (σ : Who → Stage) (i : Int) : Bool :=
  (unprinted s.out).all (fun j => j.jobid ≠ i) &&
    (List.range B).all (fun b => (s.mem.jobs.heap b).all fun n => n.val.jobid ≠ i) &&
    (whos B).all fun w =>
      (σ w).jobid ≠ some i && match σ w with | .passing job => decide (job.jobid ≠ i) | _ => true

theorem unused_of_unusedB {B : Nat} {p : Proc} (hr : Reach (fun _ e => e.plain B = true) d)
    (hp : d.proc = some p) (h : unusedB B (d.sys p) p.stage i = true) :
    Unused (d.sys p) p.stage i := by
  obtain ⟨hheap, hthreads⟩ := hr.small p hp
  have hstage : ∀ w, w ∉ whos B → p.stage w = .none := by
    intro w hw
    have hnone : p.threads w = none := by
      by_contra hne
      exact hw (hthreads w hne)
    unfold Proc.stage
    rw [hnone]
    cases w <;> rfl
  unfold unusedB at h
  rw [Bool.and_eq_true, Bool.and_eq_true] at h
  obtain ⟨⟨hacc, hmem⟩, hwho⟩ := h
  rw [List.all_eq_true] at hacc hmem hwho
  refine ⟨fun j hj => of_decide_eq_true (hacc j hj), ?_, fun w he => ?_⟩
  · rintro (⟨b, n, hn, hid⟩ | ⟨w, job, hw, hid⟩)
    · have hb := hmem b (List.mem_range.mpr (hheap b n hn))
      rw [show (d.sys p).mem.jobs.heap b = some n from hn] at hb
      exact of_decide_eq_true hb hid
    · by_cases hin : w ∈ whos B
      · have hb := (Bool.and_eq_true_iff.mp (hwho w hin)).2
        rw [hw] at hb
        exact of_decide_eq_true hb hid
      · exact absurd ((hstage w hin).symm.trans hw) (by simp)
  · by_cases hin : w ∈ whos B
    · exact of_decide_eq_true (Bool.and_eq_true_iff.mp (hwho w hin)).1 he
    · rw [hstage w hin] at he
      exact absurd he (by simp [Stage.jobid])

/-- `NewNumber`, with threads and addresses below `B`. -/
def newNumberB (B : Nat) (d : Daemon) : Event → Bool
  | .run w _ => d.proc.all fun p =>
    match p.stage w with | .numbering => unusedB B (d.sys p) p.stage p.mem.nextjob | _ => true
  | _ => true

theorem sound_of_newNumberB {B : Nat} {e : Event} (hr : Reach (fun _ e => e.plain B = true) d)
    (he : e.plain B = true) (h : newNumberB B d e = true) : NewNumber d e ∧ Succeeds d e := by
  constructor
  · rintro w a p rfl hp hw
    refine unused_of_unusedB hr hp ?_
    unfold newNumberB at h
    rw [hp] at h
    dsimp only [Option.all_some] at h
    rwa [hw] at h
  · rintro p err rfl -
    exact absurd he (by simp [Event.plain])

/-- A run of plain events that meet a condition. -/
def checkRun (B : Nat) (C : Daemon → Event → Bool) (d : Daemon) : List Event → Option Daemon
  | [] => some d
  | e :: es =>
    if e.plain B && C d e then (step d e).bind fun d' => checkRun B C d' es else none

theorem checkRun_induct {B : Nat} {C' : Daemon → Event → Bool} {P : Daemon → Prop} {es : List Event}
    (hP : ∀ d d' e, e ∈ es → Reach (fun _ e => e.plain B = true) d → P d → e.plain B = true →
      C' d e = true → step d e = some d' → P d') :
    ∀ {d d' : Daemon}, Reach (fun _ e => e.plain B = true) d → P d →
      checkRun B C' d es = some d' → Reach (fun _ e => e.plain B = true) d' ∧ P d' := by
  induction es with
  | nil =>
    intro d d' hr hd h
    cases h
    exact ⟨hr, hd⟩
  | cons e es ih =>
    intro d d' hr hd h
    unfold checkRun at h
    split at h
    · next hc =>
      obtain ⟨he, hC⟩ := Bool.and_eq_true_iff.mp hc
      obtain ⟨d₁, hs, h⟩ := Option.bind_eq_some_iff.mp h
      exact ih (fun d d' e hmem => hP d d' e (List.mem_cons_of_mem _ hmem)) (hr.step he hs)
        (hP d d₁ e List.mem_cons_self hr hd he hC hs) h
    · exact absurd h (by simp)

/-- The first job is accepted, and the daemon is terminated before it is picked up. -/
def untilKill : List Event := startEmpty ++ submit 0 ++ [.kill]

/-- The main thread waits for a client. -/
def acceptingB (p : Proc) : Bool :=
  match p.threads .main with
  | some .accept => true
  | _ => false

theorem accepting_of_acceptingB {p : Proc} (h : acceptingB p = true) :
    p.threads .main = some Main.accept := by
  unfold acceptingB at h
  split at h
  · next hm => exact hm
  · exact absurd h (by simp)

set_option maxRecDepth 10000 in
/-- The job is in the queue again after the restart. -/
theorem accepted_kept_first : ∃ d₀ d p j, j ∈ unprinted d₀.out ∧
    Reach (fun d e => NewNumber d e ∧ Succeeds d e) d₀ ∧
    Since (fun d e => NewNumber d e ∧ Succeeds d e) d₀ d ∧ d.proc = some p ∧
    p.threads .main = some Main.accept ∧ Filed d₀.spool j ∧
    p.mem.requeued.filter (fun job => job.jobid = j.jobid) = [⟨j.jobid, j.req⟩] := by
  have hrun : ((checkRun 1 (newNumberB 1) Daemon.fresh untilKill).any fun d₀ =>
      (unprinted d₀.out).length = 1 && (step d₀ .start).any fun d₁ =>
        (checkRun 1 (newNumberB 1) d₁ startOne.tail).any fun d => d.proc.any acceptingB) = true := by
    decide +kernel
  obtain ⟨d₀, hd₀, h⟩ := (Option.any_eq_true _ _).mp hrun
  obtain ⟨hlen, h⟩ := Bool.and_eq_true_iff.mp h
  obtain ⟨d₁, hd₁, h⟩ := (Option.any_eq_true _ _).mp h
  obtain ⟨d, hd, h⟩ := (Option.any_eq_true _ _).mp h
  obtain ⟨p, hp, h⟩ := (Option.any_eq_true _ _).mp h
  have hm := accepting_of_acceptingB h
  obtain ⟨j, hj⟩ : ∃ j, j ∈ unprinted d₀.out :=
    List.exists_mem_of_length_pos (by rw [of_decide_eq_true hlen]; exact Nat.one_pos)
  obtain ⟨hr₀, hs₀⟩ := @checkRun_induct 1 (newNumberB 1)
    (Reach fun d e => NewNumber d e ∧ Succeeds d e) untilKill
    (fun _ _ _ _ hr hd he hn hs => hd.step (sound_of_newNumberB hr he hn) hs) _ _ .fresh .fresh hd₀
  have hstart : NewNumber d₀ .start ∧ Succeeds d₀ .start :=
    ⟨fun _ _ _ he => absurd he (by simp), fun _ _ he => absurd he (by simp)⟩
  obtain ⟨-, hs⟩ := @checkRun_induct 1 (newNumberB 1)
    (Since (fun d e => NewNumber d e ∧ Succeeds d e) d₀) startOne.tail
    (fun _ _ e hmem hr hd he hn hs => hd.step (sound_of_newNumberB hr he hn)
      (fun hk => absurd (hk ▸ hmem) (by simp [startOne])) hs)
    _ _ (hr₀.step rfl hd₁) (.start hstart hd₁) hd
  exact ⟨d₀, d, p, j, hj, hs₀, hs, hp, hm, (accepted_kept d₀).1 hs₀ j hj,
    ((accepted_kept d).2 d₀ p hs₀ hs hp hm).1 j hj⟩

/-! ## A job that is lost -/

/-- No two jobs that are received or are not printed yet have the same number. -/
def Distinct (d : Daemon) : Prop :=
  ((unprinted d.out).map Accepted.jobid).Nodup ∧
    ∀ p, d.proc = some p → ∀ w i, (p.stage w).jobid = some i →
      (∀ j ∈ unprinted d.out, j.jobid ≠ i) ∧ ∀ w', (p.stage w').jobid = some i → w' = w

/-- `Distinct`, with threads below `B`. -/
def distinctB (B : Nat) (d : Daemon) : Bool :=
  decide ((unprinted d.out).map Accepted.jobid).Nodup &&
    d.proc.all fun p => (whos B).all fun w => (p.stage w).jobid.all fun i =>
      (unprinted d.out).all (fun j => j.jobid ≠ i) &&
        (whos B).all fun w' => decide ((p.stage w').jobid = some i → w' = w)

theorem distinct_of_distinctB {B : Nat} (hr : Reach (fun _ e => e.plain B = true) d)
    (h : distinctB B d = true) : Distinct d := by
  obtain ⟨hnodup, h⟩ := Bool.and_eq_true_iff.mp h
  refine ⟨of_decide_eq_true hnodup, fun p hp w i hi => ?_⟩
  have hin : ∀ w, (p.stage w).jobid = some i → w ∈ whos B := by
    intro w hi
    refine (hr.small p hp).2 w fun hnone => ?_
    unfold Proc.stage at hi
    rw [hnone] at hi
    exact absurd hi (by cases w <;> simp [stageOf, Stage.jobid])
  rw [hp] at h
  have hw := List.all_eq_true.mp h w (hin w hi)
  rw [hi] at hw
  obtain ⟨hacc, hwho⟩ := Bool.and_eq_true_iff.mp hw
  refine ⟨fun j hj => of_decide_eq_true (List.all_eq_true.mp hacc j hj), fun w' hi' => ?_⟩
  exact of_decide_eq_true (List.all_eq_true.mp hwho w' (hin w' hi')) hi'

/-- After the restart the printer thread prints the first job; before it has unlinked the files,
another client submits a job, which gets the same number. -/
def lost : List Event :=
  untilKill ++ startOne ++ [.ok, .ok, .ok, .ok, .ok, .ok, .printed].map (.run .printer) ++
    submit 1 ++ List.replicate 2 (.run .printer .ok)

set_option maxRecDepth 10000 in
/-- The second job is accepted and not printed, and its files are gone, although no two unprinted
jobs have ever had the same number. -/
theorem accepted_lost : ∃ d, ∃ j ∈ unprinted d.out,
    Reach (fun d e => Distinct d ∧ Succeeds d e) d ∧ Distinct d ∧
    d.spool.data.get (fileName j.jobid) = none ∧ d.spool.reqs.get (fileName j.jobid) = none := by
  have hrun : ((checkRun 2 (fun d _ => distinctB 2 d) Daemon.fresh lost).any fun d =>
      distinctB 2 d && (unprinted d.out).any fun j =>
        decide (d.spool.data.get (fileName j.jobid) = none ∧
          d.spool.reqs.get (fileName j.jobid) = none)) = true := by decide +kernel
  obtain ⟨d, hd, h⟩ := (Option.any_eq_true _ _).mp hrun
  obtain ⟨hdist, h⟩ := Bool.and_eq_true_iff.mp h
  obtain ⟨j, hj, h⟩ := List.any_eq_true.mp h
  obtain ⟨hr, hs⟩ := @checkRun_induct 2 (fun d _ => distinctB 2 d)
    (Reach fun d e => Distinct d ∧ Succeeds d e) lost
    (fun d _ e _ hr hd he hn hs => hd.step ⟨distinct_of_distinctB hr hn, fun _ _ hf _ =>
      absurd (hf ▸ he) (by simp [Event.plain])⟩ hs) _ _ .fresh .fresh hd
  obtain ⟨hdata, hreq⟩ := of_decide_eq_true h
  exact ⟨d, j, hj, hs, distinct_of_distinctB hr hdist, hdata, hreq⟩

end LearningNotes.Printd
