import LearningNotes.Lib.Handles
import LearningNotes.Printd.Acts

/-!
# The job numbers

`nextjob` is in memory; the job file only has what `update_jobno` has written to it when the
printer thread picked up its last job. So the number that `init_request` reads after a restart
may be as low as the number of a job that is still in the spool, and `get_newjobno` returns it
again (`newjobno_reused`).

As long as the daemon is only terminated when the job file is ahead of the unprinted jobs, every
number is new (`newjobno_fresh`). In the invariant `Counted`, `n` is the number in the job file:
it is at most `nextjob`, everything that has been handed out is below `nextjob`, and what the
printer thread is about to write is between the two.
-/

namespace LearningNotes.Printd

open Function (update update_self update_of_ne)

/-- The job file has the number `n`. -/
def JobFile (n : Nat) (jobno : List Byte) : Prop := jobno = decimal n ∨ (jobno = [] ∧ n = 1)

/-- What the printer thread may be about to write. -/
def Ahead (n : Nat) (nextjob : Int) (b : List Byte) : Prop :=
  ∃ k : Nat, b = decimal k ∧ n ≤ k ∧ (k : Int) ≤ nextjob

structure Counted (n : Nat) (s : Sys) (σ : Who → Stage) : Prop where
  file : JobFile n s.spool.jobno
  pos : 1 ≤ n
  le : (n : Int) ≤ s.mem.nextjob
  up : s.mem.nextjob ≤ numbered s.out + 1
  done : ∀ j ∈ unprinted s.out, j.jobid < s.mem.nextjob
  mine : ∀ w i, (σ w).jobid = some i → i < s.mem.nextjob ∧ ∀ j ∈ unprinted s.out, j.jobid ≠ i
  once : ∀ w w' i, (σ w).jobid = some i → (σ w').jobid = some i → w = w'
  buf : ∀ w b, σ w = .update b → w = .printer ∧ Ahead n s.mem.nextjob b

variable {n : Nat} {s s' : Sys} {σ : Who → Stage} {w : Who} {st st' : Stage} {a : Ans}

/-- Longer numbers are not shorter. -/
theorem length_decimal_mono {k m : Nat} (h : k ≤ m) : (decimal k).length ≤ (decimal m).length := by
  unfold decimal
  by_cases hk : k = 0
  · rw [if_pos hk]
    exact length_decimal_pos m
  · rw [if_neg hk, if_neg (by omega)]
    simpa using Nat.le_length_digits_le 10 k m h

/-- The new number covers the old one in the file. -/
theorem JobFile.overwrite {k : Nat} {jobno : List Byte} (h : JobFile n jobno) (hk : n ≤ k) :
    JobFile k (overwrite 0 jobno 0 (decimal k)) := by
  refine Or.inl ?_
  have hlen : jobno.length ≤ (decimal k).length := by
    rcases h with rfl | ⟨rfl, -⟩
    · exact length_decimal_mono hk
    · exact Nat.zero_le _
  unfold LearningNotes.overwrite
  rw [List.take_zero, List.nil_append, Nat.zero_add, List.drop_eq_nil_of_le hlen, List.append_nil]

theorem JobFile.read {jobno : List Byte} (h : JobFile n jobno) (hn : n < 2 ^ 31) :
    readJobno jobno = n := by
  rcases h with rfl | ⟨rfl, rfl⟩
  · exact readJobno_decimal hn
  · exact readJobno_nil

/-- A step that hands out no number and accepts no job. -/
theorem Counted.keep (h : Counted n s σ) (hw : σ w = st)
    (hout : ∀ j ∈ unprinted s'.out, j ∈ unprinted s.out) (hnum : numbered s'.out = numbered s.out)
    (hnext : s'.mem.nextjob = s.mem.nextjob) (hjobno : s'.spool.jobno = s.spool.jobno)
    (hid : st'.jobid = st.jobid ∨ st'.jobid = none)
    (hbuf : ∀ b, st' = .update b → st = .update b ∨ w = .printer ∧ Ahead n s.mem.nextjob b) :
    Counted n s' (update σ w st') := by
  have hjobid : ∀ w' i, (update σ w st' w').jobid = some i → (σ w').jobid = some i :=
    fun w' i => hand_of_update (hw.symm ▸ hid)
  refine ⟨hjobno ▸ h.file, h.pos, hnext ▸ h.le, ?_, ?_, ?_, ?_, ?_⟩
  · rw [hnext, hnum]
    exact h.up
  · intro j hj
    rw [hnext]
    exact h.done j (hout j hj)
  · intro w' i hi
    obtain ⟨hlt, hne⟩ := h.mine w' i (hjobid w' i hi)
    rw [hnext]
    exact ⟨hlt, fun j hj => hne j (hout j hj)⟩
  · intro w₁ w₂ i h₁ h₂
    exact h.once w₁ w₂ i (hjobid w₁ i h₁) (hjobid w₂ i h₂)
  · intro w' b hb
    rw [hnext]
    by_cases hw' : w' = w
    · subst hw'
      rw [update_self] at hb
      rcases hbuf b hb with hst | hnew
      · exact h.buf w' b (hw.trans hst)
      · exact hnew
    · rw [update_of_ne hw'] at hb
      exact h.buf w' b hb

/-- The counter is written to the job file. -/
theorem Counted.updateJobno {b : List Byte} (h : Counted n s σ) (hw : σ w = .update b) :
    ∃ n', Counted n' { s with spool.jobno := overwrite 0 s.spool.jobno 0 b } (update σ w .none) := by
  obtain ⟨hp, k, rfl, hnk, hkn⟩ := h.buf w b hw
  have hkeep : Counted n s (update σ w .none) :=
    h.keep hw (fun _ hj => hj) rfl rfl rfl (Or.inr rfl) fun _ he => absurd he (by simp)
  refine ⟨k, h.file.overwrite hnk, Nat.le_trans h.pos hnk, hkn, hkeep.up, hkeep.done, hkeep.mine,
    hkeep.once, ?_⟩
  intro w' b' hb'
  -- nobody else is about to write
  by_cases hw' : w' = w
  · subst hw'
    rw [update_self] at hb'
    exact absurd hb' (by simp)
  · exact absurd ((hkeep.buf w' b' hb').1.trans hp.symm) hw'

/-- `get_newjobno` returns a new number. -/
theorem Counted.number (h : Counted n s σ) (hb : numbered s.out + 2 < 2 ^ 31) :
    Counted n { s with mem := s.mem.bumpJobno, out := s.out ++ [.numbered s.mem.nextjob] }
      (update σ w (.fresh s.mem.nextjob)) := by
  have hle := h.le
  have hup := h.up
  have hpos := h.pos
  have hnext : s.mem.bumpJobno.nextjob = s.mem.nextjob + 1 := bumpJobno_eq (by omega) (by omega)
  have hnum : numbered (s.out ++ [.numbered s.mem.nextjob]) = numbered s.out + 1 := by
    rw [numbered_append, if_pos rfl]
  refine ⟨h.file, h.pos, ?_, ?_, ?_, ?_, ?_, ?_⟩
  · show (n : Int) ≤ s.mem.bumpJobno.nextjob
    omega
  · show s.mem.bumpJobno.nextjob ≤ (numbered (s.out ++ [.numbered s.mem.nextjob]) : Int) + 1
    rw [hnum]
    push_cast
    omega
  · intro j hj
    have hlt := h.done j (unprinted_numbered ▸ hj)
    show j.jobid < s.mem.bumpJobno.nextjob
    omega
  · intro w' i hi
    show i < s.mem.bumpJobno.nextjob ∧ ∀ j ∈ unprinted (s.out ++ [.numbered s.mem.nextjob]), j.jobid ≠ i
    rw [unprinted_numbered]
    by_cases hw' : w' = w
    · subst hw'
      rw [update_self] at hi
      obtain rfl : s.mem.nextjob = i := Option.some.inj hi
      refine ⟨by omega, fun j hj => ?_⟩
      have hlt := h.done j hj
      omega
    · rw [update_of_ne hw'] at hi
      obtain ⟨hlt, hne⟩ := h.mine w' i hi
      exact ⟨by omega, hne⟩
  · refine fun w₁ w₂ i => eq_of_hand_update h.once fun w' i' _ hi' hi => ?_
    obtain rfl : s.mem.nextjob = i' := Option.some.inj hi'
    -- all the other numbers are lower
    have hlow := (h.mine w' _ hi).1
    omega
  · intro w' b hb
    by_cases hw' : w' = w
    · subst hw'
      rw [update_self] at hb
      exact absurd hb (by simp)
    · rw [update_of_ne hw'] at hb
      obtain ⟨hp, k, hk, hnk, hkn⟩ := h.buf w' b hb
      refine ⟨hp, k, hk, hnk, ?_⟩
      show (k : Int) ≤ s.mem.bumpJobno.nextjob
      omega

/-- The number of an accepted job is not the number of another submission. -/
theorem Counted.accept {i : Int} {req : PrintReq} {data : Option (List Byte)} (h : Counted n s σ)
    (hw : σ w = .full i req) (hst : st'.jobid = none) (hbuf : ∀ b, st' ≠ .update b) :
    Counted n { s with out := s.out ++ [.accepted i req data] } (update σ w st') := by
  have hnum : numbered (s.out ++ [.accepted i req data]) = numbered s.out := by
    rw [numbered_append, if_neg (by simp), Nat.add_zero]
  obtain ⟨hlt, -⟩ := h.mine w i (by rw [hw]; rfl)
  have hother : ∀ w' i', (update σ w st' w').jobid = some i' → w' ≠ w ∧ (σ w').jobid = some i' := by
    intro w' i' hi
    by_cases hw' : w' = w
    · subst hw'
      rw [update_self, hst] at hi
      exact absurd hi (by simp)
    · rw [update_of_ne hw'] at hi
      exact ⟨hw', hi⟩
  refine ⟨h.file, h.pos, h.le, ?_, ?_, ?_, ?_, ?_⟩
  · show s.mem.nextjob ≤ (numbered (s.out ++ [.accepted i req data]) : Int) + 1
    rw [hnum]
    exact h.up
  · intro j hj
    rcases mem_unprinted_accepted.mp hj with hj | rfl
    · exact h.done j hj
    · exact hlt
  · intro w' i' hi
    obtain ⟨hw', hi'⟩ := hother w' i' hi
    obtain ⟨hlt', hne⟩ := h.mine w' i' hi'
    refine ⟨hlt', fun j hj => ?_⟩
    rcases mem_unprinted_accepted.mp hj with hj | rfl
    · exact hne j hj
    · rintro rfl
      exact hw' (h.once w' w _ hi' (by rw [hw]; rfl))
  · intro w₁ w₂ i' h₁ h₂
    exact h.once w₁ w₂ i' (hand_of_update (.inr hst) h₁) (hand_of_update (.inr hst) h₂)
  · intro w' b hb
    by_cases hw' : w' = w
    · subst hw'
      rw [update_self] at hb
      exact absurd hb (hbuf b)
    · rw [update_of_ne hw'] at hb
      exact h.buf w' b hb

/-- **Every act keeps the invariant**, as long as there are not too many numbers. -/
theorem Counted.act (h : Counted n s σ) (hact : Act a s s' (σ w) st')
    (hb : numbered s'.out + 1 < 2 ^ 31) (hprinter : ∀ b, st' = .update b → w = .printer) :
    ∃ n', Counted n' s' (update σ w st') := by
  generalize hw : σ w = st at hact
  have hsame : ∀ j ∈ unprinted s.out, j ∈ unprinted s.out := by
    intro _ hj
    exact hj
  cases hact with
  | quiet hst hspool hout hmem =>
    have hout' : unprinted s'.out = unprinted s.out ∧ numbered s'.out = numbered s.out := by
      rcases hout with hout | ⟨r, hout⟩
      · exact ⟨congrArg _ hout, congrArg _ hout⟩
      · rw [hout, unprinted_rejected, numbered_append, if_neg (by simp), Nat.add_zero]
        exact ⟨rfl, rfl⟩
    refine ⟨n, h.keep hw (hout'.1 ▸ hsame) hout'.2 hmem.nextjob (congrArg _ hspool) ?_ ?_⟩
    · cases hst with
      | same => exact Or.inl rfl
      | ask => exact Or.inr rfl
      | giveUp hi => exact Or.inl hi.symm
      | through => exact Or.inr rfl
    · intro b he
      cases hst with
      | same => exact Or.inl he
      | ask => exact absurd he (by simp)
      | giveUp => exact absurd he (by simp)
      | through => exact absurd he (by simp)
  | number hs =>
    subst hs
    have hnum : numbered (s.out ++ [.numbered s.mem.nextjob]) = numbered s.out + 1 := by
      rw [numbered_append, if_pos rfl]
    refine ⟨n, h.number ?_⟩
    change numbered (s.out ++ [.numbered s.mem.nextjob]) + 1 < 2 ^ 31 at hb
    omega
  | accept hs =>
    subst hs
    exact ⟨n, h.accept hw rfl fun _ => by simp⟩
  | @print jp m hn hs =>
    subst hs
    refine ⟨n, h.keep hw (fun j hj => (mem_unprinted_printed.mp hj).1) ?_ rfl rfl (Or.inl rfl)
      fun _ he => absurd he (by simp)⟩
    rw [numbered_append, if_neg (by simp), Nat.add_zero]
  | sprint hs =>
    subst hs
    refine ⟨n, h.keep hw hsame rfl rfl rfl (Or.inl rfl) fun b he => Or.inr ⟨hprinter b he, ?_⟩⟩
    cases he
    have hle := h.le
    refine ⟨s'.mem.nextjob.toNat, ?_, by omega, by omega⟩
    rw [← decimalInt_natCast, Int.toNat_of_nonneg (by omega)]
  | updateJobno hs =>
    subst hs
    exact h.updateJobno hw
  | @writeData i _ _ _ hst hs =>
    subst hs
    have hid : st'.jobid = (Stage.data i).jobid := by
      rcases hst with rfl | rfl
      · rfl
      · rfl
    refine ⟨n, h.keep hw hsame rfl rfl rfl (Or.inl hid) fun b he => ?_⟩
    rcases hst with rfl | rfl
    · exact absurd he (by simp)
    · exact absurd he (by simp)
  -- files and memory only
  | malloc _ _ hs | creatData hs | creatReq hs | writeReq hs | shortReq hs | undoReq hs
  | unlinkData _ hs | unlinkReq _ hs | requeue _ hs | broken _ hs | brokenReq hs | brokenData hs
  | openReq _ hs =>
    subst hs
    exact ⟨n, h.keep hw hsame rfl rfl rfl (Or.inl rfl) fun _ he => absurd he (by simp)⟩
  | undoData hs =>
    subst hs
    exact ⟨n, h.keep hw hsame rfl rfl rfl (Or.inr rfl) fun _ he => absurd he (by simp)⟩

/-! ## All runs -/

/-- A step records one thing at most. -/
theorem Act.out {st st' : Stage} (h : Act a s s' st st') :
    s'.out = s.out ∨ ∃ o, s'.out = s.out ++ [o] := by
  cases h with
  | quiet _ _ hout _ => exact hout.imp_right fun ⟨r, hr⟩ => ⟨_, hr⟩
  | number hs | accept hs | print _ hs =>
    subst hs
    exact Or.inr ⟨_, rfl⟩
  | creatData hs | creatReq hs | writeReq hs | shortReq hs | undoReq hs
  | undoData hs | sprint hs | updateJobno hs | brokenReq hs | brokenData hs =>
    subst hs
    exact Or.inl rfl
  | malloc _ _ hs | writeData _ hs | unlinkData _ hs | unlinkReq _ hs | requeue _ hs | broken _ hs
  | openReq _ hs =>
    subst hs
    exact Or.inl rfl

theorem Act.numbered_le {st st' : Stage} (h : Act a s s' st st') :
    numbered s.out ≤ numbered s'.out := by
  rcases h.out with ho | ⟨o, ho⟩
  · rw [ho]
  · rw [ho, numbered_append]
    exact Nat.le_add_right _ _

/-- Only the printer thread writes the job file. -/
theorem stage_update {l : Option (Local w)} {b : List Byte} (h : stageOf w l = .update b) :
    w = .printer := by
  have hadd : ∀ x : Adding, x.stage ≠ .update b := by
    intro x
    cases x <;> exact fun he => absurd he (by simp [Adding.stage])
  cases w with
  | printer => rfl
  | main =>
    cases l with
    | none => exact absurd h (by simp [stageOf])
    | some p =>
      cases p with
      | adding seen x => exact absurd h (hadd x)
      | _ => exact absurd h (by simp [stageOf, Main.stage])
  | client t =>
    cases l with
    | none => exact absurd h (by simp [stageOf])
    | some l =>
      obtain ⟨c, k⟩ := l
      cases c with
      | adding x => exact absurd h (hadd x)
      | reject r u => cases u <;> exact absurd h (by simp [stageOf, Client.stage])
      | _ => exact absurd h (by simp [stageOf, Client.stage])

/-- The daemon is terminated only when the number in the job file is higher than that of every
unprinted job. -/
def SafeKill (d : Daemon) (e : Event) : Prop :=
  e = .kill → ∀ j ∈ unprinted d.out, j.jobid < readJobno d.spool.jobno

/-- The numbers while the daemon is not running. -/
structure Stopped (n : Nat) (spool : Spool) (out : List Out) : Prop where
  file : JobFile n spool.jobno
  pos : 1 ≤ n
  up : n ≤ numbered out + 1
  done : ∀ j ∈ unprinted out, j.jobid < n

theorem Stopped.start {spool : Spool} {out : List Out} (h : Stopped n spool out)
    (hb : numbered out + 1 < 2 ^ 31) :
    Counted n ⟨spool, initRequest spool, out⟩ fun _ => .none := by
  have hup := h.up
  have hnext : (initRequest spool).nextjob = n := h.file.read (by omega)
  refine ⟨h.file, h.pos, ?_, ?_, ?_, ?_, ?_, ?_⟩
  · exact Int.le_of_eq hnext.symm
  · show (initRequest spool).nextjob ≤ (numbered out : Int) + 1
    omega
  · intro j hj
    show j.jobid < (initRequest spool).nextjob
    rw [hnext]
    exact h.done j hj
  · intro w i hi
    exact absurd hi (by simp [Stage.jobid])
  · intro w w' i hi
    exact absurd hi (by simp [Stage.jobid])
  · intro w b hb
    exact absurd hb (by simp)

/-- **The invariant holds in every reachable state**, as long as there are not too many numbers. -/
theorem Reach.counted {d : Daemon} (h : Reach SafeKill d) :
    (d.proc = none → numbered d.out + 1 < 2 ^ 31 → ∃ n, Stopped n d.spool d.out) ∧
      ∀ p, d.proc = some p → numbered (d.sys p).out + 1 < 2 ^ 31 →
        ∃ n, Counted n (d.sys p) p.stage := by
  apply @Reach.stages SafeKill (fun spool out => numbered out + 1 < 2 ^ 31 → ∃ n, Stopped n spool out)
    (fun s σ => numbered s.out + 1 < 2 ^ 31 → ∃ n, Counted n s σ) ?_ ?_ ?_ ?_ d h
  · intro _
    exact ⟨1, Or.inr ⟨rfl, rfl⟩, Nat.le_refl 1, Nat.le_refl 1,
      fun j hj => absurd hj List.not_mem_nil⟩
  · intro spool out hstop hb
    obtain ⟨n, hn⟩ := hstop hb
    exact ⟨n, hn.start hb⟩
  · intro d p hsafe hcount hb
    obtain ⟨n, hn⟩ := hcount hb
    have hle : (n : Int) ≤ numbered d.out + 1 := Int.le_trans hn.le hn.up
    refine ⟨n, hn.file, hn.pos, by omega, fun j hj => ?_⟩
    have hread : readJobno d.spool.jobno = n := hn.file.read (by omega)
    exact hread ▸ hsafe rfl j hj
  · intro d p w a l' s' _ _ _ hact hcount hb
    have hle : numbered (d.sys p).out ≤ numbered s'.out := hact.numbered_le
    obtain ⟨n, hn⟩ := hcount (by omega)
    exact hn.act hact hb fun b he => stage_update he

/-! ## Numbers are not used again -/

/-- `build_qonstart` adds the job number 1. -/
def startOne : List Event :=
  .start :: [.ok, .entry (fileName 1), .ok, .ok, .addr 0, .ok, .ok, .ok, .ok, .eof].map (.run .main)

/-- The client thread `t` is about to get a number, and the number meets the condition `P`, which
also sees the job that was accepted first. -/
def numberIs (t : Nat) (P : Daemon → Int → Accepted → Bool) (d : Daemon) : Bool :=
  match d.proc with
  | none => false
  | some p =>
    match p.threads (.client t), unprinted d.out with
    | some (.jobInc _, _), j :: _ => P d p.mem.nextjob j
    | _, _ => false

theorem numberIs_spec {t : Nat} {P : Daemon → Int → Accepted → Bool} {d : Daemon}
    (h : numberIs t P d = true) : ∃ p req k, ∃ j ∈ unprinted d.out, d.proc = some p ∧
      p.threads (.client t) = some (Client.jobInc req, k) ∧ P d p.mem.nextjob j = true := by
  unfold numberIs at h
  split at h
  · exact absurd h (by simp)
  · next p hp =>
    split at h
    · next req k j js ht hj =>
      exact ⟨p, req, k, j, hj ▸ List.mem_cons_self, hp, ht, h⟩
    · exact absurd h (by simp)

/-- **Numbers are not used again**, in runs in which the daemon is terminated only when the job
file is ahead: `get_newjobno` never returns the number of a job that is accepted and not printed,
and no client thread works on the files of such a job. -/
theorem newjobno_fresh {d : Daemon} {p : Proc} (h : Reach SafeKill d)
    (hb : numbered d.out < 2 ^ 31 - 1) (hp : d.proc = some p) {t : Nat} {c : Client} {k : Conn}
    (hc : p.threads (.client t) = some (c, k)) :
    (∀ req, c = .jobInc req → ∀ j ∈ unprinted d.out, j.jobid ≠ p.mem.nextjob) ∧
      ∀ i, c.stage.jobid = some i → ∀ j ∈ unprinted d.out, j.jobid ≠ i := by
  have hb : numbered (d.sys p).out < 2 ^ 31 - 1 := hb
  obtain ⟨n, hn⟩ := h.counted.2 p hp (by omega)
  constructor
  · intro req _ j hj
    exact Int.ne_of_lt (hn.done j hj)
  · intro i hi
    refine (hn.mine (.client t) i ?_).2
    unfold Proc.stage
    rw [hc]
    exact hi

/-- The first job is accepted, and the printer thread picks it up. -/
def pickedUp : List Event :=
  startEmpty ++ submit 0 ++ [.addr 0, .ok, .ok, .ok, .ok].map (.run (.client 0)) ++
    List.replicate 5 (.run .printer .ok)

/-- After a restart, a client thread is about to get a number. -/
def second : List Event :=
  startOne ++ [.accept 1 smallConn, .run (.client 1) (.count REQSZ), .run (.client 1) .ok]

set_option maxRecDepth 10000 in
/-- The daemon is terminated after the first job has been picked up: the next number is 2. -/
theorem newjobno_fresh_second : ∃ d p req k, ∃ j ∈ unprinted d.out, Reach SafeKill d ∧
    d.proc = some p ∧ p.threads (.client 1) = some (Client.jobInc req, k) ∧
    p.mem.nextjob = 2 ∧ j.jobid ≠ p.mem.nextjob := by
  have hrun : ((runs Daemon.fresh pickedUp).any fun d₁ : Daemon =>
      decide (∀ j ∈ unprinted d₁.out, j.jobid < readJobno d₁.spool.jobno) &&
        (step d₁ .kill).any fun d₂ : Daemon => (runs d₂ second).any (numberIs 1 fun d i _ =>
          decide (numbered d.out < 2 ^ 31 - 1 ∧ i = 2))) = true := by decide +kernel
  obtain ⟨d₁, hd₁, h₁⟩ := (Option.any_eq_true _ _).mp hrun
  obtain ⟨hsafe, h₁⟩ := Bool.and_eq_true_iff.mp h₁
  obtain ⟨d₂, hd₂, h₂⟩ := (Option.any_eq_true _ _).mp h₁
  obtain ⟨d, hd, hnum⟩ := (Option.any_eq_true _ _).mp h₂
  obtain ⟨p, req, k, j, hj, hp, ht, hP⟩ := numberIs_spec hnum
  obtain ⟨hb, hnext⟩ := of_decide_eq_true hP
  have hr₁ : Reach SafeKill d₁ := by
    apply Reach.fresh.runs ?_ hd₁
    intro e he d hkill
    subst hkill
    exact absurd he (by simp [pickedUp, startEmpty, submit])
  have hr : Reach SafeKill d := by
    apply (hr₁.step (fun _ => of_decide_eq_true hsafe) hd₂).runs ?_ hd
    intro e he d hkill
    subst hkill
    exact absurd he (by simp [second, startOne])
  exact ⟨d, p, req, k, j, hj, hr, hp, ht, hnext, (newjobno_fresh hr hb hp ht).1 req rfl j hj⟩

/-! ## A number that is used again -/

/-- The first job is accepted, the daemon is terminated before the printer thread has picked it
up, and after the restart another client is about to get a number. -/
def reuse : List Event :=
  startEmpty ++ submit 0 ++ [.kill] ++ second

set_option maxRecDepth 10000 in
/-- After the restart, the number of the first job is handed out again while its files are still
in the spool. -/
theorem newjobno_reused : ∃ d p req k, ∃ j ∈ unprinted d.out, Reach (fun _ _ => True) d ∧
    numbered d.out < 2 ^ 31 - 1 ∧ d.proc = some p ∧
    p.threads (.client 1) = some (Client.jobInc req, k) ∧ j.jobid = p.mem.nextjob ∧
    d.spool.data.get (fileName j.jobid) ≠ none ∧ d.spool.reqs.get (fileName j.jobid) ≠ none := by
  have hrun : ((runs Daemon.fresh reuse).any (numberIs 1 fun d i j =>
      decide (numbered d.out < 2 ^ 31 - 1 ∧ j.jobid = i ∧
        (d.spool.data.get (fileName j.jobid)).isSome ∧
        (d.spool.reqs.get (fileName j.jobid)).isSome))) = true := by decide +kernel
  obtain ⟨d, hd, hnum⟩ := (Option.any_eq_true _ _).mp hrun
  obtain ⟨p, req, k, j, hj, hp, ht, hP⟩ := numberIs_spec hnum
  obtain ⟨hb, hid, hdata, hreq⟩ := of_decide_eq_true hP
  exact ⟨d, p, req, k, j, hj, Reach.fresh.runs (fun _ _ _ => trivial) hd, hb, hp, ht, hid,
    Option.isSome_iff_ne_none.mp hdata, Option.isSome_iff_ne_none.mp hreq⟩

end LearningNotes.Printd
