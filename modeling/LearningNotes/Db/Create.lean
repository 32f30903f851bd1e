import LearningNotes.Db.Processes
import LearningNotes.Db.Wp

/-!
# Creating a database

`db_open` with `O_CREAT` and `O_TRUNC`, by any number of processes at once. The index file is
truncated by `open`, before any lock is taken, so that it may become empty between any two steps
of another process that is just about to look at its size or has just written the table.

What holds nevertheless (`Creating`): since the first of the calls the file is empty or is the
table of a new database, and if it is empty then some process has yet to look at its size, or has
found it empty and still has the lock.
-/

namespace LearningNotes.Db

open RangeLock (Held held_acquire held_clip)

/-- How far the `db_open` of a process has come; `out` is before it has truncated the index file
and after it has given the lock back. -/
inductive Stage where
  | out
  | opened
  | locked
  | sized (n : Nat)
  | filled

namespace Stage

/-- The process has the lock of the whole index file. -/
def Locked : Stage → Prop
  | locked | sized _ | filled => True
  | _ => False

/-- The process will write the table if the index file stays empty. -/
def Fills : Stage → Prop
  | opened | locked | sized 0 => True
  | _ => False

end Stage

/-- The files and the locks, how far each process has come, and whether one of them has opened
the index file. -/
structure Opening where
  os : OS
  stage : Pid → Stage
  begun : Prop

variable {w w' : Opening} {p q : Pid} {locks : List (RangeLock Pid Fd)} {st : Stage} {db : DB}

/-- Process `p` has made a step. -/
def Opening.step (w : Opening) (p : Pid) (os : OS) (st : Stage) (begun : Prop) : Opening :=
  ⟨os, Function.update w.stage p st, begun⟩

theorem Opening.stage_self (os : OS) (b : Prop) : (w.step p os st b).stage p = st :=
  Function.update_self ..

theorem Opening.stage_ne (os : OS) (b : Prop) (h : q ≠ p) :
    (w.step p os st b).stage q = w.stage q := Function.update_of_ne h ..

/-- **The invariant.** -/
structure Creating (w : Opening) : Prop where
  excl : ∀ p q t, Held w.os.locks p .idxfd .wrlck 0 → Held w.os.locks q .idxfd t 0 → p = q
  held : ∀ p, (w.stage p).Locked → Held w.os.locks p .idxfd .wrlck 0
  table : w.begun → w.os.idx = [] ∨ w.os.idx = emptyTable
  fills : w.begun → w.os.idx = [] → ∃ p, (w.stage p).Fills
  empty : ∀ p, w.stage p = .sized 0 → w.os.idx = []

/-! ## The steps -/

/-- The index file is truncated. -/
theorem Creating.openIdx (h : Creating w) (p : Pid) :
    Creating (w.step p { w.os with idx := [] } .opened True) where
  excl := h.excl
  held := by
    intro q hq
    by_cases hqp : q = p
    · rw [hqp, Opening.stage_self] at hq
      exact hq.elim
    · rw [Opening.stage_ne _ _ hqp] at hq
      exact h.held q hq
  table := fun _ => Or.inl rfl
  fills := fun _ _ => ⟨p, by rw [Opening.stage_self]; trivial⟩
  empty := fun _ _ => rfl

/-- The data file is truncated. -/
theorem Creating.openDat (h : Creating w) : Creating { w with os := { w.os with dat := [] } } :=
  ⟨h.excl, h.held, h.table, h.fills, h.empty⟩

/-- The lock is taken. -/
theorem Creating.lock (h : Creating w)
    (hacq : RangeLock.acquire w.os.locks p .idxfd .wrlck 0 (lockStop 0 0) = some locks) :
    Creating (w.step p { w.os with locks := locks } .locked w.begun) where
  excl := by
    intro q₁ q₂ t h₁ h₂
    rcases (held_acquire hacq).mp h₁ with ⟨rfl, -⟩ | ⟨hold₁, hout₁⟩
    · rcases (held_acquire hacq).mp h₂ with ⟨rfl, -⟩ | ⟨hold₂, hout₂⟩
      · rfl
      · by_contra hne
        have hshared := RangeLock.exclusive_of_acquire hacq (Ne.symm hne) ⟨Nat.zero_le _, rfl⟩ hold₂
        exact absurd hshared.1 (by simp)
    · rcases (held_acquire hacq).mp h₂ with ⟨rfl, -⟩ | ⟨hold₂, -⟩
      · by_contra hne
        have hshared := RangeLock.exclusive_of_acquire hacq hne ⟨Nat.zero_le _, rfl⟩ hold₁
        exact absurd hshared.1 (by simp)
      · exact h.excl q₁ q₂ t hold₁ hold₂
  held := by
    intro q hq
    by_cases hqp : q = p
    · exact (held_acquire hacq).mpr (Or.inl ⟨hqp, rfl, rfl, Nat.zero_le _, rfl⟩)
    · rw [Opening.stage_ne _ _ hqp] at hq
      exact (held_acquire hacq).mpr (Or.inr ⟨h.held q hq, fun hin => hqp hin.1⟩)
  table := h.table
  fills := fun _ _ => ⟨p, by rw [Opening.stage_self]; trivial⟩
  empty := by
    intro q hq
    by_cases hqp : q = p
    · rw [hqp, Opening.stage_self] at hq
      exact absurd hq (by simp)
    · rw [Opening.stage_ne _ _ hqp] at hq
      exact h.empty q hq

/-- The process that has the lock goes on. If the file is empty, it will write the table. -/
theorem Creating.goOn (h : Creating w) (hp : (w.stage p).Locked) {idx : List Byte}
    (htable : idx = [] ∨ idx = emptyTable)
    (hfills : idx = [] → w.os.idx = [] ∧ ((w.stage p).Fills → st.Fills))
    (hempty : st = .sized 0 → idx = []) :
    Creating (w.step p { w.os with idx := idx } st w.begun) where
  excl := h.excl
  held := by
    intro q hq
    by_cases hqp : q = p
    · exact hqp ▸ h.held p hp
    · rw [Opening.stage_ne _ _ hqp] at hq
      exact h.held q hq
  table := fun _ => htable
  fills := by
    intro hb hidx
    obtain ⟨hold, hfill⟩ := hfills hidx
    obtain ⟨q, hq⟩ := h.fills hb hold
    refine ⟨q, ?_⟩
    by_cases hqp : q = p
    · subst hqp
      rw [Opening.stage_self]
      exact hfill hq
    · rw [Opening.stage_ne _ _ hqp]
      exact hq
  empty := by
    intro q hq
    by_cases hqp : q = p
    · rw [hqp, Opening.stage_self] at hq
      exact hempty hq
    · -- nobody else has the lock
      rw [Opening.stage_ne _ _ hqp] at hq
      have hlocked : (w.stage q).Locked := by
        rw [hq]
        trivial
      exact absurd (h.excl q p _ (h.held q hlocked) (h.held p hp)) hqp

/-- The lock is given back. -/
theorem Creating.unlock (h : Creating w) (hp : ¬ (w.stage p).Fills) :
    Creating (w.step p
      { w.os with locks := RangeLock.clip w.os.locks p .idxfd 0 (lockStop 0 0) } .out w.begun) where
  excl := fun q₁ q₂ t h₁ h₂ => h.excl q₁ q₂ t (held_clip.mp h₁).1 (held_clip.mp h₂).1
  held := by
    intro q hq
    by_cases hqp : q = p
    · rw [hqp, Opening.stage_self] at hq
      exact hq.elim
    · rw [Opening.stage_ne _ _ hqp] at hq
      exact held_clip.mpr ⟨h.held q hq, fun hin => hqp hin.1⟩
  table := h.table
  fills := by
    intro hb hidx
    obtain ⟨q, hq⟩ := h.fills hb hidx
    have hqp : q ≠ p := fun he => hp (he ▸ hq)
    exact ⟨q, by rw [Opening.stage_ne _ _ hqp]; exact hq⟩
  empty := by
    intro q hq
    by_cases hqp : q = p
    · rw [hqp, Opening.stage_self] at hq
      exact absurd hq (by simp)
    · rw [Opening.stage_ne _ _ hqp] at hq
      exact h.empty q hq

/-! ## One call -/

/-- What the others leave alone. -/
structure Meanwhile (p : Pid) (w w' : Opening) : Prop where
  stage : w'.stage p = w.stage p
  begun : w.begun → w'.begun

/-- What operation `o` of process `p` does. -/
structure Opens (p : Pid) (o : Op) (w w' : Opening) : Prop where
  creating : Creating w'
  stage : ∀ q, q ≠ p → w'.stage q = w.stage q
  begun : w.begun → w'.begun
  out : w'.stage p ≠ .out → o = .openf .idxfd true ∨
    (w.stage p ≠ .out ∧ ∀ off len, o ≠ .unlock .idxfd off len)

/-- The rules for a call of process `p`. -/
def openRules (p : Pid) : Prog.Rules Op OS Opening :=
  ⟨Opening.os, Meanwhile p, fun o w w' => Creating w → Opens p o w w'⟩

/-- A system call. -/
theorem wpM_sys {τ : Type} {R : Prog.Rules Op OS τ} {H : Fatal → τ → Prop} {o : Op}
    {Q : Res o → DB → τ → Prop} {t : τ}
    (h : ∀ t₁, R.rely t t₁ → ∀ r os, sysStep p o (R.erase t₁) = some (r, os) →
      ∃ t₂, R.erase t₂ = os ∧ R.guar o t₁ t₂ ∧ Q r db t₂) : wpM R p (sys o) Q H db t := h

/-- `db_rewind` makes no system call. -/
theorem wpM_rewindPos {τ : Type} {R : Prog.Rules Op OS τ} {H : Fatal → τ → Prop}
    {Q : Unit → DB → τ → Prop} {t : τ} (h : ∀ db', Q () db' t) : wpM R p dbRewind Q H db t := by
  have hoff : ((db.nhash : Int) + 1) * PTR_SZ + 1 = (((db.nhash + 1) * PTR_SZ + 1 : Nat) : Int) := by
    push_cast
    rfl
  unfold dbRewind
  simp only [wpM_bind, wpM_get, hoff, wpM_lseek_set, wpM_modify]
  rw [wpM_errIf_neg (by omega)]
  exact h _

/-- The end of `db_open`, behind the table. -/
theorem wpM_openEnd (hst : w.stage p = .filled ∨ ∃ n, w.stage p = .sized (n + 1)) (hb : w.begun) :
    wpM (openRules p) p (do sys (.unlock .idxfd 0 0); dbRewind)
      (fun _ _ w' => w'.stage p = .out ∧ w'.begun) (fun _ _ => False) db w := by
  rw [wpM_bind]
  refine wpM_unlock fun w₁ hw₁ => ?_
  have hst₁ : w₁.stage p = .filled ∨ ∃ n, w₁.stage p = .sized (n + 1) := by
    rw [hw₁.stage]
    exact hst
  have hnot : ¬ (w₁.stage p).Fills := by
    rcases hst₁ with h | ⟨n, h⟩
    · rw [h]
      exact id
    · rw [h]
      exact id
  refine ⟨w₁.step p { w₁.os with
    locks := RangeLock.clip w₁.os.locks p .idxfd 0 (lockStop 0 0) } .out w₁.begun, rfl,
    fun hc => ⟨hc.unlock hnot, fun q hq => Opening.stage_ne _ _ hq, id, fun ho => ?_⟩, ?_⟩
  · exact absurd (Opening.stage_self _ _) ho
  · exact wpM_rewindPos fun db' => ⟨Opening.stage_self _ _, hw₁.begun hb⟩

/-- **`db_open`** with `O_CREAT` and `O_TRUNC`. -/
theorem wpM_open : wpM (openRules p) p (dbOpen true true)
    (fun _ _ w' => w'.stage p = .out ∧ w'.begun) (fun _ _ => False) db w := by
  unfold dbOpen
  simp only [wpM_bind, wpM_set]
  -- the index file
  refine wpM_sys fun w₁ hw₁ _ os hst => ?_
  cases hst
  refine ⟨w₁.step p { w₁.os with idx := [] } .opened True, rfl, fun hc => ?_, ?_⟩
  · exact ⟨hc.openIdx p, fun q hq => Opening.stage_ne _ _ hq, fun _ => trivial, fun _ => Or.inl rfl⟩
  -- the data file
  have hst₁ : (w₁.step p { w₁.os with idx := [] } .opened True).stage p = .opened :=
    Opening.stage_self _ _
  refine wpM_sys fun w₂ hw₂ _ os hst => ?_
  cases hst
  refine ⟨{ w₂ with os := { w₂.os with dat := [] } }, rfl, fun hc => ?_, ?_⟩
  · exact ⟨hc.openDat, fun q hq => rfl, id, fun ho => Or.inr ⟨ho, by simp⟩⟩
  have hst₂ : w₂.stage p = .opened := hw₂.stage.trans hst₁
  have hb₂ : w₂.begun := hw₂.begun trivial
  rw [if_pos (by rfl)]
  simp only [writewLock, unLock, wpM_bind]
  -- the lock
  refine wpM_lock fun w₃ locks hw₃ hacq => ?_
  refine ⟨w₃.step p { w₃.os with locks := locks } .locked w₃.begun, rfl, fun hc => ?_, ?_⟩
  · have hst₃ : w₃.stage p ≠ .out := by
      rw [hw₃.stage, show ({ w₂ with os := { w₂.os with dat := [] } } : Opening).stage p = .opened from hst₂]
      simp
    exact ⟨hc.lock hacq, fun q hq => Opening.stage_ne _ _ hq, id, fun _ => Or.inr ⟨hst₃, by simp⟩⟩
  -- the size
  refine wpM_sys fun w₄ hw₄ n os hst => ?_
  cases hst
  have hst₄ : w₄.stage p = .locked := hw₄.stage.trans (Opening.stage_self _ _)
  have hb₄ : w₄.begun := hw₄.begun (hw₃.begun hb₂)
  have hlocked : (w₄.stage p).Locked := by
    rw [hst₄]
    trivial
  refine ⟨w₄.step p { w₄.os with idx := w₄.os.idx } (.sized w₄.os.idx.length) w₄.begun, rfl,
    fun hc => ?_, ?_⟩
  · refine ⟨hc.goOn hlocked (hc.table hb₄) (fun hidx => ⟨hidx, fun _ => ?_⟩) (fun hsz => ?_),
      fun q hq => Opening.stage_ne _ _ hq, id, fun _ => Or.inr ⟨by rw [hst₄]; simp, by simp⟩⟩
    · rw [hidx]
      trivial
    · cases hidx : w₄.os.idx with
      | nil => rfl
      | cons b idx =>
        rw [hidx] at hsz
        exact absurd hsz (by simp)
  show wpM _ p (if w₄.os.idx.length = 0 then _ else _) _ _ _ _
  by_cases hlen : w₄.os.idx.length = 0
  · rw [if_pos hlen, hlen, wpM_bind]
    -- the table
    refine wpM_write fun w₅ hw₅ => ?_
    have hst₅ : w₅.stage p = .sized 0 := hw₅.stage.trans (Opening.stage_self _ _)
    have hlocked₅ : (w₅.stage p).Locked := by
      rw [hst₅]
      trivial
    refine ⟨w₅.step p { w₅.os with idx := overwrite 0 w₅.os.idx 0 emptyTable } .filled w₅.begun,
      rfl, fun hc => ?_, wpM_openEnd (Or.inl (Opening.stage_self _ _)) (hw₅.begun hb₄)⟩
    have hidx : overwrite 0 w₅.os.idx 0 emptyTable = emptyTable := by
      rw [hc.empty p hst₅]
      exact overwrite_end 0 [] emptyTable
    have hne : emptyTable ≠ [] := by
      unfold emptyTable
      simp
    rw [hidx]
    exact ⟨hc.goOn hlocked₅ (Or.inr rfl) (fun he => absurd he hne) (by simp),
      fun q hq => Opening.stage_ne _ _ hq, id, fun _ => Or.inr ⟨by rw [hst₅]; simp, by simp⟩⟩
  · rw [if_neg hlen]
    obtain ⟨n, hn⟩ := Nat.exists_eq_succ_of_ne_zero hlen
    rw [hn]
    exact wpM_openEnd (Or.inr ⟨n, Opening.stage_self _ _⟩) hb₄

/-! ## Any number of calls -/

/-- Whether process `p` is between the `open` that truncates the index file and the unlocking
behind it, when `e` has happened. -/
def between (p : Pid) (b : Bool) : Happening → Bool
  | .op q (.openf .idxfd true) => if q = p then true else b
  | .op q (.unlock .idxfd _ _) => if q = p then false else b
  | _ => b

/-- Process `p` is between its truncating `open` and its unlocking. -/
def Between (p : Pid) (log : List Happening) : Prop := log.foldl (between p) false = true

instance (p : Pid) (log : List Happening) : Decidable (Between p log) :=
  inferInstanceAs (Decidable (_ = true))

theorem between_concat {log : List Happening} {e : Happening} :
    Between p (log ++ [e]) ↔ between p (log.foldl (between p) false) e = true := by
  unfold Between
  rw [List.foldl_append]
  rfl

theorem between_op_self {b : Bool} {o : Op} (h : o = .openf .idxfd true ∨
    (b = true ∧ ∀ off len, o ≠ .unlock .idxfd off len)) : between p b (.op p o) = true := by
  rcases h with rfl | ⟨rfl, hne⟩
  · exact if_pos rfl
  · unfold between
    split
    next heq =>
      cases heq
      exact if_pos rfl
    next off len heq =>
      cases heq
      exact absurd rfl (hne off len)
    next => rfl

theorem between_op_ne {b : Bool} {o : Op} (h : q ≠ p) : between q b (.op p o) = b := by
  unfold between
  split
  next heq =>
    cases heq
    exact if_neg (Ne.symm h)
  next heq =>
    cases heq
    exact if_neg (Ne.symm h)
  next => rfl

/-- The log agrees with what is known of the processes. -/
structure Logged (log : List Happening) (w : Opening) : Prop where
  creating : Creating w
  between : ∀ p, w.stage p ≠ .out → Between p log
  begun : ∀ p r, .ret p r ∈ log → w.begun

theorem Logged.quiet {log : List Happening} {e : Happening} (h : Logged log w)
    (he : ∀ p b, Db.between p b e = b) (hret : ∀ p r, e = .ret p r → w.begun) :
    Keeps Meanwhile Logged log e w w where
  good := by
    refine ⟨h.creating, fun p hp => ?_, fun p r hr => ?_⟩
    · rw [between_concat, he]
      exact h.between p hp
    · rcases List.mem_append.mp hr with hr | hr
      · exact h.begun p r hr
      · exact hret p r (List.mem_singleton.mp hr).symm
  rely := fun _ _ => ⟨rfl, id⟩

theorem Logged.op {log : List Happening} {o : Op} (h : Logged log w) (ho : Opens p o w w') :
    Keeps Meanwhile Logged log (.op p o) w w' where
  good := by
    refine ⟨ho.creating, fun q hq => ?_, fun q r hr => ?_⟩
    · rw [between_concat]
      by_cases hqp : q = p
      · subst hqp
        refine between_op_self ?_
        rcases ho.out hq with hopen | ⟨hout, hne⟩
        · exact Or.inl hopen
        · exact Or.inr ⟨h.between q hout, hne⟩
      · rw [between_op_ne hqp]
        exact h.between q (ho.stage q hqp ▸ hq)
    · rcases List.mem_append.mp hr with hr | hr
      · exact ho.begun (h.begun q r hr)
      · exact absurd (List.mem_singleton.mp hr) (by simp)
  rely := fun q hq => ⟨ho.stage q hq, ho.begun⟩

/-- What holds when processes create the same database at once. -/
def creation : Argument library (fun _ => (· = .open true true)) Opening where
  erase := Opening.os
  rely := Meanwhile
  guar := fun p _ o w w' => Creating w → Opens p o w w'
  good := Logged
  idle := fun _ _ _ => True
  done := fun _ _ _ w => w.begun
  stopped := fun _ _ _ _ => False
  rely_refl := fun _ _ => ⟨rfl, id⟩
  rely_trans := fun h h' => ⟨h'.stage.trans h.stage, fun hb => h'.begun (h.begun hb)⟩
  idle_rely := fun _ h => h
  done_rely := fun hr h => hr.begun h
  stopped_rely := fun _ h => h
  call := by
    rintro log w p l c h - rfl -
    refine ⟨w, rfl, h.quiet (fun _ _ => rfl) nofun, ?_⟩
    change wpM (openRules p) p (dbOpen true true >>= fun _ => pure Ret.unit) (fun _ _ w => w.begun)
      (fun _ _ => False) l w
    rw [wpM_bind]
    exact wpM_mono wpM_open (fun _ _ _ h => h.2) fun _ _ h => h
  op := fun h _ hg => h.op (hg h.creating)
  ret := fun {_ w _ _ _ _ _} h _ hd => ⟨w, rfl, h.quiet (fun _ _ => rfl) fun _ _ _ => hd, trivial⟩
  stop := fun _ _ hs => hs.elim

/-- Before the first of the calls. -/
theorem Logged.start (idx dat : List Byte) :
    Logged [] ⟨⟨idx, dat, []⟩, fun _ => .out, False⟩ where
  creating := by
    have hno : ∀ p f t n, ¬ Held ([] : List (RangeLock Pid Fd)) p f t n := by
      intro p f t n ⟨l, hl, _⟩
      exact absurd hl List.not_mem_nil
    exact ⟨fun p _ _ hh => absurd hh (hno p _ _ _), fun _ hp => hp.elim, fun hb => hb.elim,
      fun hb => hb.elim, nofun⟩
  between := fun _ hp => absurd rfl hp
  begun := fun _ _ hr => absurd hr List.not_mem_nil

/-- **Creating a database.** When any number of processes create the same database at once, the
index file is the table of a new database whenever none of them is between truncating it and
giving back the lock, and one of them is done. -/
theorem create_table {idx dat : List Byte} {db : Pid → DB} {s : Processes}
    (hr : Reached (· = .open true true) ⟨idx, dat, []⟩ db s) (hout : ∀ p, ¬ Between p s.log)
    {p : Pid} {r : Ret} (hret : .ret p r ∈ s.log) : s.state.idx = emptyTable := by
  have hstart := @Argument.holds_start _ _ _ _ _ _ _ _ _ library _ creation _ db
    (Logged.start idx dat) fun _ => trivial
  obtain ⟨w, hw⟩ := hstart.reach hr
  have hstate : w.os = s.state := hw.state
  have hgood : Logged s.log w := hw.good
  have hstage : ∀ q, w.stage q = .out := by
    intro q
    by_contra hq
    exact hout q (hgood.between q hq)
  have hbegun := hgood.begun p r hret
  rw [← hstate]
  rcases hgood.creating.table hbegun with hnil | htable
  · obtain ⟨q, hq⟩ := hgood.creating.fills hbegun hnil
    rw [hstage q] at hq
    exact hq.elim
  · exact htable

/-- A process without events is not between anything. -/
theorem not_between {log : List Happening} (h : ∀ e ∈ log, e.proc ≠ p) : ¬ Between p log := by
  suffices ∀ b, log.foldl (between p) b = b by
    unfold Between
    rw [this]
    decide
  intro b
  induction log with
  | nil => rfl
  | cons e log ih =>
    have he : between p b e = b := by
      cases e with
      | op q o => exact between_op_ne (Ne.symm (h _ (List.mem_cons_self ..)))
      | call q c => rfl
      | ret q r => rfl
      | stop q e => rfl
    rw [List.foldl_cons, he]
    exact ih fun e he => h e (List.mem_cons_of_mem _ he)

/-- Process `1` truncates the file when process `0` has written the table and not yet given back
the lock. -/
def bothOpen : List (Act Pid Call) :=
  [.call 0 (.open true true), .go 0, .go 0, .go 0, .go 0, .go 0, .call 1 (.open true true), .go 1,
    .go 0, .go 0, .go 1, .go 1, .go 1, .go 1, .go 1, .go 1]

/-- Both have returned, nobody else has done anything, and neither is between two steps. -/
def bothDone (s : Processes) : Bool :=
  s.log.all (fun e => e.proc = 0 || e.proc = 1) && !decide (Between 0 s.log) &&
    !decide (Between 1 s.log) && s.log.any fun | .ret 0 .unit => true | _ => false

/-- The index file has the table when both calls have returned. -/
theorem create_table_two : ∃ s : Processes,
    Reached (· = .open true true) ⟨[], [], []⟩ (fun _ => {}) s ∧ s.state.idx = emptyTable := by
  have hrun : (library.perform bothOpen (Pool.start ⟨[], [], []⟩ fun _ => {})).any bothDone = true := by
    decide +kernel
  obtain ⟨s, hs, hdone⟩ := (Option.any_eq_true _ _).mp hrun
  simp only [bothDone, Bool.and_eq_true, List.all_eq_true, List.any_eq_true, Bool.or_eq_true,
    decide_eq_true_eq, Bool.not_eq_true', decide_eq_false_iff_not] at hdone
  obtain ⟨⟨⟨hproc, h₀⟩, h₁⟩, e, he, hret⟩ := hdone
  have hok : ∀ a ∈ bothOpen, a.Ok fun _ => (· = Call.open true true) := by
    simp [bothOpen, Act.Ok]
  have hr : Reached (· = .open true true) ⟨[], [], []⟩ (fun _ => {}) s :=
    Machine.reach_of_perform hok hs
  refine ⟨s, hr, ?_⟩
  have hout : ∀ p, ¬ Between p s.log := by
    intro p
    by_cases hp₀ : p = 0
    · exact hp₀ ▸ h₀
    by_cases hp₁ : p = 1
    · exact hp₁ ▸ h₁
    refine not_between fun e he => ?_
    rcases hproc e he with hp | hp
    · exact hp ▸ Ne.symm hp₀
    · exact hp ▸ Ne.symm hp₁
  cases e with
  | ret q r =>
    split at hret
    next heq => exact create_table hr hout he
    next => exact absurd hret (by simp)
  | call q c => exact absurd hret (by simp)
  | op q o => exact absurd hret (by simp)
  | stop q e => exact absurd hret (by simp)

end LearningNotes.Db
