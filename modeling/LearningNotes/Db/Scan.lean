import LearningNotes.Db.Fetch

/-!
# Scanning the index file

`db_nextrec` steps from record to record along the file, whatever list a record is in, and
holds nothing but a shared lock on the free list. Two facts carry it through the steps of
the other processes. The file offset stays on an edge between two records, because records
keep their sizes and new ones come last. And a key that is not all blank is under its
record's pair as long as nobody can delete: what is read of the record, of its key and of
its data then belongs together, although it is read at three different times.

For a process that runs alone the results are exact: `Scanned` says which record comes next.
-/

namespace LearningNotes.Db

open RangeLock (InRange)

variable {P : List Byte → Prop} {p : Pid} {E : Env P p} {call : Call} {H : Fatal → World → Prop}
  {db : DB} {w w₀ w' : World} {o : Nat} {r : Rec} {rest : List Rec}

/-! ## Edges -/

theorem Rec.Same.size {r r' : Rec} (h : r.Same r') : r'.size = r.size := by
  unfold Rec.size
  rw [Rec.length_text, Rec.length_text, h.1, h.2.1, h.2.2]

theorem Rec.Same.length_text {r r' : Rec} (h : r.Same r') : r'.text.length = r.text.length := by
  have := h.size
  unfold Rec.size at this
  omega

/-- A file offset where a record starts, or where the index file ends. -/
def AtEdge (w : World) (n : Nat) : Prop := Edge Rec.size recsOff w.x.recs n

theorem AtEdge.rely (h : AtEdge w o) (hr : Rely P p w w') : AtEdge w' o := by
  refine Edge.mono Rec.size_pos (fun o r hr₀ => ?_) h
  obtain ⟨r', hr', hsame⟩ := hr.shape o r hr₀
  exact ⟨r', hr', hsame.size⟩

/-- An edge lies behind the hash table. -/
theorem AtEdge.pos (h : AtEdge w o) : 0 < o := by
  obtain ⟨as₁, as₂, -, rfl⟩ := h
  exact Nat.add_pos_left (by decide) _

/-- At an edge one can read a record and be at an edge again, or the file ends. -/
theorem AtEdge.next (h : AtEdge w o) :
    (∃ r, w.x.recAt o = some r ∧ AtEdge w (o + r.size)) ∨ o = w.x.size := Edge.next Rec.size_pos h

/-! ## The lock of the scan -/

/-- What a process knows while it holds the shared lock of the free list. -/
structure Reading (P : List Byte → Prop) (p : Pid) (w : World) : Prop where
  inv : Inv P w
  held : w.Holds p .rdlck .free
  locks : HoldsOnly p w fun f n => f = .idxfd ∧ n = FREE_OFF
  hand : w.cells (.hand p) = []
  pend : w.pend p = []
  lin : w.lin p = none
  wiped : w.wiped = none

theorem Reading.rely (h : Reading P p w) (hr : Rely P p w w') : Reading P p w' :=
  ⟨hr.inv h.inv, hr.holds.mpr h.held, h.locks.rely hr,
    (hr.cells (.hand p) ⟨.wrlck, rfl⟩).trans h.hand, hr.pend.trans h.pend, hr.lin.trans h.lin,
    (hr.wiped ⟨_, h.held⟩).trans h.wiped⟩

/-- A process that only reads owns no list. -/
theorem Reading.not_owns_chain (h : Reading P p w) (i : Nat) : ¬ w.Owns p (.chain i) := by
  intro ho
  have hb := (h.locks _ _ _ ho).2
  simp only [FREE_OFF, PTR_SZ, HASH_OFF] at hb
  omega

/-- The lock is granted: nobody is deleting anything. -/
theorem wpM_lockScan {Q : Unit → DB → World → Prop} (hidle : Idle P p w) (hlin : w.lin p = none)
    (hq : ∀ w₁ table, E.rel w w₁ → Reading P p (w₁.setLocks table) → Q () db (w₁.setLocks table)) :
    wpM (rules E call) p (sys (.lock .idxfd .rdlck FREE_OFF 1)) Q H db w := by
  have hfree : ∀ n, InRange FREE_OFF (lockStop FREE_OFF 1) n → ∀ t',
      ¬ RangeLock.Held w.os.locks p .idxfd t' n := by
    intro n _ t' hh
    exact hidle.locks _ _ _ hh
  refine wpM_lockRange hfree fun w₁ table hw₁ hacq hnone => hq w₁ table hw₁ ?_
  have hrely := E.rely hw₁
  have h₁ := hidle.rely hrely
  refine ⟨Inv.lock hacq hnone h₁.inv, ?_, ?_, h₁.hand, h₁.pend, hrely.lin.trans hlin, ?_⟩
  · exact (held_lock hacq hnone).mpr (Or.inr ⟨rfl, rfl, rfl, inRange_byte.mpr rfl⟩)
  · intro f t n hh
    rcases (held_lock hacq hnone).mp hh with hh | ⟨-, hf, -, hn⟩
    · exact (h₁.locks _ _ _ hh).elim
    · exact ⟨hf, inRange_byte.mp hn⟩
  · show w₁.wiped = none
    by_contra hne
    obtain ⟨q, ho⟩ := h₁.inv.guarded.wiped hne
    by_cases hqp : q = p
    · exact h₁.locks _ _ _ (hqp ▸ ho)
    · have hrd := RangeLock.exclusive_of_acquire hacq hqp (inRange_byte.mpr rfl) ho
      exact absurd hrd.2 (by decide)

/-- The lock is given back. -/
theorem wpM_unlockScan {Q : Unit → DB → World → Prop} (h : Reading P p w)
    (hq : ∀ w₁ w', E.rel w w₁ → Idle P p w' → w'.lin p = none → w'.x = w₁.x → w'.y = w₁.y →
      w'.wrote = w₁.wrote → Q () db w') :
    wpM (rules E call) p (unLock .idxfd FREE_OFF 1) Q H db w := by
  refine wpM_release (fun w₁ => w₁.map) (fun w₁ => w₁.lin p) fun w₁ hw₁ => ?_
  have h₁ := h.rely (E.rely hw₁)
  have hrel : Releasable P p w₁ .idxfd FREE_OFF (lockStop FREE_OFF 1) w₁.map :=
    ⟨h₁.inv, fun i ho => absurd ho (h₁.not_owns_chain i), fun _ => h₁.wiped, fun _ _ => rfl,
      fun _ k ho _ _ => absurd ho (h₁.not_owns_chain _)⟩
  refine ⟨hrel, Or.inl ⟨rfl, rfl⟩, hq w₁ _ hw₁ ⟨Inv.release hrel, ?_, h₁.hand, h₁.pend⟩ ?_ rfl rfl rfl⟩
  · intro f t n hh
    obtain ⟨hh, hnot⟩ := held_release.mp hh
    obtain ⟨hf, hn⟩ := h₁.locks _ _ _ hh
    exact hnot ⟨rfl, hf, inRange_byte.mpr hn⟩
  · exact (Function.update_self ..).trans h₁.lin

/-! ## The next record -/

theorem all_space {k : List Byte} : (k.all (· = SPACE)) = true ↔ Blank k := by
  simp [Blank]

/-- The records that are left are blank, and the file offset is at the end. -/
structure AtEnd (rest : List Rec) (w : World) (pos : Nat) : Prop where
  blank : ∀ r ∈ rest, Blank r.key
  pos : pos = w.x.size

/-- The record `r` at `o` is the next one of the records `rest` that is not blank; behind it
come the records `rest'`. -/
structure Scanned (rest : List Rec) (w : World) (o : Nat) (r : Rec) (rest' : List Rec) : Prop where
  split : ∃ bl, rest = bl ++ r :: rest' ∧ ∀ b ∈ bl, Blank b.key
  notBlank : ¬ Blank r.key
  pos : ∃ pre, w.x.recs = pre ++ r :: rest' ∧ o = recsOff + extent Rec.size pre

/-- The records `rest` are the ones behind the file offset. -/
def Ahead (w : World) (rest : List Rec) (pos : Nat) : Prop :=
  ∃ pre, w.x.recs = pre ++ rest ∧ pos = recsOff + extent Rec.size pre

theorem Ahead.cons (h : Ahead w (r :: rest) o) : w.x.recAt o = some r ∧ Ahead w rest (o + r.size) := by
  obtain ⟨pre, hx, rfl⟩ := h
  refine ⟨(entryAt_eq_some Rec.size_pos).mpr ⟨pre, rest, hx, rfl⟩, pre ++ [r], ?_, ?_⟩
  · rw [hx, List.append_assoc, List.singleton_append]
  · rw [extent_append, extent_cons, extent_nil]
    omega

theorem Ahead.nil (h : Ahead w [] o) : o = w.x.size := by
  obtain ⟨pre, hx, rfl⟩ := h
  rw [Index.size, hx, List.append_nil]

/-- Blank keys are only as far as pointers reach. -/
def LowBlanks (w : World) : Prop := ∀ o r, w.x.recAt o = some r → Blank r.key → o ≤ PTR_MAX

/-- A key that can be told from the key of a deleted record, and from the rest of its record. -/
def PlainKey (k : List Byte) : Prop := ¬ Blank k ∧ SEP ∉ k

instance (k : List Byte) : Decidable (PlainKey k) := inferInstanceAs (Decidable (_ ∧ _))

/-- No blank key is stored, so the deleted records are where pointers reach. -/
theorem lowBlanks_plain (hinv : Inv PlainKey w) : LowBlanks w := by
  intro o r hr hb
  rcases hinv.low o r hr hb with hle | hplain
  · exact hle
  · exact absurd hb hplain.1

/-- The loop of `db_nextrec`. In a world that nobody else changes, `rest` are the records
ahead. -/
theorem wpM_nextrecLoop {Q : Bool → DB → World → Prop} (hclean : ∀ k, P k → SEP ∉ k)
    (hlow : ∀ w, Inv P w → (E.Alone → w = w₀) → LowBlanks w)
    (hend : ∀ db' w', Reading P p w' → Opened db' → AtEdge w' db'.idxpos →
      (E.Alone → w' = w₀ ∧ AtEnd rest w' db'.idxpos) → Q false db' w')
    (hrec : ∀ o r v (db db' : DB) w', Reading P p w' → Opened db' → db' = db.load o v r →
      w'.x.recAt o = some r → AtEdge w' db'.idxpos → ¬ Blank r.key →
      (E.Alone → w' = w₀ ∧ ∃ rest', Scanned rest w' o r rest') → Q true db' w') (fuel : Nat) :
    ∀ {rest₁ : List Rec} {db : DB} {w : World}, Reading P p w → Opened db →
      AtEdge w db.idxpos → 0 < fuel → PTR_MAX + 2 ≤ fuel + db.idxpos →
      (E.Alone → w = w₀ ∧ Ahead w rest₁ db.idxpos ∧
        ∃ bl, rest = bl ++ rest₁ ∧ ∀ b ∈ bl, Blank b.key) →
      wpM (rules E call) p (nextrecLoop fuel) Q H db w := by
  induction fuel with
  | zero => exact fun _ _ _ h => absurd h (Nat.lt_irrefl 0)
  | succ fuel ih =>
    intro rest₁ db w h hdb hedge _ hfuel halone
    unfold nextrecLoop
    rw [wpM_bind]
    refine wpM_readidx (Or.inr ⟨rfl, rfl⟩) fun w₁ hw₁ => ?_
    have h₁ := h.rely (E.rely hw₁)
    have hedge₁ := hedge.rely (E.rely hw₁)
    refine ⟨h₁.inv.files, ?_⟩
    rcases hedge₁.next with ⟨r₁, hr₁, -⟩ | hpos
    · refine Or.inl ⟨r₁, hr₁, fun w₂ hw₂ => ?_⟩
      have hrely₂ := E.rely hw₂
      have h₂ := h₁.rely hrely₂
      obtain ⟨r₂, hr₂, hsame⟩ := hrely₂.shape _ r₁ hr₁
      have hnext : AtEdge w₂ (db.idxpos + r₂.size) := by
        rcases (hedge₁.rely hrely₂).next with ⟨r, hr, hn⟩ | hsize
        · rw [hr] at hr₂
          cases hr₂
          exact hn
        · exact absurd hsize (ne_size hr₂)
      have hsep : SEP ∉ r₂.key := by
        rcases h₂.inv.legal _ r₂ hr₂ with hb | hP
        · intro hm
          exact absurd (hb SEP hm) (by decide)
        · exact hclean _ hP
      refine ⟨h₂.inv.files, r₂, hr₂, hsame.length_text, fun _ => ?_, fun hs => absurd hs hsep⟩
      have hdb₂ : Opened (db.load db.idxpos r₁.ptr r₂) := ⟨hdb.nhash, hdb.hashoff⟩
      have hptr : ¬ ((r₁.ptr : Nat) : Int) < 0 := by omega
      -- for a process that runs alone this is the first of the records ahead
      have hahead : E.Alone → w₂ = w₀ ∧ ∃ rest₂ bl, rest = bl ++ r₂ :: rest₂ ∧
          (∀ b ∈ bl, Blank b.key) ∧ Ahead w₂ (r₂ :: rest₂) db.idxpos := by
        intro ha
        obtain ⟨hw, hah, bl, hbl, hblank⟩ := halone ha
        have heq : w₂ = w := (ha _ _ hw₂).trans (ha _ _ hw₁)
        subst heq
        refine ⟨hw, ?_⟩
        cases rest₁ with
        | nil => exact absurd hah.nil (ne_size hr₂)
        | cons r rest₂ =>
          have hr := hah.cons.1
          rw [hr] at hr₂
          cases hr₂
          exact ⟨rest₂, bl, hbl, hblank, hah⟩
      simp only [wpM_ite, wpM_bind, wpM_get, wpM_pure]
      rw [if_neg hptr]
      show if (r₂.key.all (· = SPACE)) = true then _ else _
      by_cases hb : Blank r₂.key
      · -- a deleted record
        rw [if_pos (all_space.mpr hb)]
        have hle := hlow w₂ h₂.inv (fun ha => (hahead ha).1) _ r₂ hr₂ hb
        have hpos := Rec.size_pos r₂
        by_cases ha : E.Alone
        · obtain ⟨hw, rest₂, bl, hbl, hblank, hah⟩ := hahead ha
          refine @ih rest₂ _ w₂ h₂ hdb₂ hnext (by omega) ?_ fun _ => ⟨hw, hah.cons.2, bl ++ [r₂], ?_, ?_⟩
          · show PTR_MAX + 2 ≤ fuel + (db.idxpos + r₂.size)
            omega
          · rw [hbl, List.append_assoc, List.singleton_append]
          · intro b hm
            rcases List.mem_append.mp hm with hm | hm
            · exact hblank b hm
            · exact List.mem_singleton.mp hm ▸ hb
        · refine @ih [] _ w₂ h₂ hdb₂ hnext (by omega) ?_ fun h => absurd h ha
          show PTR_MAX + 2 ≤ fuel + (db.idxpos + r₂.size)
          omega
      · rw [if_neg (fun h => hb (all_space.mp h))]
        refine hrec _ r₂ r₁.ptr db _ w₂ h₂ hdb₂ rfl hr₂ hnext hb fun ha => ?_
        obtain ⟨hw, rest₂, bl, hbl, hblank, pre, hpre, hpos⟩ := hahead ha
        exact ⟨hw, rest₂, ⟨bl, hbl, hblank⟩, hb, pre, hpre, hpos⟩
    · -- the end of the file
      refine Or.inr ⟨rfl, hpos, ?_⟩
      simp only [wpM_ite, wpM_pure]
      rw [if_pos (by decide)]
      refine hend _ w₁ h₁ ⟨hdb.nhash, hdb.hashoff⟩ hedge₁ fun ha => ?_
      obtain ⟨hw, hah, bl, hbl, hblank⟩ := halone ha
      have heq : w₁ = w := ha _ _ hw₁
      subst heq
      refine ⟨hw, ⟨?_, hpos⟩⟩
      cases rest₁ with
      | nil =>
        rw [hbl, List.append_nil]
        exact hblank
      | cons r rest₂ => exact absurd hpos (ne_size hah.cons.1)

/-- A record that is not blank, while nobody deletes: its data is the one that was written
with its key. -/
theorem Reading.pair (h : Reading P p w) (hr : w.x.recAt o = some r) (hb : ¬ Blank r.key) :
    ∃ d, blockAt w.y r.datoff = some d ∧ r.datlen = blockSize d ∧ w.wrote r.key d.val := by
  obtain ⟨it, hmem, rfl⟩ := h.inv.placed.exists_cell hr
  refine ⟨it.data, h.inv.placed.block hmem, h.inv.placed.len _ _ hmem, ?_⟩
  rcases h.inv.wrote o it (h.inv.placed.mem_item hmem) hb with hw | hw
  · exact hw
  · rw [h.wiped] at hw
    exact absurd hw (by simp)

/-- Neither the records nor the data have changed. -/
def Still (w w' : World) : Prop := w'.x = w.x ∧ w'.y = w.y

theorem LowBlanks.still (h : LowBlanks w) (hs : Still w w') : LowBlanks w' := by
  intro o r hr
  rw [hs.1] at hr
  exact h o r hr

/-- `db_nextrec` at an edge. It returns a pair that was written for its key; in a world that
nobody else changes it is the next one of the records `rest` ahead. -/
theorem wpM_nextrec {Q : Option (List Byte × List Byte) → DB → World → Prop}
    (hclean : ∀ k, P k → SEP ∉ k)
    (hlow : ∀ w', Inv P w' → (E.Alone → Still w w') → LowBlanks w')
    (hidle : Idle P p w) (hlin : w.lin p = none) (hdb : Opened db) (hedge : AtEdge w db.idxpos)
    (hpos : 0 < db.idxpos) (hahead : E.Alone → Ahead w rest db.idxpos)
    (hend : ∀ db' w', Idle P p w' → w'.lin p = none → Opened db' → AtEdge w' db'.idxpos →
      (E.Alone → Still w w' ∧ AtEnd rest w db'.idxpos) → Q none db' w')
    (hrec : ∀ r d db' w', Idle P p w' → w'.lin p = none → Opened db' → AtEdge w' db'.idxpos →
      w'.wrote r.key d →
      (E.Alone → Still w w' ∧ ∃ o rest' s, Scanned rest w o r rest' ∧
        blockAt w.y r.datoff = some s ∧ s.val = d ∧ db'.idxpos = o + r.size) →
      Q (some (r.key, d)) db' w') :
    wpM (rules E call) p dbNextrec Q H db w := by
  have halone : ∀ {w₁ table}, E.rel w w₁ → E.Alone → Still w (w₁.setLocks table) := by
    intro w₁ table hw₁ ha
    rw [ha _ _ hw₁]
    exact ⟨rfl, rfl⟩
  unfold dbNextrec readwLock
  simp only [wpM_bind]
  refine wpM_lockScan hidle hlin fun w₁ table hw₁ h₁ => ?_
  have hedge₀ : AtEdge w₁ db.idxpos := hedge.rely (E.rely hw₁)
  have hedge₁ : AtEdge (w₁.setLocks table) db.idxpos := hedge₀
  have hlow₁ : ∀ w', Inv P w' → (E.Alone → w' = w₁.setLocks table) → LowBlanks w' :=
    fun w' hw' heq => hlow w' hw' fun ha => by
      rw [heq ha]
      exact halone hw₁ ha
  have hstart : E.Alone → w₁.setLocks table = w₁.setLocks table ∧
      Ahead (w₁.setLocks table) rest db.idxpos ∧ ∃ bl, rest = bl ++ rest ∧ ∀ b ∈ bl, Blank b.key := by
    intro ha
    obtain ⟨pre, hpre, ho⟩ := hahead ha
    exact ⟨rfl, ⟨pre, (halone hw₁ ha).1.symm ▸ hpre, ho⟩, [], rfl, fun b hb => absurd hb List.not_mem_nil⟩
  refine wpM_nextrecLoop hclean hlow₁ ?_ ?_ loopFuel h₁ hdb hedge₁ (Nat.succ_pos _) ?_ hstart
  · intro db' w₂ h₂ hdb₂ hedge₂ hex
    rw [wpM_ite, if_neg (by simp)]
    simp only [wpM_pure, wpM_bind]
    refine wpM_unlockScan h₂ fun w₃ w₄ hw₃ hidle₄ hlin₄ hx hy _ => ?_
    have hedge₄ : AtEdge w₄ db'.idxpos := by
      unfold AtEdge
      rw [hx]
      exact hedge₂.rely (E.rely hw₃)
    refine hend db' w₄ hidle₄ hlin₄ hdb₂ hedge₄ fun ha => ?_
    obtain ⟨heq, hat⟩ := hex ha
    have hstill : Still w (w₁.setLocks table) := halone hw₁ ha
    rw [ha _ _ hw₃] at hx hy
    subst heq
    exact ⟨⟨hx.trans hstill.1, hy.trans hstill.2⟩, hat.blank, hstill.1 ▸ hat.pos⟩
  · intro o r v db₁ db₂ w₂ h₂ hdb₂ hload hr hedge₂ hb hex
    rw [wpM_ite, if_pos rfl]
    simp only [wpM_pure, wpM_bind, wpM_get]
    have hoff : db₂.datoff = (r.datoff : Nat) := by rw [hload]; rfl
    refine wpM_readdat hoff fun w₃ hw₃ => ?_
    have hrely₃ := E.rely hw₃
    have h₃ := h₂.rely hrely₃
    -- the record may have new data by now, but not another key
    obtain ⟨r₃, hr₃, hkey⟩ := hrely₃.kept ⟨_, h₂.held⟩ o r hr hb
    obtain ⟨r₃', hr₃', hsame⟩ := hrely₃.shape o r hr
    rw [hr₃] at hr₃'
    cases hr₃'
    obtain ⟨d, hd, hlen, hwrote⟩ := h₃.pair hr₃ (hkey ▸ hb)
    have hdatlen : db₂.datlen = blockSize d := by
      rw [hload, ← hlen, hsame.2.2]
      rfl
    refine ⟨h₃.inv.files, d, hsame.2.1 ▸ hd, hdatlen, ?_⟩
    refine wpM_unlockScan h₃ fun w₄ w₅ hw₄ hidle₅ hlin₅ hx hy hwr => ?_
    have hedge₅ : AtEdge w₅ db₂.idxpos := by
      unfold AtEdge
      rw [hx]
      exact (hedge₂.rely hrely₃).rely (E.rely hw₄)
    have hbuf : db₂.idxbuf = r.key := by rw [hload]; rfl
    have hwrote₅ : w₅.wrote r.key d.val := by
      rw [hwr, ← hkey]
      exact (E.rely hw₄).wrote _ _ hwrote
    rw [hbuf]
    refine hrec r d.val _ w₅ hidle₅ hlin₅ ⟨hdb₂.nhash, hdb₂.hashoff⟩ hedge₅ hwrote₅ fun ha => ?_
    obtain ⟨heq, rest', hscan⟩ := hex ha
    have hstill : Still w (w₁.setLocks table) := halone hw₁ ha
    have h₃₂ := ha _ _ hw₃
    rw [ha _ _ hw₄] at hx hy
    subst heq
    subst h₃₂
    have hscan' : Scanned rest w o r rest' := by
      obtain ⟨hsplit, hnb, pre, hpre, ho⟩ := hscan
      exact ⟨hsplit, hnb, pre, hstill.1 ▸ hpre, ho⟩
    refine ⟨⟨hx.trans hstill.1, hy.trans hstill.2⟩, o, rest', d, hscan', ?_, rfl, ?_⟩
    · rw [← hstill.2]
      exact hsame.2.1 ▸ hd
    · show db₂.idxpos = _
      rw [hload]
      rfl
  · show PTR_MAX + 2 ≤ PTR_MAX + 1 + db.idxpos
    omega

/-! ## `db_rewind` -/

/-- The handle after `db_rewind`. -/
def DB.rewound (db : DB) : DB := { db with idxpos := recsOff, idxoff := recsOff }

/-- `db_rewind` goes to the first record. -/
theorem wpM_rewind {Q : Unit → DB → World → Prop} (hdb : Opened db)
    (hq : Q () db.rewound w) : wpM (rules E call) p dbRewind Q H db w := by
  have hoff : ((db.nhash : Int) + 1) * (PTR_SZ : Nat) + 1 = (recsOff : Nat) := by
    rw [hdb.nhash]
    rfl
  have hne : ¬ ((recsOff : Nat) : Int) = -1 := by omega
  unfold dbRewind
  simp only [wpM_bind, wpM_get, hoff, wpM_lseek_set, wpM_modify]
  rw [wpM_errIf_neg hne]
  exact hq

theorem atEdge_recs : AtEdge w recsOff := edge_base recsOff w.x.recs

theorem ahead_recs : Ahead w w.x.recs recsOff := ⟨[], rfl, rfl⟩

end LearningNotes.Db
