import LearningNotes.Db.Inner

/-!
# Adding a record at the ends of the files

The forms of `_db_writedat` and `_db_writeidx` that append, each under a lock of its own,
and the write to the hash table that puts the new record in front of its chain. Two checks
can stop the process here, the length check of `_db_writeidx` and the check of the offset
in `_db_writeptr`; `RoomFor` says when they pass for a process that runs alone.
-/

namespace LearningNotes.Db

open RangeLock (InRange)

variable {P : List Byte → Prop} {p : Pid} {E : Env P p} {call : Call} {H : Fatal → World → Prop}
  {db : DB} {w : World} {key : List Byte} {data : CString} {old : Option (List Byte)}
  {size : Nat × Nat} {c : List Cell} {N M d o : Nat} {it : Item} {b : Bool}

/-! ## The locks of the ends -/

/-- The lock of a chain and the lock of the data file. -/
def onDat (key : List Byte) : Fd → Nat → Prop := locking (onChain key) .datfd 0 0

/-- The lock of a chain and the lock of the end of the index file. -/
def onTail (key : List Byte) : Fd → Nat → Prop := locking (onChain key) .idxfd recsOff 0

theorem inRange_tail {start n : Nat} : InRange start (lockStop start 0) n ↔ start ≤ n := by
  unfold InRange lockStop
  rw [if_pos rfl]
  simp

theorem not_onDat_free (key : List Byte) : ¬ onDat key .idxfd FREE_OFF := by
  intro h
  rcases h with h | h
  · exact absurd h.2 (Nat.ne_of_lt (byte_pos key))
  · exact absurd h.1 (by decide)

theorem not_onTail_free (key : List Byte) : ¬ onTail key .idxfd FREE_OFF := by
  intro h
  rcases h with h | h
  · exact absurd h.2 (Nat.ne_of_lt (byte_pos key))
  · exact absurd (inRange_tail.mp h.2) (by decide)

theorem oneChain_onDat (key : List Byte) : OneChain key (onDat key) :=
  fun _ _ => Or.inr (not_onDat_free key)

theorem oneChain_onTail (key : List Byte) : OneChain key (onTail key) :=
  fun _ _ => Or.inr (not_onTail_free key)

theorem offChains_dat : OffChains .datfd 0 0 := fun _ _ h => absurd h.1 (by decide)

theorem offChains_tail : OffChains .idxfd recsOff 0 := by
  intro i hi h
  have hle := inRange_tail.mp h.2
  simp only [Place.byte, recsOff, NHASH_DEF, PTR_SZ, HASH_OFF] at hi hle
  omega

/-! ## The steps -/

/-- The pairs that have been written, and one more. -/
def World.wroteToo (w : World) (key d : List Byte) : List Byte → List Byte → Prop :=
  fun k e => w.wrote k e ∨ (k = key ∧ e = d)

theorem Env.wrote {w w' : World} (hr : E.rel w w') {k e : List Byte} (h : w.wrote k e) :
    w'.wrote k e := (E.rely hr).wrote k e h

/-- The index record of a pair whose data is at `d`. -/
def newItem (c : List Cell) (key : List Byte) (data : CString) (d : Nat) : Item :=
  { ptr := start c, key := key, datoff := d, datlen := data.val.length + 1, data := data }

/-- The record of a pair passes the checks of `_db_writeidx` and `_db_writeptr`, if the files
are `N` and `M` bytes long when it is added. -/
def RoomFor (key : List Byte) (data : CString) (N M : Nat) : Prop :=
  IDXLEN_MIN ≤ (newItem [] key data M).toRec.text.length ∧
    (newItem [] key data M).toRec.text.length ≤ IDXLEN_MAX ∧ N ≤ PTR_MAX

instance (key : List Byte) (data : CString) (N M : Nat) : Decidable (RoomFor key data N M) :=
  inferInstanceAs (Decidable (_ ∧ _ ∧ _))

/-- The data is at the end of the data file, and no record names it yet. -/
structure Pending (E : Env P p) (key : List Byte) (data : CString) (old : Option (List Byte))
    (N M : Nat) (c : List Cell) (b : Bool) (d : Nat) (w : World) : Prop where
  has : Has E key .wrlck (onChain key) old (N, M + (data.val.length + 1)) ⟨c, none, [], [(d, data)], b⟩ w
  wrote : w.wrote key data.val
  alone : E.Alone → d = M

/-- `_db_writedat` at the end of the data file. -/
theorem wpM_appendDat {Q : Unit → DB → World → Prop} (hputs : call.Puts key data.val)
    (hcall : ¬ call.Reads) (h : Has E key .wrlck (onChain key) old (N, M) ⟨c, none, [], [], b⟩ w)
    (hq : ∀ d pos w', Pending E key data old N M c b d w' →
      Q () { db with datoff := (d : Nat), datlen := data.val.length + 1, datpos := pos } w') :
    wpM (rules E call) p (dbWritedat data.val 0 .seekEnd) Q H db w := by
  unfold dbWritedat writewLock
  simp only [if_pos, wpM_bind]
  refine wpM_lockInner h (fun _ _ hs => absurd hs.1 (by decide)) fun w₁ table _ _ hheld h₁ => ?_
  have hown : (w₁.setLocks table).OwnsDat p := hheld 0 (inRange_tail.mpr (Nat.le_refl 0))
  refine wpM_lseek_end (rules_lawful E call) fun w₂ hw₂ => ?_
  have h₂ := h₁.rel hw₂
  have hown₂ : w₂.OwnsDat p := ((E.rely hw₂).locks _ _ _).mpr hown
  have hne : ¬ ((w₂.os.dat.length : Nat) : Int) = -1 := by omega
  simp only [wpM_modify]
  refine (wpM_errIf_neg hne).mpr ?_
  refine wpM_write fun w₃ hw₃ => ?_
  have h₃ := h₂.rel hw₃
  have hown₃ : w₃.OwnsDat p := ((E.rely hw₃).locks _ _ _).mpr hown₂
  -- nobody else has made the file longer
  have hlen : w₃.os.dat.length = w₂.os.dat.length := (E.rely hw₃).datend hown₂
  have hcalm : Calm p w₃ := h₃.calm rfl (oneChain_onDat key)
  have hinv : Inv P ((w₃.addBlock p data).note (w₃.wroteToo key data.val) w₃.wiped) :=
    Inv.addBlock h₃.inv hcalm fun _ _ => Or.inl
  have hg : Guar P p call (.write .datfd w₂.os.dat.length (data.val ++ [NEWLINE])) w₃
      ((w₃.addBlock p data).note (w₃.wroteToo key data.val) w₃.wiped) := by
    refine Guar.addBlock hcall hinv hown₃ (fun _ _ => Or.inl) fun k e hke => ?_
    rcases hke with hke | ⟨rfl, rfl⟩
    · exact Or.inl hke
    · exact Or.inr ⟨⟨_, rfl⟩, hputs⟩
  refine ⟨(w₃.addBlock p data).note (w₃.wroteToo key data.val) w₃.wiped, ?_, fun _ => hg, ?_⟩
  · show (w₃.addBlock p data).os = w₃.os.setFile .datfd (overwrite 0 w₃.os.dat w₂.os.dat.length _)
    rw [os_addBlock h₃.inv.files, hlen]
  have hend : (datBytes w₃.y).length = w₂.os.dat.length := by rw [← hlen, h₃.inv.files.dat]
  have h₄ : Has E key .wrlck (onDat key) old (N, M + (data.val.length + 1))
      ⟨c, none, [], [(w₂.os.dat.length, data)], b⟩
      ((w₃.addBlock p data).note (w₃.wroteToo key data.val) w₃.wiped) := by
    refine h₃.write hg ?_ rfl rfl rfl h₃.cells h₃.gap h₃.hand ?_ h₃.moved fun _ _ => rfl
    · intro hsize
      show (w₃.x.size, (datBytes (w₃.y ++ [data])).length) = _
      rw [datBytes, List.flatMap_append, List.length_append]
      simp only [Prod.mk.injEq] at hsize ⊢
      refine ⟨hsize.1, ?_⟩
      rw [← hsize.2, h₃.inv.files.dat, datBytes, List.flatMap_singleton, length_blockBytes]
      rfl
    · show Function.update w₃.pend p (((datBytes w₃.y).length, data) :: w₃.pend p) p = _
      rw [Function.update_self, hend, h₃.pend]
  refine wpM_unlockInner h₄ rfl (oneChain_onDat key) offChains_dat ?_ ?_
  · intro w₅ hw₅ ho
    exact absurd ((h₄.rel hw₅).locks _ _ _ ho) (not_onDat_free key)
  · intro w₅ w₆ hw₅ _ hwrote h₆
    refine hq _ _ w₆ ⟨h₆, ?_, ?_⟩
    · rw [hwrote]
      exact E.wrote hw₅ (Or.inr ⟨rfl, rfl⟩)
    · intro ha
      have hsize := h₂.alone ha
      exact congrArg Prod.snd hsize

/-- The lengths of the records of a pair differ only by the digits of the offset. -/
theorem length_newItem (d : Nat) : (newItem c key data d).toRec.text.length =
    (newItem [] key data d).toRec.text.length := rfl

/-- The new record is at the end of the index file, and in no list. -/
structure Added (E : Env P p) (key : List Byte) (data : CString) (old : Option (List Byte))
    (N M : Nat) (c : List Cell) (b : Bool) (o d : Nat) (w : World) : Prop where
  has : ∃ size, Has E key .wrlck (onChain key) old size ⟨c, none, [(o, newItem c key data d)], [], b⟩ w
  room : E.Alone → o = N ∧ d = M ∧ (o ≤ PTR_MAX → RoomFor key data N M)

/-- The record is written, under the lock of the end of the file. -/
theorem Has.addRec (hcall : ¬ call.Reads) (hP : P key) {op : Op}
    (h : Has E key .wrlck (onTail key) old (N, M) ⟨c, none, [], [(d, data)], b⟩ w)
    (hown : w.OwnsTail p) (hwrote : w.wrote key data.val)
    (hok : (newItem c key data d).toRec.Ok) :
    Guar P p call op w (w.addRec p (newItem c key data d)) ∧
      Has E key .wrlck (onTail key) old (N + (newItem c key data d).toRec.size, M)
        ⟨c, none, [(w.x.size, newItem c key data d)], [], b⟩ (w.addRec p (newItem c key data d)) := by
  have ha : Addable P p w (newItem c key data d) :=
    ⟨h.inv, h.calm rfl (oneChain_onTail key), hown, h.pend, hok, rfl, hP, hwrote⟩
  have hg : Guar P p call op w (w.addRec p (newItem c key data d)) := Guar.addRec ha hcall
  refine ⟨hg, h.write hg ?_ rfl rfl rfl ?_ h.gap ?_ ?_ h.moved fun _ _ => rfl⟩
  · intro hsize
    show ((w.x.append _).size, w.os.dat.length) = _
    simp only [Prod.mk.injEq] at hsize ⊢
    exact ⟨(Index.size_append _ _).trans (by rw [hsize.1]), hsize.2⟩
  · exact (cells_addRec_ne (by simp)).trans h.cells
  · rw [cells_addRec_hand, h.hand]
  · exact Function.update_self ..

/-- The part of `_db_writeidx` behind its checks. -/
theorem wpM_appendRec {Q : Unit → DB → World → Prop} (hcall : ¬ call.Reads) (hP : P key)
    (hok : (newItem c key data d).toRec.Ok) (h : Pending E key data old N M c b d w)
    (hq : ∀ o pos w', Added E key data old N M c b o d w' →
      Q () { db with idxoff := (o : Nat), idxpos := pos } w') :
    wpM (rules E call) p (do
      sys (.lock .idxfd .wrlck recsOff 0)
      let idxoff ← lseek .idxfd 0 .seekEnd
      modify ({ · with idxoff := idxoff })
      errIf (idxoff = -1) .writeidxLseek
      write .idxfd (newItem c key data d).toRec.bytes
      sys (.unlock .idxfd recsOff 0)) Q H db w := by
  simp only [wpM_bind, wpM_modify]
  refine wpM_lockInner h.has ?_ fun w₁ table hw₁ _ hheld h₁ => ?_
  · intro n hn hs
    have hlt := byte_lt_recs key
    have hle := inRange_tail.mp hn
    rw [hs.2] at hle
    omega
  have hown : (w₁.setLocks table).OwnsTail p := hheld _ (inRange_tail.mpr (Nat.le_refl _))
  refine wpM_lseek_end (rules_lawful E call) fun w₂ hw₂ => ?_
  have h₂ := h₁.rel hw₂
  have hown₂ : w₂.OwnsTail p := ((E.rely hw₂).locks _ _ _).mpr hown
  have hlen : ∀ {w : World}, Inv P w → w.os.idx.length = w.x.size := by
    intro _ hw
    rw [hw.files.idx, hw.files.ok.length_bytes]
  have hne : ¬ ((w₂.os.idx.length : Nat) : Int) = -1 := by omega
  refine (wpM_errIf_neg hne).mpr ?_
  refine wpM_write fun w₃ hw₃ => ?_
  have h₃ := h₂.rel hw₃
  have hown₃ : w₃.OwnsTail p := ((E.rely hw₃).locks _ _ _).mpr hown₂
  -- nobody else has made the file longer
  have hsize : w₃.x.size = w₂.os.idx.length := ((E.rely hw₃).tail hown₂).trans (hlen h₂.inv).symm
  have hwrote : w₃.wrote key data.val := E.wrote hw₃ (E.wrote hw₂ (E.wrote hw₁ h.wrote))
  refine ⟨w₃.addRec p (newItem c key data d), ?_, fun _ => (h₃.addRec hcall hP hown₃ hwrote hok).1,
    ?_⟩
  · show (w₃.addRec p _).os = w₃.os.setFile .idxfd (overwrite 0 w₃.os.idx w₂.os.idx.length _)
    rw [os_addRec h₃.inv.files, hlen h₃.inv, hsize]
  have h₄ := (@Has.addRec _ _ _ _ _ _ _ _ _ _ _ _ _ hcall hP (.size .idxfd) h₃ hown₃ hwrote hok).2
  rw [hsize] at h₄
  refine wpM_unlockInner h₄ rfl (oneChain_onTail key) offChains_tail ?_ ?_
  · intro w₅ hw₅ ho
    exact absurd ((h₄.rel hw₅).locks _ _ _ ho) (not_onTail_free key)
  · intro w₅ w₆ _ _ _ h₆
    refine hq _ _ w₆ ⟨⟨_, h₆⟩, fun halone => ?_⟩
    have hN : w₂.os.idx.length = N := (hlen h₂.inv).trans (congrArg Prod.fst (h₂.alone halone))
    have hd := h.alone halone
    subst hd
    exact ⟨hN, rfl, fun hle => ⟨hok.lo, hok.hi, hN ▸ hle⟩⟩

/-- `_db_writeidx` at the end of the index file. -/
theorem wpM_appendIdx {Q : Unit → DB → World → Prop} (hcall : ¬ call.Reads) (hP : P key)
    (hnul : (0 : Byte) ∉ key)
    (hdat : DATLEN_MIN ≤ data.val.length + 1 ∧ data.val.length + 1 ≤ DATLEN_MAX)
    (hh : Opened db) (hoff : db.datoff = (d : Nat)) (hlen : db.datlen = data.val.length + 1)
    (h : Pending E key data old N M c b d w)
    (hstop : (E.Alone → ¬ RoomFor key data N M) → H .writeidxInvalidLength w)
    (hq : ∀ o buf pos w', Added E key data old N M c b o d w' →
      Q () { db with ptrval := start c, idxbuf := buf, idxoff := (o : Nat), idxpos := pos } w') :
    wpM (rules E call) p (dbWriteidx key 0 .seekEnd (start c)) Q H db w := by
  have hptr : start c ≤ PTR_MAX := (Index.get_split h.has.inv.files.ok (h.has.thread rfl).1).1
  have hchk : ¬ ((start c : Int) < 0 ∨ (start c : Int) > (PTR_MAX : Nat)) := by omega
  have htail : (((db.nhash : Int) + 1) * (PTR_SZ : Nat) + 1).toNat = recsOff := by
    rw [hh.nhash]
    rfl
  -- what is printed into the buffer is the text of the new record
  have htext : key ++ [SEP] ++ decimalInt db.datoff ++ [SEP] ++ decimal db.datlen ++ [NEWLINE]
      = (newItem c key data d).toRec.text := by
    rw [hoff, hlen, decimalInt_natCast]
    rfl
  have hbytes : padLeft PTR_SZ (decimal (start c)) ++
      padLeft IDXLEN_SZ (decimal (newItem c key data d).toRec.text.length) ++
      (newItem c key data d).toRec.text = (newItem c key data d).toRec.bytes :=
    bytes_writeidx (newItem c key data d).toRec
  unfold dbWriteidx writewLock unLock
  simp only [if_pos, wpM_bind, wpM_modify, wpM_get]
  rw [wpM_errIf_neg hchk, htext, htail, decimalInt_natCast, hbytes]
  by_cases hbad : (newItem c key data d).toRec.text.length < IDXLEN_MIN ∨
      (newItem c key data d).toRec.text.length > IDXLEN_MAX
  · -- the record is too short or too long
    rw [wpM_errIf_pos hbad]
    refine hstop fun ha hroom => ?_
    obtain ⟨hlo, hhi, -⟩ := hroom
    rw [h.alone ha, length_newItem] at hbad
    omega
  rw [wpM_errIf_neg hbad]
  rw [not_or, Nat.not_lt, gt_iff_lt, Nat.not_lt] at hbad
  have hok : (newItem c key data d).toRec.Ok := ⟨hnul, hptr, hbad.1, hbad.2, hdat.1, hdat.2⟩
  have hrest := @wpM_appendRec P p E call H
    { db with ptrval := start c, idxbuf := (newItem c key data d).toRec.text } w key data old c N M
    d b Q hcall hP hok h fun o pos w' ha => hq o _ pos w' ha
  simpa only [wpM_bind, wpM_modify] using hrest

/-! ## In front of the chain -/

/-- The record in the hand may become the head of the chain `c` of `key`. -/
structure Fresh (P : List Byte → Prop) (key : List Byte) (c : List Cell) : Prop where
  legal : P key
  absent : key ∉ c.map (·.2.key)
  clean : ∀ e ∈ c, SEP ∉ e.2.key

/-- `_db_writeptr` to the hash table. -/
theorem wpM_linkRec {Q : Unit → DB → World → Prop} (hkey : call.key? = some key)
    (hcall : ¬ call.Reads) (hfresh : Fresh P key c)
    (h : Has E key .wrlck (onChain key) old size ⟨c, none, [(o, it)], [], b⟩ w)
    (hk : it.key = key) (hptr : it.ptr = start c) (ho : o ≤ PTR_MAX)
    (hq : ∀ w' pos, Has E key .wrlck (onChain key) old size (.rest ((o, it) :: c)) w' →
      Q () { db with idxpos := pos } w') :
    wpM (rules E call) p (dbWriteptr ((Slot.chain (dbHash NHASH_DEF key)).off : Nat) o) Q H db w := by
  have hS := noGrow_onChain key
  refine wpM_writeptr ho fun w₁ hw₁ => ?_
  have h₁ := h.rel hw₁
  have hget : w₁.x.get (.chain (dbHash NHASH_DEF key)) = some it.ptr := hptr ▸ (h₁.thread rfl).1
  have hl : Linkable P p w₁ (dbHash NHASH_DEF key) o it c :=
    ⟨h₁.inv, dbHash_lt key, h₁.cells, h₁.held, h₁.calm rfl (oneChain_onChain key), h₁.hand, hget, ho,
      hk ▸ rfl, hk ▸ hfresh.absent, hk ▸ hfresh.legal, hfresh.clean⟩
  have hg : Guar P p call (.write .idxfd (Slot.chain (dbHash NHASH_DEF key)).off (ptrText o)) w₁
      (w₁.linkRec p (dbHash NHASH_DEF key) o it c) :=
    Guar.linkRec hl hcall (hkey.trans (congrArg some hk.symm)) ⟨_, o, rfl⟩
  refine ⟨w₁.linkRec p (dbHash NHASH_DEF key) o it c, hl.settable.os_redirect, fun _ => hg, ?_⟩
  refine hq _ _ (h₁.write hg (hS.same_size h₁.locks hg).trans rfl rfl rfl cells_linkRec_chain h₁.gap
    cells_linkRec_hand h₁.pend (Function.update_self ..) ?_)
  intro k hne
  exact (lookup_cons k o it c).trans (if_neg fun he => hne (he.symm.trans hk))

/-- A process that has been stopped by a check while it added the record: the chain is `c`
still. -/
structure Stopped (E : Env P p) (key : List Byte) (data : CString) (old : Option (List Byte))
    (N M : Nat) (c : List Cell) (b : Bool) (e : Fatal) (w : World) : Prop where
  check : e = .writeidxInvalidLength ∨ e = .writeptrInvalidPtr
  has : ∃ size hand pend, Has E key .wrlck (onChain key) old size ⟨c, none, hand, pend, b⟩ w
  noRoom : E.Alone → ¬ RoomFor key data N M

/-- The three writes that add a pair. -/
theorem wpM_append {Q : Unit → DB → World → Prop} (hputs : call.Puts key data.val)
    (hkey : call.key? = some key) (hcall : ¬ call.Reads) (hfresh : Fresh P key c)
    (hnul : (0 : Byte) ∉ key)
    (hdat : DATLEN_MIN ≤ data.val.length + 1 ∧ data.val.length + 1 ≤ DATLEN_MAX)
    (hh : Handle key db) (h : Has E key .wrlck (onChain key) old (N, M) ⟨c, none, [], [], b⟩ w)
    (hstop : ∀ e w', Stopped E key data old N M c b e w' → H e w')
    (hq : ∀ db' w' o d size, Handle key db' →
      Has E key .wrlck (onChain key) old size (.rest ((o, newItem c key data d) :: c)) w' →
      (E.Alone → RoomFor key data N M) → Q () db' w') :
    wpM (rules E call) p (do
      dbWritedat data.val 0 .seekEnd
      dbWriteidx key 0 .seekEnd (start c)
      dbWriteptr ((Slot.chain (dbHash NHASH_DEF key)).off : Nat) (← get).idxoff) Q H db w := by
  simp only [wpM_bind, wpM_get]
  refine wpM_appendDat hputs hcall h fun d pos w₁ h₁ => ?_
  refine wpM_appendIdx hcall hfresh.legal hnul hdat ⟨hh.nhash, hh.hashoff⟩ rfl rfl h₁ ?_
    fun o buf pos w₂ h₂ => ?_
  · intro hroom
    exact hstop _ w₁ ⟨Or.inl rfl, ⟨_, _, _, h₁.has⟩, hroom⟩
  obtain ⟨size', hadd⟩ := h₂.has
  by_cases ho : o ≤ PTR_MAX
  · refine wpM_linkRec hkey hcall hfresh hadd rfl rfl ho fun w₃ pos h₃ => ?_
    exact hq _ w₃ o d size' ⟨⟨hh.nhash, hh.hashoff⟩, hh.chainoff⟩ h₃ fun ha => (h₂.room ha).2.2 ho
  · -- the record is in the file, but behind the reach of a pointer
    refine wpM_writeptr_big (Nat.lt_of_not_le ho) (hstop _ w₂ ⟨Or.inr rfl, ⟨_, _, _, hadd⟩, ?_⟩)
    intro ha hroom
    exact ho ((h₂.room ha).1 ▸ hroom.2.2)

end LearningNotes.Db
