import LearningNotes.Db.World

/-!
# What the reading functions return

Rules for `_db_readptr`, `_db_readidx` and `_db_readdat` in a world where other processes
may act before every system call. They hand over the state each `read` finds, so
`wpM_readidx` has two of them: `db_nextrec` holds no lock on the record it reads, and the
two halves of a record may come from different states.

A record whose key has a separator does not survive `splitIdx`: it has three separators
or more, and the process ends with "too many separators".
-/

namespace LearningNotes.Db

variable {P : List Byte → Prop} {p : Pid} {E : Env P p} {call : Call} {H : Fatal → World → Prop}
  {db : DB} {w : World}

/-! ## Splitting a record -/

theorem SEP_not_digit : isDigit SEP = false := by decide

theorem NUL_not_digit : isDigit 0 = false := by decide

/-- The text of a record without its newline. -/
theorem dropLast_text (r : Rec) : r.text.dropLast =
    r.key ++ SEP :: (decimal r.datoff ++ SEP :: decimal r.datlen) := by
  unfold Rec.text
  rw [List.dropLast_concat]
  simp only [List.append_assoc, List.cons_append, List.nil_append]

/-- A record ends in a newline. -/
theorem getLast?_text (r : Rec) : r.text.getLast? = some NEWLINE := by
  unfold Rec.text
  exact List.getLast?_concat

/-- There is no null in a record. -/
theorem cstr_text {r : Rec} (hnul : (0 : Byte) ∉ r.key) :
    cstr r.text.dropLast = r.text.dropLast := by
  apply cstr_of_not_mem
  rw [dropLast_text]
  have h₁ := not_mem_decimal NUL_not_digit r.datoff
  have h₂ := not_mem_decimal NUL_not_digit r.datlen
  have h₀ : (0 : Byte) ≠ SEP := by decide
  simp only [List.mem_append, List.mem_cons, not_or]
  exact ⟨hnul, h₀, h₁, h₀, h₂⟩

/-- Two more separators are found in a string with at least two. -/
theorem strchr_of_two {s : List Byte} (h : 2 ≤ s.count SEP) :
    ∃ a b, strchr SEP s = some (a, b) ∧ (strchr SEP b).isSome := by
  obtain ⟨a, b, hs, heq, ha⟩ := strchr_of_mem (List.count_pos_iff.mp (show 0 < s.count SEP by omega))
  refine ⟨a, b, hs, ?_⟩
  have hb : 0 < b.count SEP := by
    rw [heq, List.count_append, List.count_eq_zero_of_not_mem ha, List.count_cons_self] at h
    omega
  obtain ⟨a', b', hs', -⟩ := strchr_of_mem (List.count_pos_iff.mp hb)
  rw [hs']
  rfl

theorem toSize_natCast {n : Nat} (h : n < 2 ^ 64) : toSize (n : Int) = n := by
  unfold toSize
  omega

/-- The fields of the handle after `_db_readidx` has read a record with pointer `v` at
offset `o`. -/
def DB.load (db : DB) (o v : Nat) (r : Rec) : DB :=
  { db with
    idxoff := o, ptrval := v, idxlen := r.text.length, idxbuf := r.key
    datoff := r.datoff, datlen := r.datlen, idxpos := o + r.size }

section Split

variable {τ : Type} {R : Prog.Rules Op OS τ} {H : Fatal → τ → Prop} {s : τ}
  {Q : Unit → DB → τ → Prop} {r : Rec}

/-- A key without separators comes back. -/
theorem wpM_splitIdx (hr : r.Ok) (hk : SEP ∉ r.key)
    (h : Q () { db with idxbuf := r.key, datoff := r.datoff, datlen := r.datlen } s) :
    wpM R p (splitIdx r.text.dropLast) Q H db s := by
  have hlen : toSize (atol (decimal r.datlen)) = r.datlen := by
    rw [atol_decimal]
    exact toSize_natCast (Nat.lt_of_le_of_lt hr.dathi (by decide))
  have hdat : ¬ (toSize (atol (decimal r.datlen)) = 0 ∨
      toSize (atol (decimal r.datlen)) > DATLEN_MAX) := by
    have hlo := hr.datlo
    have hhi := hr.dathi
    rw [hlen]
    simp only [DATLEN_MIN, DATLEN_MAX] at hlo hhi ⊢
    omega
  have hoff : ¬ atol (decimal r.datoff) < 0 := by
    rw [atol_decimal]
    omega
  unfold splitIdx
  rw [cstr_text hr.nul, dropLast_text, strchr_append hk]
  dsimp only
  rw [strchr_append (not_mem_decimal SEP_not_digit _)]
  dsimp only
  rw [strchr_eq_none (not_mem_decimal SEP_not_digit _)]
  simp only [wpM_bind, wpM_modify]
  rw [wpM_errIf_neg (by simp), wpM_errIf_neg hoff, wpM_errIf_neg hdat, hlen, atol_decimal]
  exact h

/-- A key with a separator is one separator too many. -/
theorem wpM_splitIdx_sep (hr : r.Ok) (hk : SEP ∈ r.key) (h : H .readidxTooManySeps s) :
    wpM R p (splitIdx r.text.dropLast) Q H db s := by
  have hcount : 3 ≤ r.text.dropLast.count SEP := by
    have hpos := List.count_pos_iff.mpr hk
    rw [dropLast_text]
    simp only [List.count_append, List.count_cons_self]
    omega
  obtain ⟨a, b, hs, heq, ha⟩ :=
    strchr_of_mem (List.count_pos_iff.mp (show 0 < r.text.dropLast.count SEP by omega))
  have hb : 2 ≤ b.count SEP := by
    rw [heq, List.count_append, List.count_eq_zero_of_not_mem ha, List.count_cons_self] at hcount
    omega
  obtain ⟨a', b', hs', hsome⟩ := strchr_of_two hb
  unfold splitIdx
  rw [cstr_text hr.nul, hs]
  dsimp only
  rw [hs']
  dsimp only
  rw [wpM_bind, wpM_errIf_pos hsome]
  exact h

end Split

/-! ## Pointers -/

theorem atol_ptrText (v : Nat) : atol (ptrText v) = v := atol_padLeft_decimal PTR_SZ v

/-- `_db_readptr` returns the pointer that is in the slot when it reads. -/
theorem wpM_readptr {sl : Slot} {Q : Int → DB → World → Prop}
    (h : ∀ w₁, E.rel w w₁ → Files w₁ ∧ ∃ v : Nat, w₁.x.get sl = some v ∧
      Q v { db with idxpos := sl.off + PTR_SZ } w₁) :
    wpM (rules E call) p (dbReadptr sl.off) Q H db w := by
  have hne : ¬ ((sl.off : Nat) : Int) = -1 := by omega
  unfold dbReadptr
  simp only [wpM_bind, wpM_lseek_set, wpM_pure]
  rw [wpM_errIf_neg hne]
  refine wpM_read (rules_lawful E call) fun w₁ hw₁ bytes hbytes => ?_
  obtain ⟨hf, v, hv, hq⟩ := h w₁ hw₁
  have hread : bytes = ptrText v := by
    rw [← hbytes, ← Index.slice_get hf.ok hv, ← hf.idx]
    rfl
  have hlen := length_ptrText (Index.get_split hf.ok hv).1
  subst hread
  rw [wpM_errIf_neg (by rw [hlen]; simp), atol_ptrText, hlen]
  exact hq

/-! ## Records -/

/-- What `_db_readidx` finds at offset `o`: in state `w₁` the first half of a record, in
the later state `w₂` the second half. -/
def ReadsAt (E : Env P p) (H : Fatal → World → Prop) (Q : Int → DB → World → Prop) (db : DB)
    (o : Nat) (w₁ : World) : Prop :=
  ∃ r₁, w₁.x.recAt o = some r₁ ∧ ∀ w₂, E.rel w₁ w₂ → Files w₂ ∧ ∃ r₂, w₂.x.recAt o = some r₂ ∧
    r₂.text.length = r₁.text.length ∧ (SEP ∉ r₂.key → Q r₁.ptr (db.load o r₁.ptr r₂) w₂) ∧
    (SEP ∈ r₂.key → H .readidxTooManySeps w₂)

/-- The first field of a record is its pointer. -/
theorem take_head {r : Rec} (hr : r.Ok) : (ptrText r.ptr ++ r.lenText).take PTR_SZ = ptrText r.ptr :=
  List.take_left' (length_ptrText hr.ptr)

/-- The second field is the length of the rest. -/
theorem drop_head {r : Rec} (hr : r.Ok) : (ptrText r.ptr ++ r.lenText).drop PTR_SZ = r.lenText :=
  List.drop_left' (length_ptrText hr.ptr)

theorem length_head {r : Rec} (hr : r.Ok) :
    (ptrText r.ptr ++ r.lenText).length = PTR_SZ + IDXLEN_SZ := by
  rw [List.length_append, length_ptrText hr.ptr, hr.length_lenText]

/-- The length is read back. -/
theorem toSize_lenText {r : Rec} (hr : r.Ok) : toSize (atol r.lenText) = r.text.length := by
  rw [Rec.lenText, atol_padLeft_decimal]
  exact toSize_natCast (Nat.lt_of_le_of_lt hr.hi (by decide))

/-- `_db_readidx`, at an offset or (with offset `0`) at the file offset. -/
theorem wpM_readidx {o : Nat} {off : Int} {Q : Int → DB → World → Prop}
    (hseek : (off = (o : Int) ∧ o ≠ 0) ∨ (off = 0 ∧ db.idxpos = o))
    (h : ∀ w₁, E.rel w w₁ → Files w₁ ∧ (ReadsAt E H Q db o w₁ ∨
      (off = 0 ∧ o = w₁.x.size ∧ Q (-1) { db with idxoff := o, idxpos := o } w₁))) :
    wpM (rules E call) p (dbReadidx off) Q H db w := by
  have hne : ¬ (o : Int) = -1 := by omega
  have hlseek : ∀ Q' : Int → DB → World → Prop, Q' o (db.setPos .idxfd o) w →
      wpM (rules E call) p (lseek .idxfd off (if off = 0 then .seekCur else .seekSet)) Q' H db w := by
    intro Q' hq'
    rcases hseek with ⟨hoff, hpos⟩ | ⟨hoff, hpos⟩
    · have h0 : ¬ (o : Int) = 0 := by omega
      rw [hoff, if_neg h0, wpM_lseek_set]
      exact hq'
    · rw [hoff, if_pos rfl, wpM_lseek_cur]
      show Q' db.idxpos (db.setPos .idxfd db.idxpos) w
      rw [hpos]
      exact hq'
  unfold dbReadidx
  rw [wpM_bind]
  apply hlseek
  simp only [wpM_bind, wpM_modify, wpM_ite, wpM_pure]
  rw [wpM_errIf_neg hne]
  refine wpM_read (rules_lawful E call) fun w₁ hw₁ bytes hbytes => ?_
  obtain ⟨hf₁, hcase⟩ := h w₁ hw₁
  rcases hcase with ⟨r₁, hr₁, hnext⟩ | ⟨hoff, hend, hq⟩
  · -- a record: the prefix fields first
    have hok := hf₁.ok.recAt hr₁
    have hread : bytes = ptrText r₁.ptr ++ r₁.lenText := by
      rw [← hbytes, ← Index.slice_head hf₁.ok hr₁, ← hf₁.idx]
      rfl
    subst hread
    have hlen := length_head hok
    have hlo := hok.lo
    have hhi := hok.hi
    rw [drop_head hok, take_head hok, toSize_lenText hok, atol_ptrText, hlen, if_neg (by simp),
      wpM_errIf_neg (by simp), wpM_errIf_neg (by omega)]
    refine wpM_read (rules_lawful E call) fun w₂ hw₂ bytes₂ hbytes₂ => ?_
    -- then the rest, from a later state
    obtain ⟨hf₂, r₂, hr₂, htext, hgood, hbad⟩ := hnext w₂ hw₂
    have hok₂ := hf₂.ok.recAt hr₂
    have hread₂ : bytes₂ = r₂.text := by
      rw [← hbytes₂, ← Index.slice_text hf₂.ok hr₂, ← hf₂.idx, htext]
      rfl
    subst hread₂
    rw [wpM_errIf_neg (by rw [htext]; simp), wpM_errIf_neg (by rw [getLast?_text]; simp)]
    by_cases hk : SEP ∈ r₂.key
    · exact wpM_splitIdx_sep hok₂ hk (hbad hk)
    · refine wpM_splitIdx hok₂ hk ?_
      have hq := hgood hk
      unfold DB.load Rec.size at hq
      rw [← Nat.add_assoc o, htext] at hq
      rw [htext]
      exact hq
  · -- the end of the file
    have hread : bytes = [] := by
      rw [← hbytes, ← List.length_eq_zero_iff, length_slice]
      show min _ (w₁.os.idx.length - o) = 0
      rw [hf₁.idx, hf₁.ok.length_bytes, hend]
      omega
    subst hread
    rw [if_pos ⟨rfl, hoff⟩]
    exact hq

/-! ## Data -/

/-- `_db_readdat` returns the block that the fields of the handle name. -/
theorem wpM_readdat {o : Nat} {Q : List Byte → DB → World → Prop} (hoff : db.datoff = (o : Int))
    (h : ∀ w₁, E.rel w w₁ → Files w₁ ∧ ∃ d, blockAt w₁.y o = some d ∧ db.datlen = blockSize d ∧
      Q d.val { db with datbuf := d.val, datpos := o + blockSize d } w₁) :
    wpM (rules E call) p dbReaddat Q H db w := by
  have hne : ¬ (o : Int) = -1 := by omega
  unfold dbReaddat
  simp only [wpM_bind, wpM_get, hoff, wpM_lseek_set]
  rw [wpM_errIf_neg hne]
  refine wpM_read (rules_lawful E call) fun w₁ hw₁ bytes hbytes => ?_
  obtain ⟨hf, d, hd, hlen, hq⟩ := h w₁ hw₁
  have hread : bytes = blockBytes d := by
    rw [← hbytes, ← slice_blockAt hd, ← hf.dat, ← hlen]
    rfl
  subst hread
  have hlast : (blockBytes d).getLast? = some NEWLINE := List.getLast?_concat
  have hdrop : (blockBytes d).dropLast = d.val := List.dropLast_concat
  have hlen' : ¬ (blockBytes d).length ≠ (db.setPos .datfd o).datlen := by
    rw [length_blockBytes]
    exact not_not.mpr hlen.symm
  rw [wpM_errIf_neg hlen', wpM_errIf_neg (by rw [hlast]; simp)]
  simp only [wpM_modify, wpM_pure, hdrop, cstr_of_not_mem d.property, length_blockBytes]
  exact hq

end LearningNotes.Db
