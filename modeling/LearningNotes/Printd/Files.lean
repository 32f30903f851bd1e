import LearningNotes.Printd.Daemon

/-!
# The files of the spool

What is written to the spool is read back: the files of a directory, the request structure, the
name of a job's files, and the counter in the job file.
-/

namespace LearningNotes.Printd

/-! ## Directories -/

namespace Dir

variable {d : Dir} {name name' bytes : List Byte} {off : Nat}

/-- A file has what has been written to it. -/
@[simp] theorem get_set_self (d : Dir) (name bytes : List Byte) :
    (d.set name bytes).get name = some bytes := by
  simp [get, set]

/-- The other files stay when one is removed. -/
theorem get_remove_ne (h : name' ≠ name) : (d.remove name).get name' = d.get name' := by
  unfold get remove
  congr 1
  induction d with
  | nil => rfl
  | cons e d ih =>
    by_cases he : e.1 = name
    · have hne : e.1 ≠ name' := fun hn => h (hn.symm.trans he)
      rw [List.filter_cons_of_neg (by simp [he]), List.find?_cons_of_neg (by simp [hne]), ih]
    · rw [List.filter_cons_of_pos (by simp [he])]
      by_cases hn : e.1 = name'
      · rw [List.find?_cons_of_pos (by simp [hn]), List.find?_cons_of_pos (by simp [hn])]
      · rw [List.find?_cons_of_neg (by simp [hn]), List.find?_cons_of_neg (by simp [hn]), ih]

/-- The other files are not written to. -/
theorem get_set_ne (h : name' ≠ name) : (d.set name bytes).get name' = d.get name' := by
  have hcons : (d.set name bytes).get name' = (d.remove name).get name' := by
    unfold get set
    rw [List.find?_cons_of_neg (by simpa using h.symm)]
  exact hcons.trans (get_remove_ne h)

theorem get_write_ne (h : name' ≠ name) : (d.write name off bytes).get name' = d.get name' := by
  unfold write
  split
  · rfl
  · exact get_set_ne h

/-- What is written to a file that exists. -/
theorem get_write_self {old : List Byte} (h : d.get name = some old) :
    (d.write name off bytes).get name = some (overwrite 0 old off bytes) := by
  unfold write
  rw [h]
  exact get_set_self ..

/-- A write does not remove the file. -/
theorem write_isSome (h : d.get name' ≠ none) : (d.write name off bytes).get name' ≠ none := by
  by_cases hn : name' = name
  · subst hn
    obtain ⟨old, hold⟩ := Option.ne_none_iff_exists'.mp h
    rw [get_write_self hold]
    exact Option.some_ne_none _
  · rwa [get_write_ne hn]

/-- A file that can be read is in the directory. -/
theorem mem_of_get {b : List Byte} (h : d.get name = some b) : name ∈ d.map Prod.fst := by
  obtain ⟨e, he, -⟩ := Option.map_eq_some_iff.mp h
  have hn : e.1 = name := by simpa using List.find?_some he
  exact hn ▸ List.mem_map_of_mem (List.mem_of_find?_eq_some he)

/-! The names in a directory. -/

theorem names_remove (h : name' ∈ (d.remove name).map Prod.fst) : name' ∈ d.map Prod.fst := by
  obtain ⟨e, he, rfl⟩ := List.mem_map.mp h
  exact List.mem_map_of_mem (List.mem_of_mem_filter he)

/-- No other name comes up. -/
theorem names_set (h : name' ∈ (d.set name bytes).map Prod.fst) :
    name' = name ∨ name' ∈ d.map Prod.fst := by
  rcases List.mem_cons.mp h with rfl | h
  · exact Or.inl rfl
  · exact Or.inr (names_remove h)

theorem names_write (h : name' ∈ (d.write name off bytes).map Prod.fst) :
    name' ∈ d.map Prod.fst := by
  unfold write at h
  split at h
  · exact h
  · next old hold =>
    rcases names_set h with rfl | h
    · exact mem_of_get hold
    · exact h

end Dir

/-! ## The request structure -/

theorem length_hostBytes (n : UInt32) : (hostBytes n).length = 4 := rfl

/-- A number is read back. -/
theorem ofHostBytes_hostBytes (n : UInt32) : ofHostBytes (hostBytes n) = n := by
  apply UInt32.toNat_inj.mp
  have hn : n.toNat < 2 ^ 32 := n.toNat_lt
  simp only [hostBytes, ofHostBytes, UInt32.toNat_ofNat', UInt8.toNat_ofNat']
  omega

/-- Four bytes are written back. -/
theorem hostBytes_ofHostBytes (a b c d : Byte) :
    hostBytes (ofHostBytes [a, b, c, d]) = [a, b, c, d] := by
  have ha := a.toNat_lt
  have hb := b.toNat_lt
  have hc := c.toNat_lt
  have hd := d.toNat_lt
  unfold hostBytes ofHostBytes
  rw [UInt32.toNat_ofNat']
  simp only [List.cons.injEq, and_true, ← UInt8.toNat_inj, UInt8.toNat_ofNat']
  omega

/-- Two changes of the byte order undo each other. -/
theorem ntohl_ntohl (n : UInt32) : ntohl (ntohl n) = n := by
  have h : hostBytes (ntohl n) = (hostBytes n).reverse := hostBytes_ofHostBytes _ _ _ _
  unfold ntohl at h ⊢
  rw [h, List.reverse_reverse, ofHostBytes_hostBytes]

namespace PrintReq

/-- A request has the size of its `struct`. -/
theorem length_bytes (r : PrintReq) : r.bytes.length = REQSZ := by
  simp [bytes, length_hostBytes, r.usernm.property, r.jobnm.property]

/-- The structure in memory is the structure. -/
theorem ofBytes_bytes (r : PrintReq) : ofBytes r.bytes = some r := by
  have hu : r.usernm.val.length = USERNM_MAX := r.usernm.property
  have hj : r.jobnm.val.length = JOBNM_MAX := r.jobnm.property
  have h₁ : slice r.bytes 0 4 = hostBytes r.size := by
    have h := slice_middle [] (hostBytes r.size) (hostBytes r.flags ++ r.usernm.val ++ r.jobnm.val)
    simpa [bytes, length_hostBytes] using h
  have h₂ : slice r.bytes 4 4 = hostBytes r.flags := by
    have h := slice_middle (hostBytes r.size) (hostBytes r.flags) (r.usernm.val ++ r.jobnm.val)
    simpa [bytes, length_hostBytes] using h
  have h₃ : slice r.bytes 8 USERNM_MAX = r.usernm.val := by
    have h := slice_middle (hostBytes r.size ++ hostBytes r.flags) r.usernm.val r.jobnm.val
    simpa [bytes, length_hostBytes, hu] using h
  have h₄ : slice r.bytes (8 + USERNM_MAX) JOBNM_MAX = r.jobnm.val := by
    have h := slice_middle (hostBytes r.size ++ hostBytes r.flags ++ r.usernm.val) r.jobnm.val []
    simpa [bytes, length_hostBytes, hu, hj] using h
  unfold ofBytes
  rw [dif_pos r.length_bytes]
  simp only [h₁, h₂, h₃, h₄, ofHostBytes_hostBytes]

end PrintReq

/-! ## Names and numbers -/

/-- A number that an `int32_t` can hold. -/
def IsInt32 (i : Int) : Prop := -(2 ^ 31) ≤ i ∧ i < 2 ^ 31

theorem int32_of_isInt32 {i : Int} (h : IsInt32 i) : int32 i = i := by
  obtain ⟨h₁, h₂⟩ := h
  exact Int.bmod_eq_of_le (by omega) (by omega)

theorem isInt32_int32 (i : Int) : IsInt32 (int32 i) := by
  have h₁ := @Int.le_bmod i (2 ^ 32) (by decide)
  have h₂ := @Int.bmod_lt i (2 ^ 32) (by decide)
  unfold IsInt32 int32
  omega

/-- The name of the files gives back the number of the job. -/
theorem jobid_fileName {i : Int} (h : IsInt32 i) : int32 (atol (fileName i)) = i := by
  unfold fileName
  rw [atol_decimalInt, int32_of_isInt32 h]

/-- Jobs with different numbers have files with different names. -/
theorem fileName_inj {i j : Int} (h : fileName i = fileName j) : i = j := by
  have hi := atol_decimalInt i
  rw [show decimalInt i = decimalInt j from h, atol_decimalInt] at hi
  exact hi.symm

/-- The counter stays an `int32_t`, and positive. -/
theorem bumpJobno_pos (m : Mem) : 1 ≤ m.bumpJobno.nextjob ∧ IsInt32 m.bumpJobno.nextjob := by
  unfold Mem.bumpJobno
  dsimp only
  split
  · exact ⟨Int.le_refl _, by decide, by decide⟩
  · next h => exact ⟨by omega, isInt32_int32 _⟩

/-- `nextjob++` without the wrap-around. -/
theorem bumpJobno_eq {m : Mem} (h₁ : 0 ≤ m.nextjob) (h₂ : m.nextjob + 1 < 2 ^ 31) :
    m.bumpJobno.nextjob = m.nextjob + 1 := by
  have hint : int32 (m.nextjob + 1) = m.nextjob + 1 :=
    int32_of_isInt32 ⟨by omega, h₂⟩
  unfold Mem.bumpJobno
  dsimp only
  rw [hint, if_neg (by omega)]

/-- The counter is read back from the job file, although the buffer still holds a path. -/
theorem readJobno_decimal {n : Nat} (hn : n < 2 ^ 31) : readJobno (decimal n) = n := by
  have hlen : (decimal n).length ≤ 10 := length_decimal_le (by decide) (by omega)
  have htake : (decimal n).take FILENMSZ = decimal n := List.take_of_length_le (by simp; omega)
  -- no character of the path is a digit
  have hall : jobPath.all (!isDigit ·) = true := by decide
  have hpath : ∀ c ∈ jobPath, isDigit c = false := by
    intro c hc
    simpa using List.all_eq_true.mp hall c hc
  have hhead : ∀ c ∈ (jobPath.drop (decimal n).length).head?, isDigit c = false :=
    fun c hc => hpath c (List.mem_of_mem_drop (List.mem_of_head? hc))
  unfold readJobno
  rw [htake]
  dsimp only
  rw [if_neg (decimal_ne_nil n), atol_decimal_append n hhead]
  exact int32_of_isInt32 ⟨by omega, by omega⟩

theorem readJobno_nil : readJobno [] = 1 := rfl

end LearningNotes.Printd
