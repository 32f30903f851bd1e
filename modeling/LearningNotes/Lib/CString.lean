/-!
# C strings

A C string is a byte list without a zero byte; `CString` carries that as part of the
value. A buffer holds the string up to its first zero byte (`cstr`), and `strchr`
finds a character, here as the string in front of it and the string behind it, which
is what code that overwrites the separator with a zero byte gets.

`plainFormat` is a format of `printf` for which no arguments are needed: the only
conversion in it is `%%`.
-/

namespace LearningNotes

/-- A character, unsigned. -/
abbrev Byte := UInt8

/-- A string constant. -/
def str (s : String) : List Byte := s.toList.map Char.toUInt8

/-- A byte string without a zero byte. -/
abbrev CString := { s : List UInt8 // (0 : UInt8) ∉ s }

/-- The string a buffer holds: everything in front of the first zero byte. -/
def cstr (buf : List UInt8) : List UInt8 := buf.takeWhile (· ≠ 0)

/-- The string in front of the first `c` and the string behind it. -/
def strchr (c : UInt8) : List UInt8 → Option (List UInt8 × List UInt8)
  | [] => none
  | a :: s => if a = c then some ([], s) else (strchr c s).map fun p => (a :: p.1, p.2)

/-- A format without conversions. -/
def plainFormat : List Byte → Bool
  | [] => true
  | [c] => decide (c ≠ '%'.toUInt8)
  | c :: d :: s => if c = '%'.toUInt8 then decide (d = '%'.toUInt8) && plainFormat s else plainFormat (d :: s)

theorem cstr_of_not_mem {s : List UInt8} (h : (0 : UInt8) ∉ s) : cstr s = s := by
  unfold cstr
  induction s with
  | nil => rfl
  | cons a s ih =>
    have ha : a ≠ 0 := fun e => h (e ▸ List.mem_cons_self ..)
    rw [List.takeWhile_cons_of_pos (by simpa using ha),
      ih fun hs => h (List.mem_cons_of_mem _ hs)]

/-- The string in front of a zero byte. -/
theorem cstr_append {s : List UInt8} (h : (0 : UInt8) ∉ s) (r : List UInt8) :
    cstr (s ++ 0 :: r) = s := by
  unfold cstr
  rw [List.takeWhile_append_of_pos, List.takeWhile_cons_of_neg (by simp), List.append_nil]
  intro a ha
  have hne : a ≠ 0 := fun he => h (he ▸ ha)
  simpa using hne

theorem zero_not_mem_cstr (s : List UInt8) : (0 : UInt8) ∉ cstr s := by
  intro h
  have hne := List.all_eq_true.mp List.all_takeWhile 0 h
  simp at hne

/-- A string that ends inside the buffer. -/
theorem cstr_append_of_mem {s : List UInt8} (h : (0 : UInt8) ∈ s) (r : List UInt8) :
    cstr (s ++ r) = cstr s ∧ (cstr s).length < s.length := by
  obtain ⟨a, b, rfl, ha⟩ := List.eq_append_cons_of_mem h
  rw [cstr_append ha, List.append_assoc, List.cons_append, cstr_append ha]
  refine ⟨rfl, ?_⟩
  rw [List.length_append, List.length_cons]
  omega

theorem strchr_append {c : UInt8} {a : List UInt8} (h : c ∉ a) (b : List UInt8) :
    strchr c (a ++ c :: b) = some (a, b) := by
  induction a with
  | nil =>
    rw [List.nil_append, strchr, if_pos rfl]
  | cons d a ih =>
    have hd : d ≠ c := fun e => h (e ▸ List.mem_cons_self ..)
    rw [List.cons_append, strchr, if_neg hd, ih fun ha => h (List.mem_cons_of_mem _ ha)]
    rfl

theorem strchr_eq_none {c : UInt8} {s : List UInt8} (h : c ∉ s) : strchr c s = none := by
  induction s with
  | nil => rfl
  | cons a s ih =>
    have ha : a ≠ c := fun e => h (e ▸ List.mem_cons_self ..)
    rw [strchr, if_neg ha, ih fun hs => h (List.mem_cons_of_mem _ hs)]
    rfl

/-- `strchr` finds a character that occurs. -/
theorem strchr_of_mem {c : UInt8} {s : List UInt8} (h : c ∈ s) :
    ∃ a b, strchr c s = some (a, b) ∧ s = a ++ c :: b ∧ c ∉ a := by
  obtain ⟨a, b, hs, ha⟩ := List.eq_append_cons_of_mem h
  exact ⟨a, b, by rw [hs, strchr_append ha], hs, ha⟩

/-- A string has one last separator. -/
theorem split_last_inj {c : UInt8} {a a' b b' : List UInt8} (hb : c ∉ b) (hb' : c ∉ b')
    (h : a ++ c :: b = a' ++ c :: b') : a = a' ∧ b = b' := by
  rcases List.append_eq_append_iff.mp h with ⟨m, rfl, hm⟩ | ⟨m, rfl, hm⟩
  · cases m with
    | nil =>
      rw [List.append_nil]
      exact ⟨rfl, (List.cons.inj hm).2⟩
    | cons d m =>
      have hmem : c ∈ b := by
        rw [(List.cons.inj hm).2]
        exact List.mem_append_right _ (List.mem_cons_self ..)
      exact absurd hmem hb
  · cases m with
    | nil =>
      rw [List.append_nil]
      exact ⟨rfl, (List.cons.inj hm).2.symm⟩
    | cons d m =>
      have hmem : c ∈ b' := by
        rw [(List.cons.inj hm).2]
        exact List.mem_append_right _ (List.mem_cons_self ..)
      exact absurd hmem hb'

end LearningNotes
