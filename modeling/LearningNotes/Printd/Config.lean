import LearningNotes.Lib.CString
import LearningNotes.Lib.Words
import LearningNotes.Printd.Source

/-!
# The configuration file

`scan_configfile` of `util.c` looks for the first line that has the keyword as its first word and returns
the second word. A line that `fgets` reads in one piece is taken apart as `entry` says: a first word
that does not fit `keybuf` is cut off, and what is left of it is the value.

Mirroring notes:
- The file can be opened. A line of it may have zero bytes; `sscanf` stops there. The keyword has none.
- `valbuf` is static. Nobody reads what is in it when `scan_configfile` returns `NULL`.
-/

namespace LearningNotes.Printd

@[simp, reducible] def MAXCFGLINE : Nat := 512
@[simp, reducible] def MAXKWLEN : Nat := 16

def newline : Byte := 10

/-- At most `n` bytes, up to a newline, and what comes behind them in the file. -/
def fgets : Nat → List Byte → List Byte × List Byte
  | 0, file => ([], file)
  | _ + 1, [] => ([], [])
  | n + 1, c :: file =>
    if c = newline then ([c], file) else (c :: (fgets n file).1, (fgets n file).2)

/-- `"%<width>s"`, and what comes behind it. -/
def scanWord (width : Nat) (s : List Byte) : Option (List Byte × List Byte) :=
  let s := s.dropWhile isSpace
  let w := (s.takeWhile (!isSpace ·)).take width
  if w = [] then none else some (w, s.drop w.length)

/-- `sscanf(line, pattern, keybuf, valbuf)`, when it returns 2. -/
def sscanf (line : List Byte) : Option (List Byte × List Byte) := do
  let k ← scanWord (MAXKWLEN - 1) line
  let v ← scanWord (MAXCFGLINE - 1) k.2
  some (k.1, v.1)

/-- The loop of `scan_configfile`. -/
def configLoop (keyword : List Byte) : Nat → List Byte → Option (List Byte)
  | 0, _ => none
  | n + 1, file =>
    if file = [] then none
    else
      let r := fgets (MAXCFGLINE - 1) file
      match sscanf (cstr r.1) with
      | some (keybuf, valbuf) => if keyword = keybuf then some valbuf else configLoop keyword n r.2
      | none => configLoop keyword n r.2

/-- `scan_configfile`, on the contents of the file. -/
def scanConfigfile (keyword file : List Byte) : Option (List Byte) :=
  configLoop keyword (file.length + 1) file

/-- `get_printserver`: the setting `printserver`. -/
def getPrintserver (file : List Byte) : Option (List Byte) := scanConfigfile (str "printserver") file

/-! ## What a file says -/

/-- What a line says. -/
def entry (line : List Byte) : Option (List Byte × List Byte) :=
  match words isSpace (cstr line) with
  | [] => none
  | w :: ws =>
    if MAXKWLEN ≤ w.length then some (w.take (MAXKWLEN - 1), w.drop (MAXKWLEN - 1))
    else ws.head?.map fun v => (w, v)

/-- What a line says about the keyword. -/
def valueOf (keyword line : List Byte) : Option (List Byte) :=
  (entry line).bind fun e => if keyword = e.1 then some e.2 else none

/-- The lines of a file. -/
def linesOf (file : List Byte) : List (List Byte) := file.splitOnP (· == newline)

variable {keyword line file l r u t w v : List Byte} {ws : List (List Byte)} {n width : Nat}

/-! ## One line -/

/-- A word with nothing or white space behind it. -/
theorem words_behind (hu : ∀ a ∈ u, isSpace a = false) (hne : u ≠ [])
    (ht : ∀ a ∈ t.head?, isSpace a = true) : words isSpace (u ++ t) = u :: words isSpace t := by
  cases t with
  | nil => rw [List.append_nil, words_of_word hu hne, words_nil]
  | cons d t =>
    have hd : isSpace d = true := ht d rfl
    rw [words_word_cons hu hne t hd, words_cons_of_sep t hd]

/-- A line of blanks has no word. -/
theorem scanWord_nil (h : words isSpace line = []) : scanWord width line = none := by
  simp [scanWord, words_eq_nil.1 h]

/-- A word is no longer than its field. -/
theorem scanWord_length {r : List Byte × List Byte} (h : scanWord width line = some r) :
    r.1.length ≤ width := by
  simp only [scanWord] at h
  split at h
  · cases h
  · cases h
    exact List.length_take_le _ _

theorem drop_take_length (w t : List Byte) (n : Nat) :
    (w ++ t).drop (w.take n).length = w.drop n ++ t := by
  calc (w ++ t).drop (w.take n).length
      = (w.take n ++ (w.drop n ++ t)).drop (w.take n).length := by
        rw [← List.append_assoc, List.take_append_drop]
    _ = w.drop n ++ t := List.drop_left

/-- The first word is read as far as it fits. -/
theorem scanWord_cons (h : words isSpace line = w :: ws) (hwidth : 0 < width) : ∃ t,
    scanWord width line = some (w.take width, w.drop width ++ t) ∧
      (∀ a ∈ w, isSpace a = false) ∧ (∀ a ∈ t.head?, isSpace a = true) ∧ words isSpace t = ws := by
  cases hd : line.dropWhile isSpace with
  | nil => cases h.symm.trans (words_eq_nil.2 hd)
  | cons c s =>
    obtain ⟨hw, hws⟩ := List.cons.inj (h.symm.trans (words_next hd))
    have hsplit := List.takeWhile_append_dropWhile (p := (!isSpace ·)) (l := c :: s)
    have hword := word_of_mem (h ▸ List.mem_cons_self : w ∈ words isSpace line)
    rw [← hw] at hsplit
    have hread : scanWord width line = some (w.take width, (c :: s).drop (w.take width).length) := by
      have htake : w.take width ≠ [] := by
        rw [Ne, List.take_eq_nil_iff, not_or]
        exact ⟨hwidth.ne', hword.1⟩
      simp only [scanWord, hd, ← hw, if_neg htake]
    rw [← hsplit, drop_take_length] at hread
    refine ⟨_, hread, hword.2.1, ?_⟩
    cases hdrop : (c :: s).dropWhile (!isSpace ·) with
    | nil =>
      rw [hdrop] at hws
      exact ⟨by simp, hws.symm⟩
    | cons d t =>
      have hsep : isSpace d = true := by simpa using not_sep_of_dropWhile hdrop
      rw [hdrop] at hws
      refine ⟨fun a ha => ?_, (words_cons_of_sep t hsep).trans hws.symm⟩
      obtain rfl : d = a := by simpa using ha
      exact hsep

/-- The keyword and the value are the first two words, or the parts of a long first one. -/
theorem sscanf_eq (h : line.length ≤ MAXCFGLINE - 1) : sscanf line =
    match words isSpace line with
    | [] => none
    | w :: ws =>
      if MAXKWLEN ≤ w.length then some (w.take (MAXKWLEN - 1), w.drop (MAXKWLEN - 1))
      else ws.head?.map fun v => (w, v) := by
  -- no word is longer than the line
  have hfits : ∀ w ∈ words isSpace line, w.length ≤ MAXCFGLINE - 1 := by
    intro w hw
    exact (word_of_mem hw).2.2.length_le.trans h
  cases hw : words isSpace line with
  | nil => rw [sscanf, scanWord_nil hw]; rfl
  | cons w ws =>
    rw [hw] at hfits
    obtain ⟨t, hscan, hword, ht, rfl⟩ := scanWord_cons hw (show 0 < MAXKWLEN - 1 by decide)
    rw [sscanf, hscan]
    simp only [Option.bind_eq_bind, Option.bind_some]
    by_cases hlong : MAXKWLEN ≤ w.length
    · -- the second word starts in the middle of the first
      have hrest : w.drop (MAXKWLEN - 1) ≠ [] := by
        simp only [Ne, List.drop_eq_nil_iff]
        intro h
        exact absurd (hlong.trans h) (by decide)
      have hwords := words_behind (fun a ha => hword a (List.mem_of_mem_drop ha)) hrest ht
      obtain ⟨t', hscan', -⟩ := scanWord_cons hwords (show 0 < MAXCFGLINE - 1 by decide)
      have hlen : (w.drop (MAXKWLEN - 1)).length ≤ MAXCFGLINE - 1 :=
        (List.length_drop ▸ Nat.sub_le _ _).trans (hfits w List.mem_cons_self)
      rw [hscan', List.take_of_length_le hlen, if_pos hlong]
      rfl
    · have hshort : w.length ≤ MAXKWLEN - 1 := Nat.le_of_lt_succ (not_le.1 hlong)
      rw [List.take_of_length_le hshort, List.drop_of_length_le hshort, List.nil_append, if_neg hlong]
      cases hws : words isSpace t with
      | nil => rw [scanWord_nil hws]; rfl
      | cons v vs =>
        obtain ⟨t', hscan', -⟩ := scanWord_cons hws (show 0 < MAXCFGLINE - 1 by decide)
        have hlen : v.length ≤ MAXCFGLINE - 1 := hfits v (by simp [hws])
        rw [hscan', List.take_of_length_le hlen]
        rfl

/-! ## The lines of the file -/

/-- A line that is short enough is read as a whole. -/
theorem fgets_line (hl : newline ∉ l) (hn : l.length < n) (r : List Byte) :
    fgets n (l ++ newline :: r) = (l ++ [newline], r) := by
  induction l generalizing n with
  | nil =>
    obtain ⟨n, rfl⟩ := Nat.exists_eq_add_of_le' (show 1 ≤ n by omega)
    rw [List.nil_append, fgets, if_pos rfl]
    rfl
  | cons c l ih =>
    obtain ⟨n, rfl⟩ := Nat.exists_eq_add_of_le' (show 1 ≤ n by omega)
    obtain ⟨hc, hl⟩ := not_or.1 (mt List.mem_cons.2 hl)
    rw [List.cons_append, fgets, if_neg (Ne.symm hc), ih hl (Nat.lt_of_succ_lt_succ hn)]
    rfl

/-- The last line may end without a newline. -/
theorem fgets_last (hl : newline ∉ l) (hn : l.length ≤ n) : fgets n l = (l, []) := by
  induction l generalizing n with
  | nil => cases n <;> rfl
  | cons c l ih =>
    obtain ⟨n, rfl⟩ := Nat.exists_eq_add_of_le' (show 1 ≤ n by simp at hn; omega)
    obtain ⟨hc, hl⟩ := not_or.1 (mt List.mem_cons.2 hl)
    rw [fgets, if_neg (Ne.symm hc), ih hl (Nat.le_of_succ_le_succ hn)]

theorem cstr_newline (l : List Byte) :
    cstr (l ++ [newline]) = cstr l ∨ cstr (l ++ [newline]) = cstr l ++ [newline] := by
  by_cases h : (0 : Byte) ∈ l
  · exact Or.inl (cstr_append_of_mem h _).1
  · have hl : (0 : Byte) ∉ l ++ [newline] := by
      rw [List.mem_append, not_or]
      exact ⟨h, by decide⟩
    rw [cstr_of_not_mem h, cstr_of_not_mem hl]
    exact Or.inr rfl

/-- The newline says nothing. -/
theorem entry_newline (l : List Byte) : entry (l ++ [newline]) = entry l := by
  unfold entry
  rcases cstr_newline l with h | h
  · rw [h]
  · rw [h, words_append_cons (cstr l) [] (show isSpace newline = true by decide), words_nil,
      List.append_nil]

/-- The last line. -/
theorem linesOf_last (hl : newline ∉ l) : linesOf l = [l] :=
  List.splitOnP_eq_singleton fun a ha => by simpa using ne_of_mem_of_not_mem ha hl

/-- The first line, and the rest. -/
theorem linesOf_cons (hl : newline ∉ l) (r : List Byte) :
    linesOf (l ++ newline :: r) = l :: linesOf r := by
  have h := List.splitOnP_append_cons (p := (· == newline)) l r (beq_self_eq_true newline)
  rw [linesOf, h, ← linesOf, linesOf_last hl]
  rfl

/-- The first line, and what is behind it. -/
theorem first_line (file : List Byte) :
    newline ∉ file ∨ ∃ l r, file = l ++ newline :: r ∧ newline ∉ l := by
  by_cases h : newline ∈ file
  · obtain ⟨l, r, rfl, hl⟩ := List.eq_append_cons_of_mem h
    exact Or.inr ⟨l, r, rfl, hl⟩
  · exact Or.inl h

theorem cstr_length_le (s : List Byte) : (cstr s).length ≤ s.length :=
  (List.takeWhile_prefix _).length_le

/-- One round of the loop. -/
theorem configLoop_succ (hne : file ≠ []) (hl : (fgets (MAXCFGLINE - 1) file).1.length ≤ MAXCFGLINE - 1)
    (n : Nat) : configLoop keyword (n + 1) file =
      (valueOf keyword (fgets (MAXCFGLINE - 1) file).1).or
        (configLoop keyword n (fgets (MAXCFGLINE - 1) file).2) := by
  rw [configLoop, if_neg hne]
  simp only [sscanf_eq ((cstr_length_le _).trans hl), valueOf, ← entry.eq_def]
  cases entry (fgets (MAXCFGLINE - 1) file).1 with
  | none => rfl
  | some e =>
    by_cases hk : keyword = e.1
    · simp [hk]
    · simp [hk]

/-- The loop looks at the lines one by one. -/
theorem configLoop_eq (hfile : ∀ l ∈ linesOf file, l.length + 2 ≤ MAXCFGLINE)
    (hn : file.length < n) : configLoop keyword n file = (linesOf file).findSome? (valueOf keyword) := by
  induction n generalizing file with
  | zero => exact absurd hn (Nat.not_lt_zero _)
  | succ n ih =>
    rcases first_line file with hlast | ⟨l, r, rfl, hl⟩
    · rw [linesOf_last hlast] at hfile ⊢
      by_cases hne : file = []
      · rw [hne]; rfl
      · have hlen := hfile file List.mem_cons_self
        have hread := fgets_last hlast (show file.length ≤ MAXCFGLINE - 1 by omega)
        rw [configLoop_succ hne (by rw [hread]; simp only; omega), hread]
        have hend : configLoop keyword n [] = none := by cases n <;> rfl
        rw [hend, Option.or_none, List.findSome?_singleton]
    · rw [linesOf_cons hl] at hfile ⊢
      have hlen := hfile l List.mem_cons_self
      have hread := fgets_line hl (show l.length < MAXCFGLINE - 1 by omega) r
      have hshort : r.length < n := by
        simp only [List.length_append, List.length_cons] at hn
        omega
      rw [configLoop_succ (by simp) (by rw [hread, List.length_append, List.length_singleton]; omega), hread,
        ih (fun l' hl' => hfile l' (List.mem_cons_of_mem _ hl')) hshort, List.findSome?_cons]
      simp only [valueOf, entry_newline]
      cases (entry l).bind _ <;> rfl

/-- A keyword as long as `keybuf` is not found. -/
theorem configLoop_long (hkey : MAXKWLEN ≤ keyword.length) (n : Nat) (file : List Byte) :
    configLoop keyword n file = none := by
  induction n generalizing file with
  | zero => rfl
  | succ n ih =>
    rw [configLoop]
    by_cases hne : file = []
    · rw [if_pos hne]
    · rw [if_neg hne]
      cases hread : sscanf (cstr (fgets (MAXCFGLINE - 1) file).1) with
      | none => simp only [hread, ih]
      | some e =>
        obtain ⟨k, v⟩ := e
        have hlen : k.length ≤ MAXKWLEN - 1 := by
          obtain ⟨x, hx, hread⟩ := Option.bind_eq_some_iff.1 hread
          obtain ⟨y, -, hread⟩ := Option.bind_eq_some_iff.1 hread
          cases hread
          exact scanWord_length hx
        have hdiff : keyword ≠ k := by
          rintro rfl
          exact absurd (hkey.trans hlen) (by decide)
        simp only [hread, if_neg hdiff, ih]

/-! ## A file that was written line by line -/

/-- A keyword and its value as they stand in a line that is read back. -/
structure Setting where
  keyword : List Byte
  value : List Byte
  keyword_ne : keyword ≠ []
  value_ne : value ≠ []
  keyword_plain : ∀ a ∈ keyword, isSpace a = false ∧ a ≠ 0
  value_plain : ∀ a ∈ value, isSpace a = false ∧ a ≠ 0
  keyword_fits : keyword.length < MAXKWLEN
  fits : keyword.length + value.length + 3 ≤ MAXCFGLINE

/-- `keyword value`. -/
def Setting.text (e : Setting) : List Byte := e.keyword ++ 32 :: e.value

/-- The setting as a line of the file. -/
def Setting.written (e : Setting) : List Byte := e.text ++ [newline]

/-- No white space but blanks, and no null. -/
theorem Setting.notMem_text (e : Setting) (c : Byte) (hspace : c = 0 ∨ isSpace c = true ∧ c ≠ 32) :
    c ∉ e.text := by
  have hplain : ∀ a, isSpace a = false ∧ a ≠ 0 → c ≠ a := by
    rintro a ⟨hs, h0⟩ rfl
    rcases hspace with rfl | ⟨hc, -⟩
    · exact h0 rfl
    · rw [hc] at hs; cases hs
  have h32 : c ≠ 32 := by
    rcases hspace with rfl | ⟨-, hc⟩
    · decide
    · exact hc
  rw [Setting.text, List.mem_append, List.mem_cons]
  rintro (h | h | h)
  · exact hplain c (e.keyword_plain c h) rfl
  · exact h32 h
  · exact hplain c (e.value_plain c h) rfl

/-- The setting is read back from its line. -/
theorem Setting.entry_text (e : Setting) : entry e.text = some (e.keyword, e.value) := by
  have hwords : words isSpace e.text = [e.keyword, e.value] := by
    rw [Setting.text, words_word_cons (fun a ha => (e.keyword_plain a ha).1) e.keyword_ne _ (by decide),
      words_of_word (fun a ha => (e.value_plain a ha).1) e.value_ne]
  unfold entry
  rw [cstr_of_not_mem (e.notMem_text 0 (Or.inl rfl)), hwords]
  simp only [if_neg (not_le.2 e.keyword_fits)]
  rfl

/-- The lines of a file of settings. -/
theorem linesOf_settings (es : List Setting) :
    linesOf (es.flatMap Setting.written) = es.map Setting.text ++ [[]] := by
  induction es with
  | nil => exact linesOf_last List.not_mem_nil
  | cons e es ih =>
    have hl : newline ∉ e.text := e.notMem_text newline (Or.inr ⟨by decide, by decide⟩)
    rw [List.flatMap_cons, Setting.written, List.append_assoc, List.singleton_append, linesOf_cons hl, ih]
    rfl

/-- The first setting with the keyword. -/
theorem findSome?_settings (keyword : List Byte) (es : List Setting) :
    (es.map Setting.text ++ [[]]).findSome? (valueOf keyword) =
      (es.find? (·.keyword = keyword)).map Setting.value := by
  induction es with
  | nil => rfl
  | cons e es ih =>
    rw [List.map_cons, List.cons_append, List.findSome?_cons, ih, valueOf, e.entry_text, List.find?_cons]
    by_cases hk : keyword = e.keyword
    · simp [hk]
    · simp [hk, Ne.symm hk]

/-- **What `scan_configfile` finds**: the value of the first line with the keyword, when `fgets` reads
each line in one piece; the value that was written with it; and nothing for a long keyword. -/
theorem scan_configfile_finds (keyword : List Byte) :
    (∀ file, (∀ l ∈ linesOf file, l.length + 2 ≤ MAXCFGLINE) →
      scanConfigfile keyword file = (linesOf file).findSome? (valueOf keyword)) ∧
    (∀ es : List Setting, scanConfigfile keyword (es.flatMap Setting.written) =
      (es.find? (·.keyword = keyword)).map Setting.value) ∧
    (MAXKWLEN ≤ keyword.length → ∀ file, scanConfigfile keyword file = none) := by
  refine ⟨fun file hfile => configLoop_eq hfile (Nat.lt_succ_self _), fun es => ?_,
    fun hkey file => configLoop_long hkey _ file⟩
  have hlines := linesOf_settings es
  have hshort : ∀ l ∈ linesOf (es.flatMap Setting.written), l.length + 2 ≤ MAXCFGLINE := by
    rw [hlines]
    intro l hl
    rcases List.mem_append.1 hl with hl | hl
    · obtain ⟨e, -, rfl⟩ := List.mem_map.1 hl
      have hfits := e.fits
      simp only [Setting.text, List.length_append, List.length_cons]
      omega
    · obtain rfl := List.mem_singleton.1 hl
      decide
  calc scanConfigfile keyword (es.flatMap Setting.written)
      = (linesOf (es.flatMap Setting.written)).findSome? (valueOf keyword) :=
        configLoop_eq hshort (Nat.lt_succ_self _)
    _ = (es.find? (·.keyword = keyword)).map Setting.value := by
        rw [hlines, findSome?_settings]

/-- A file of one line. -/
theorem scan_configfile_finds_blade :
    getPrintserver (str "printserver blade\n") = some (str "blade") :=
  ((scan_configfile_finds (str "printserver")).1 _ (by decide)).trans (by decide)

end LearningNotes.Printd
