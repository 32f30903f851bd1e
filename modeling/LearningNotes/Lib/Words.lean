import Mathlib.Data.List.TakeWhile

/-!
# Words

The words of a list: its longest runs without a separator, in order. `words_append_cons` splits at
a separator, `words_next` is the way a tokeniser goes, and `words_eq_cons` says what a list looks
like that starts with a word.
-/

namespace LearningNotes

variable {α : Type} {p : α → Bool} {l r w : List α} {ws : List (List α)} {c : α}

/-- The longest runs of elements that are not separators. -/
def words (p : α → Bool) (l : List α) : List (List α) := (l.splitOnP p).filter fun w => !w.isEmpty

@[simp] theorem words_nil : words p [] = [] := rfl

/-- A separator ends a word. -/
theorem words_append_cons (l r : List α) (hc : p c = true) :
    words p (l ++ c :: r) = words p l ++ words p r := by
  unfold words
  rw [List.splitOnP_append_cons l r hc, List.filter_append]

theorem words_cons_of_sep (r : List α) (hc : p c = true) : words p (c :: r) = words p r := by
  have h := words_append_cons [] r hc
  rwa [List.nil_append, words_nil, List.nil_append] at h

/-- A run without a separator is one word. -/
theorem words_of_word (h : ∀ a ∈ w, p a = false) (hw : w ≠ []) : words p w = [w] := by
  unfold words
  rw [List.splitOnP_eq_singleton h, List.filter_cons_of_pos (by simpa using hw), List.filter_nil]

/-- A word, up to a separator. -/
theorem words_word_cons (h : ∀ a ∈ w, p a = false) (hw : w ≠ []) (r : List α) (hc : p c = true) :
    words p (w ++ c :: r) = w :: words p r := by
  rw [words_append_cons w r hc, words_of_word h hw]
  rfl

theorem words_dropWhile (l : List α) : words p (l.dropWhile p) = words p l := by
  induction l with
  | nil => rfl
  | cons a l ih =>
    by_cases ha : p a = true
    · rw [List.dropWhile_cons_of_pos ha, ih, words_cons_of_sep l ha]
    · rw [List.dropWhile_cons_of_neg ha]

theorem not_sep_of_dropWhile {s : List α} (h : l.dropWhile p = c :: s) : p c = false := by
  have hne : l.dropWhile p ≠ [] := by simp [h]
  have hhead := List.head_dropWhile_not p hne
  simpa only [h, List.head_cons] using hhead

/-- **The way of a tokeniser**: skip separators, take the run, skip the separator behind it. -/
theorem words_next {s : List α} (h : l.dropWhile p = c :: s) :
    words p l = (c :: s).takeWhile (!p ·) :: words p (((c :: s).dropWhile (!p ·)).drop 1) := by
  have hc := not_sep_of_dropWhile h
  have hne : (c :: s).takeWhile (!p ·) ≠ [] := by simp [hc]
  have hword : ∀ a ∈ (c :: s).takeWhile (!p ·), p a = false := by
    intro a ha
    simpa using List.mem_takeWhile_imp ha
  have hsplit := List.takeWhile_append_dropWhile (p := (!p ·)) (l := c :: s)
  rw [← words_dropWhile, h]
  cases hd : (c :: s).dropWhile (!p ·) with
  | nil =>
    rw [hd, List.append_nil] at hsplit
    rw [hsplit] at hword ⊢
    rw [words_of_word hword (List.cons_ne_nil c s)]
    rfl
  | cons d t =>
    have hd' : p d = true := by
      simpa using not_sep_of_dropWhile hd
    have hsep := words_word_cons hword hne t hd'
    rw [hd] at hsplit
    rw [hsplit] at hsep
    exact hsep

theorem words_eq_nil : words p l = [] ↔ l.dropWhile p = [] := by
  constructor
  · intro h
    cases hd : l.dropWhile p with
    | nil => rfl
    | cons c s =>
      rw [words_next hd] at h
      exact absurd h (by simp)
  · intro h
    rw [← words_dropWhile, h, words_nil]

/-- A list that starts with a word: the word, and nothing or a separator behind it. -/
theorem words_eq_cons (h : words p l = w :: ws) (hl : ∀ a ∈ l.head?, p a = false) :
    l = w ∧ ws = [] ∨ ∃ c s, l = w ++ c :: s ∧ p c = true ∧ words p s = ws := by
  cases l with
  | nil => exact absurd h (by simp)
  | cons a t =>
    have ha : p a = false := hl a rfl
    have hnext : words p (a :: t) = _ := words_next (List.dropWhile_cons_of_neg (by simp [ha]))
    rw [h] at hnext
    obtain ⟨hw, hws⟩ := List.cons.inj hnext
    have hsplit := List.takeWhile_append_dropWhile (p := (!p ·)) (l := a :: t)
    rw [← hw] at hsplit
    cases hd : (a :: t).dropWhile (!p ·) with
    | nil =>
      rw [hd, List.append_nil] at hsplit
      rw [hd] at hws
      exact Or.inl ⟨hsplit.symm, hws⟩
    | cons c s =>
      rw [hd] at hsplit hws
      exact Or.inr ⟨c, s, hsplit.symm, by simpa using not_sep_of_dropWhile hd, hws.symm⟩

/-- A word is a part of the list, without separators, and not empty. -/
theorem word_of_mem (h : w ∈ words p l) : w ≠ [] ∧ (∀ a ∈ w, p a = false) ∧ w <:+: l := by
  -- what is left behind the first word is shorter
  induction hn : l.length using Nat.strong_induction_on generalizing l with
  | _ n ih =>
    cases hd : l.dropWhile p with
    | nil =>
      rw [words_eq_nil.mpr hd] at h
      exact absurd h List.not_mem_nil
    | cons c s =>
      have hc := not_sep_of_dropWhile hd
      have hsuffix : c :: s <:+ l := hd ▸ List.dropWhile_suffix p
      rw [words_next hd] at h
      rcases List.mem_cons.mp h with rfl | h
      · refine ⟨by simp [hc], fun a ha => ?_, ?_⟩
        · simpa using List.mem_takeWhile_imp ha
        · exact (List.takeWhile_prefix _).isInfix.trans hsuffix.isInfix
      · have hrest : ((c :: s).dropWhile (!p ·)).drop 1 <:+ c :: s :=
          (List.drop_suffix 1 _).trans (List.dropWhile_suffix _)
        have hlt : (((c :: s).dropWhile (!p ·)).drop 1).length < n := by
          have hle := (List.dropWhile_suffix (!p ·) (l := c :: s)).length_le
          have hle' := hsuffix.length_le
          have hpos : 0 < (c :: s).length := Nat.succ_pos _
          rw [List.length_drop]
          omega
        obtain ⟨hne, hword, hinfix⟩ := ih _ hlt h rfl
        exact ⟨hne, hword, hinfix.trans (hrest.trans hsuffix).isInfix⟩

end LearningNotes
