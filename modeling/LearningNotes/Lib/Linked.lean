/-!
# Lists threaded through a store

A list of cells `(a, r)`, where the record `r` kept at address `a` names the next
address `link r`, is a *segment* from a start to an end address (`Seg`); a linked
list is a segment that ends at `nil`. The cells are listed, not looked up, so a
segment says nothing about the rest of the store; `InStore` says that a list of
cells is what a store holds.

A store determines the list (`Seg.unique`), so a list that ends visits no address
twice (`Seg.nodup`). The two edits are pushing a cell in front (`seg_cons`) and
unlinking, that is, letting the cell in front of a segment point behind it
(`Seg.relast`).
-/

namespace LearningNotes

variable {α ρ : Type}

/-- Following `link` from `a` visits the cells `c` and arrives at `m`. -/
def Seg (nil : α) (link : ρ → α) : α → List (α × ρ) → α → Prop
  | a, [], m => a = m
  | a, (b, r) :: c, m => a = b ∧ b ≠ nil ∧ Seg nil link (link r) c m

/-- The cells are what the store holds. -/
def InStore (store : α → Option ρ) (c : List (α × ρ)) : Prop := ∀ e ∈ c, store e.1 = some e.2

variable {nil : α} {link : ρ → α}

@[simp] theorem seg_nil {a m : α} : Seg nil link a [] m ↔ a = m := Iff.rfl

@[simp] theorem seg_cons {a b m : α} {r : ρ} {c : List (α × ρ)} :
    Seg nil link a ((b, r) :: c) m ↔ a = b ∧ b ≠ nil ∧ Seg nil link (link r) c m := Iff.rfl

/-- A segment splits wherever its list of cells splits. -/
theorem seg_append {a m : α} {c₁ c₂ : List (α × ρ)} :
    Seg nil link a (c₁ ++ c₂) m ↔ ∃ k, Seg nil link a c₁ k ∧ Seg nil link k c₂ m := by
  induction c₁ generalizing a with
  | nil =>
    rw [List.nil_append]
    exact ⟨fun h => ⟨a, rfl, h⟩, fun ⟨k, hk, h⟩ => by cases hk; exact h⟩
  | cons e c₁ ih =>
    obtain ⟨b, r⟩ := e
    rw [List.cons_append, seg_cons, ih]
    exact ⟨fun ⟨h₁, h₂, k, h₃, h₄⟩ => ⟨k, ⟨h₁, h₂, h₃⟩, h₄⟩,
      fun ⟨k, ⟨h₁, h₂, h₃⟩, h₄⟩ => ⟨h₁, h₂, k, h₃, h₄⟩⟩

/-- No cell of a segment sits at `nil`. -/
theorem Seg.ne_nil {a m : α} {c : List (α × ρ)} (h : Seg nil link a c m) :
    ∀ e ∈ c, e.1 ≠ nil := by
  induction c generalizing a with
  | nil => intro e he; exact absurd he List.not_mem_nil
  | cons e c ih =>
    obtain ⟨b, r⟩ := e
    obtain ⟨-, hb, hc⟩ := h
    intro e he
    rcases List.mem_cons.mp he with rfl | he
    · exact hb
    · exact ih hc e he

/-- From the same start, the same store gives the same list. -/
theorem Seg.unique {store : α → Option ρ} {a : α} {c c' : List (α × ρ)}
    (h : Seg nil link a c nil) (hs : InStore store c)
    (h' : Seg nil link a c' nil) (hs' : InStore store c') : c = c' := by
  induction c generalizing a c' with
  | nil =>
    cases c' with
    | nil => rfl
    | cons e c' => exact absurd (h ▸ h'.1).symm h'.2.1
  | cons e c ih =>
    obtain ⟨b, r⟩ := e
    obtain ⟨rfl, hb, hc⟩ := h
    cases c' with
    | nil => exact absurd h' hb
    | cons e' c' =>
      obtain ⟨b', r'⟩ := e'
      obtain ⟨rfl, -, hc'⟩ := h'
      have hr : some r = some r' :=
        (hs (a, r) (List.mem_cons_self ..)).symm.trans (hs' (a, r') (List.mem_cons_self ..))
      cases hr
      rw [ih hc (fun e he => hs e (List.mem_cons_of_mem _ he)) hc'
        (fun e he => hs' e (List.mem_cons_of_mem _ he))]

/-- A list that ends visits no address twice. -/
theorem Seg.nodup {store : α → Option ρ} {a : α} {c : List (α × ρ)}
    (h : Seg nil link a c nil) (hs : InStore store c) : (c.map Prod.fst).Nodup := by
  induction c generalizing a with
  | nil => exact List.nodup_nil
  | cons e c ih =>
    obtain ⟨b, r⟩ := e
    have hc := h.2.2
    have hsc : InStore store c := by
      intro e he
      exact hs e (List.mem_cons_of_mem _ he)
    rw [List.map_cons, List.nodup_cons]
    refine ⟨?_, ih hc hsc⟩
    intro hmem
    -- a second visit of `b` would start the same list again, inside itself
    obtain ⟨⟨b', r'⟩, he, hb⟩ := List.mem_map.mp hmem
    cases (show b' = b from hb)
    obtain ⟨c₁, c₂, hsplit⟩ := List.append_of_mem he
    rw [hsplit] at hc hsc
    obtain ⟨k, -, hk⟩ := seg_append.mp hc
    have hsuf : InStore store ((b, r') :: c₂) := by
      intro e he
      exact hsc e (List.mem_append_right _ he)
    have heq := Seg.unique (show Seg nil link b ((b, r) :: c) nil from ⟨rfl, h.2⟩) hs
      (show Seg nil link b ((b, r') :: c₂) nil from ⟨rfl, hk.2⟩) hsuf
    have hlen := congrArg List.length heq
    rw [hsplit] at hlen
    simp only [List.length_cons, List.length_append] at hlen
    omega

/-- A cell may be replaced by one with the same link. -/
theorem Seg.replace {a b m : α} {r r' : ρ} {c₁ c₂ : List (α × ρ)}
    (h : Seg nil link a (c₁ ++ (b, r) :: c₂) m) (hr : link r' = link r) :
    Seg nil link a (c₁ ++ (b, r') :: c₂) m := by
  obtain ⟨k, h₁, h₂, h₃, h₄⟩ := seg_append.mp h
  exact seg_append.mpr ⟨k, h₁, h₂, h₃, hr ▸ h₄⟩

/-- The start of a list is its first cell, or the end. -/
theorem Seg.start {a m : α} {c : List (α × ρ)} (h : Seg nil link a c m) :
    a = (c.head?.map Prod.fst).getD m := by
  cases c with
  | nil => exact h
  | cons e c => exact h.1

/-- Let the last cell of a list point to `m`. -/
def relast (set : ρ → α → ρ) (c : List (α × ρ)) (m : α) : List (α × ρ) :=
  match c with
  | [] => []
  | [(b, r)] => [(b, set r m)]
  | e :: e' :: c => e :: relast set (e' :: c) m

/-- The start of a list whose last pointer was set to `m`: the pointer to the list
itself, if the list is empty. -/
def restart (a : α) (c : List (α × ρ)) (m : α) : α :=
  match c with
  | [] => m
  | _ :: _ => a

@[simp] theorem relast_nil (set : ρ → α → ρ) (m : α) : relast set [] m = [] := rfl

/-- **Unlinking**: after the last pointer of a segment is changed, the segment arrives
at the new end. -/
theorem Seg.relast {set : ρ → α → ρ} (hset : ∀ r m, link (set r m) = m) {a k m : α}
    {c : List (α × ρ)} (h : Seg nil link a c k) :
    Seg nil link (restart a c m) (relast set c m) m := by
  induction c generalizing a with
  | nil => rfl
  | cons e c ih =>
    obtain ⟨b, r⟩ := e
    cases c with
    | nil => exact ⟨h.1, h.2.1, hset r m⟩
    | cons e' c => exact ⟨h.1, h.2.1, ih h.2.2⟩

/-- Unlinking changes the record of the last cell only. -/
theorem relast_concat (set : ρ → α → ρ) (c : List (α × ρ)) (b : α) (r : ρ) (m : α) :
    LearningNotes.relast set (c ++ [(b, r)]) m = c ++ [(b, set r m)] := by
  induction c with
  | nil => rfl
  | cons e c ih =>
    cases hc : c ++ [(b, r)] with
    | nil => exact absurd hc (by simp)
    | cons e' c' =>
      rw [List.cons_append, hc]
      show e :: LearningNotes.relast set (e' :: c') m = _
      rw [← hc, ih]
      rfl

end LearningNotes
