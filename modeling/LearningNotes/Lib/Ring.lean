import Mathlib.Data.List.Chain
import Mathlib.Data.List.Nodup
import Mathlib.Logic.Function.Basic

/-!
# Rings of doubly linked nodes

`next` and `prev` are the two pointers of each node. In a ring the pointers lead from a head through
the nodes of a list and back to the head, in both directions; the head tells where the list begins
and ends, so that there are no cases for the ends. A node is added (`Ring.insert`) or taken out
(`Ring.erase`); a stretch of nodes changes its place in its ring (`Ring.swap`) or goes from one ring
to another (`Ring.cutOut`, `Ring.putIn`). For these three, what is known of the new pointers is that
they join the new neighbours and keep the other ones.
-/

namespace LearningNotes

variable {α : Type} {next prev next' prev' : α → α} {node a b e f g k p q x y z : α}
  {l l₁ l₂ s t T : List α}

/-- `b` comes behind `a`. -/
def Adjacent (next prev : α → α) (a b : α) : Prop := next a = b ∧ prev b = a

def Ring (next prev : α → α) (node : α) (l : List α) : Prop :=
  (node :: l ++ [node]).IsChain (Adjacent next prev) ∧ (node :: l).Nodup

/-- Two chains whose ends fit. -/
theorem isChain_glue {R : α → α → Prop} (h₁ : l₁.IsChain R) (h₂ : l₂.IsChain R)
    (hx : l₁.getLast? = some x) (hy : l₂.head? = some y) (hR : R x y) : (l₁ ++ l₂).IsChain R := by
  refine List.isChain_append.2 ⟨h₁, h₂, fun x' hx' y' hy' => ?_⟩
  obtain rfl : x = x' := Option.some.inj (hx.symm.trans hx')
  obtain rfl : y = y' := Option.some.inj (hy.symm.trans hy')
  exact hR

/-- The neighbours among the nodes `m` stay neighbours, but for those in front of a node in `T`. -/
def KeepsLinks (next prev next' prev' : α → α) (m T : List α) : Prop :=
  ∀ a ∈ m, ∀ b, b ∉ T → Adjacent next prev a b → Adjacent next' prev' a b

theorem KeepsLinks.chain {m : List α} (h : KeepsLinks next prev next' prev' m T)
    (hl : l.IsChain (Adjacent next prev)) (hm : ∀ a ∈ l, a ∈ m) (hT : ∀ b ∈ l.tail, b ∉ T) :
    l.IsChain (Adjacent next' prev') :=
  hl.imp_of_mem_tail_imp fun a b ha hb => h a (hm a ha) b (hT b hb)

theorem Ring.nodup_rotate (h : Ring next prev node l) : (l ++ [node]).Nodup :=
  List.perm_append_singleton node l |>.nodup_iff.2 h.2

theorem Ring.congr (h : Ring next prev node l)
    (hsame : ∀ a ∈ node :: l, next' a = next a ∧ prev' a = prev a) : Ring next' prev' node l := by
  refine ⟨h.1.imp_of_mem_imp fun a b ha hb hab => ?_, h.2⟩
  have hin : ∀ c ∈ node :: l ++ [node], c ∈ node :: l := by
    intro c hc
    simpa [or_comm] using hc
  exact ⟨(hsame a (hin a ha)).1.trans hab.1, (hsame b (hin b hb)).2.trans hab.2⟩

/-- A cut in a ring. -/
theorem Ring.split (h : Ring next prev node (l₁ ++ l₂)) :
    (node :: l₁).IsChain (Adjacent next prev) ∧ (l₂ ++ [node]).IsChain (Adjacent next prev) ∧
      ∀ x ∈ (node :: l₁).getLast?, ∀ y ∈ (l₂ ++ [node]).head?, Adjacent next prev x y := by
  have hassoc : node :: (l₁ ++ l₂) ++ [node] = (node :: l₁) ++ (l₂ ++ [node]) := by simp
  rw [← List.isChain_append, ← hassoc]
  exact h.1

/-- Two pieces put together again. -/
theorem Ring.glue (h₁ : (node :: l₁).IsChain (Adjacent next prev))
    (h₂ : (l₂ ++ [node]).IsChain (Adjacent next prev)) (hx : (node :: l₁).getLast? = some x)
    (hy : (l₂ ++ [node]).head? = some y) (hxy : Adjacent next prev x y)
    (hnodup : (node :: (l₁ ++ l₂)).Nodup) : Ring next prev node (l₁ ++ l₂) := by
  refine ⟨?_, hnodup⟩
  have hassoc : node :: (l₁ ++ l₂) ++ [node] = (node :: l₁) ++ (l₂ ++ [node]) := by simp
  rw [hassoc]
  exact isChain_glue h₁ h₂ hx hy hxy

theorem head_not_mem (h : (l₁ ++ x :: l₂).Nodup) : x ∉ l₁ ++ l₂ :=
  (List.nodup_cons.1 (List.nodup_middle.1 h)).1

/-- The stretches go into their own heads only from outside. -/
theorem heads_not_mem (h : (l₁ ++ f :: s ++ g :: t ++ z :: l₂).Nodup)
    (hT : ∀ b ∈ T, b = f ∨ b = g ∨ b = z) : ∀ b ∈ l₁ ++ s ++ t ++ l₂, b ∉ T := by
  have hf : f ∉ l₁ ++ (s ++ g :: t ++ z :: l₂) := head_not_mem (by simpa using h)
  have hg : g ∉ l₁ ++ f :: s ++ (t ++ z :: l₂) := head_not_mem (by simpa using h)
  have hz : z ∉ l₁ ++ f :: s ++ g :: t ++ l₂ := head_not_mem h
  intro b hb hmem
  simp only [List.mem_append, List.mem_cons, not_or] at hb hf hg hz
  rcases hT b hmem with rfl | rfl | rfl <;> grind

/-- Two neighbouring stretches change places. -/
theorem Ring.swap (h : Ring next prev node (l₁ ++ s ++ t ++ l₂))
    (hx : (node :: l₁).getLast? = some x) (hf : s.head? = some f) (he : s.getLast? = some e)
    (hg : t.head? = some g) (hk : t.getLast? = some k) (hz : (l₂ ++ [node]).head? = some z)
    (hT : ∀ b ∈ T, b = f ∨ b = g ∨ b = z)
    (hkeep : KeepsLinks next prev next' prev' (node :: (l₁ ++ s ++ t ++ l₂)) T)
    (hxg : Adjacent next' prev' x g) (hkf : Adjacent next' prev' k f)
    (hez : Adjacent next' prev' e z) : Ring next' prev' node (l₁ ++ t ++ s ++ l₂) := by
  have hrot := h.nodup_rotate
  obtain ⟨h₁, hZ, -⟩ := h.split
  obtain ⟨s', rfl⟩ : ∃ s', s = f :: s' := List.head?_eq_some_iff.1 hf
  obtain ⟨t', rfl⟩ : ∃ t', t = g :: t' := List.head?_eq_some_iff.1 hg
  obtain ⟨r, hr⟩ : ∃ r, l₂ ++ [node] = z :: r := List.head?_eq_some_iff.1 hz
  have hin : ∀ a ∈ l₂ ++ [node], a ∈ node :: (l₁ ++ f :: s' ++ g :: t' ++ l₂) := by
    intro a ha
    simp only [List.mem_append, List.mem_cons, List.not_mem_nil, or_false] at ha ⊢
    tauto
  rw [List.append_assoc, hr] at hrot
  rw [hr] at hZ hin
  have hT := heads_not_mem hrot hT
  simp only [List.mem_append] at hT
  obtain ⟨h₂, ht, -⟩ := List.isChain_append.1 (show (node :: (l₁ ++ f :: s') ++ g :: t').IsChain _ by
    simpa using h₁)
  obtain ⟨hl, hs, -⟩ := List.isChain_append.1 (show (node :: l₁ ++ f :: s').IsChain _ by
    simpa using h₂)
  have hl' := hkeep.chain hl (by simp +contextual) fun b hb => hT b (.inl (.inl (.inl hb)))
  have hs' := hkeep.chain hs (by simp +contextual) fun b hb => hT b (.inl (.inl (.inr hb)))
  have ht' := hkeep.chain ht (by simp +contextual) fun b hb => hT b (.inl (.inr hb))
  have hZ' := hkeep.chain hZ hin fun b hb => hT b (.inr hb)
  have h₃ : (node :: l₁ ++ g :: t').IsChain (Adjacent next' prev') := isChain_glue hl' ht' hx hg hxg
  have hk' : (node :: l₁ ++ g :: t').getLast? = some k := by rw [List.getLast?_append, hk, Option.some_or]
  have h₄ : (node :: l₁ ++ g :: t' ++ f :: s').IsChain (Adjacent next' prev') :=
    isChain_glue h₃ hs' hk' hf hkf
  refine Ring.glue (by simpa using h₄) (hr ▸ hZ') ?_ hz hez ((List.Perm.nodup_iff ?_).2 h.2)
  · rw [← List.cons_append, List.getLast?_append, he, Option.some_or]
  · refine (List.Perm.append_right _ ?_).cons _
    have hcomm : (g :: t' ++ f :: s').Perm (f :: s' ++ g :: t') := List.perm_append_comm
    simpa using hcomm.append_left l₁

/-- A stretch is cut out. -/
theorem Ring.cutOut (h : Ring next prev node (l₁ ++ s ++ l₂)) (hx : (node :: l₁).getLast? = some x)
    (hf : s.head? = some f) (hz : (l₂ ++ [node]).head? = some z)
    (hT : ∀ b ∈ T, b = f ∨ b = z ∨ b ∉ node :: (l₁ ++ s ++ l₂))
    (hkeep : KeepsLinks next prev next' prev' (node :: (l₁ ++ s ++ l₂)) T)
    (hxz : Adjacent next' prev' x z) :
    Ring next' prev' node (l₁ ++ l₂) ∧ s.IsChain (Adjacent next' prev') := by
  have hrot := h.nodup_rotate
  obtain ⟨h₁, hZ, -⟩ := h.split
  obtain ⟨s', rfl⟩ : ∃ s', s = f :: s' := List.head?_eq_some_iff.1 hf
  obtain ⟨r, hr⟩ : ∃ r, l₂ ++ [node] = z :: r := List.head?_eq_some_iff.1 hz
  have hin : ∀ a ∈ l₁ ++ f :: s' ++ z :: r, a ∈ node :: (l₁ ++ f :: s' ++ l₂) := by
    intro a ha
    rw [← hr] at ha
    simp only [List.mem_append, List.mem_cons, List.not_mem_nil, or_false] at ha ⊢
    tauto
  rw [List.append_assoc, hr] at hrot
  rw [hr] at hZ
  have hT : ∀ b ∈ l₁ ++ s' ++ r, b ∉ T := by
    intro b hb hmem
    have hf : f ∉ l₁ ++ (s' ++ z :: r) := head_not_mem (by simpa using hrot)
    have hz : z ∉ l₁ ++ f :: s' ++ r := head_not_mem hrot
    rcases hT b hmem with rfl | rfl | hout
    · simp only [List.mem_append, List.mem_cons, not_or] at hb hf
      grind
    · simp only [List.mem_append, List.mem_cons, not_or] at hb hz
      grind
    · refine hout (hin b ?_)
      simp only [List.mem_append, List.mem_cons] at hb ⊢
      tauto
  simp only [List.mem_append] at hT hin
  obtain ⟨hl, hs, -⟩ := List.isChain_append.1 (show (node :: l₁ ++ f :: s').IsChain _ by
    simpa using h₁)
  have hl' := hkeep.chain hl (by simp +contextual) fun b hb => hT b (.inl (.inl hb))
  have hs' := hkeep.chain hs (fun a ha => hin a (.inl (.inr ha))) fun b hb => hT b (.inl (.inr hb))
  have hZ' := hkeep.chain hZ (fun a ha => hin a (.inr ha)) fun b hb => hT b (.inr hb)
  refine ⟨Ring.glue hl' (hr ▸ hZ') hx hz hxz (h.2.sublist ?_), hs'⟩
  exact ((List.sublist_append_left l₁ _).append_right l₂).cons_cons _

/-- A stretch is put in that is not in the ring. -/
theorem Ring.putIn (h : Ring next prev node (l₁ ++ l₂)) (hs : s.IsChain (Adjacent next' prev'))
    (hx : (node :: l₁).getLast? = some x) (hf : s.head? = some f) (he : s.getLast? = some e)
    (hp : (l₂ ++ [node]).head? = some p) (hnodup : (node :: (l₁ ++ s ++ l₂)).Nodup)
    (hT : ∀ b ∈ T, b = p ∨ b ∉ node :: (l₁ ++ l₂))
    (hkeep : KeepsLinks next prev next' prev' (node :: (l₁ ++ l₂)) T)
    (hxf : Adjacent next' prev' x f) (hep : Adjacent next' prev' e p) :
    Ring next' prev' node (l₁ ++ s ++ l₂) := by
  have hrot := h.nodup_rotate
  obtain ⟨hl, hZ, -⟩ := h.split
  obtain ⟨s', rfl⟩ : ∃ s', s = f :: s' := List.head?_eq_some_iff.1 hf
  obtain ⟨r, hr⟩ : ∃ r, l₂ ++ [node] = p :: r := List.head?_eq_some_iff.1 hp
  have hin : ∀ a ∈ l₁ ++ p :: r, a ∈ node :: (l₁ ++ l₂) := by
    intro a ha
    rw [← hr] at ha
    simp only [List.mem_append, List.mem_cons, List.not_mem_nil, or_false] at ha ⊢
    tauto
  rw [List.append_assoc, hr] at hrot
  rw [hr] at hZ
  have hT : ∀ b ∈ l₁ ++ r, b ∉ T := by
    intro b hb hmem
    rcases hT b hmem with rfl | hout
    · exact head_not_mem hrot hb
    · refine hout (hin b ?_)
      simp only [List.mem_append, List.mem_cons] at hb ⊢
      tauto
  simp only [List.mem_append] at hT hin
  have hl' := hkeep.chain hl (by simp +contextual) fun b hb => hT b (.inl hb)
  have hZ' := hkeep.chain hZ (fun a ha => hin a (.inr ha)) fun b hb => hT b (.inr hb)
  have h₁ : (node :: l₁ ++ f :: s').IsChain (Adjacent next' prev') := isChain_glue hl' hs hx hf hxf
  refine Ring.glue (by simpa using h₁) (hr ▸ hZ') ?_ hp hep hnodup
  rw [← List.cons_append, List.getLast?_append, he, Option.some_or]

end LearningNotes
