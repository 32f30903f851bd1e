import LearningNotes.Threads.Foo

/-!
# The objects and the table

`MemInv m tbl stage` describes a memory by the chains `tbl` of the table and the stage that each
object has reached: an object that is `linked` is on the chain of its id and on no other, and its
count is the number of references to it. There is one lemma for each operation on the memory; they
are shared by the two versions.
-/

namespace LearningNotes.Foo

/-- What has become of an object. -/
inductive Stage where
  | absent
  | made
  | linked
  | unlinked
  deriving DecidableEq, Repr

/-- What can happen to an object next. -/
def Stage.next : Stage → Event → Option Stage
  | .absent, .malloc => some .made
  | .made, .link => some .linked
  | .linked, .unlink => some .unlinked
  | .unlinked, .free => some .absent
  | _, _ => none

/-- The stage that the object at `a` has reached; `none` if something has happened to it out of
order. -/
def life (a : Nat) (log : List (Event × Nat)) : Option Stage :=
  log.foldl (fun st e => if e.2 = a then st.bind (·.next e.1) else st) (some .absent)

variable {m m' : Memory} {tbl tbl' : Nat → List Nat} {stage stage' : Nat → Stage} {a fp t : Nat}
  {log : List (Event × Nat)} {e : Event} {st st' : Stage} {l l₁ l₂ : List Nat}

/-- One event more. -/
theorem life_snoc (hlife : ∀ a, life a log = some (stage a)) (hnext : (stage fp).next e = some st)
    (a : Nat) : life a (log ++ [(e, fp)]) = some (Function.update stage fp st a) := by
  have hsnoc : life a (log ++ [(e, fp)]) =
      if fp = a then (life a log).bind (·.next e) else life a log := by
    simp [life]
  rw [hsnoc, hlife]
  by_cases ha : fp = a
  · subst ha
    simp [hnext]
  · simp [ha, Ne.symm ha]

/-- The table `tbl` and the stage of every object fit the memory, the references and the log. -/
structure MemInv (m : Memory) (tbl : Nat → List Nat) (stage : Nat → Stage) : Prop where
  fault : m.fault = false
  life : ∀ a, life a m.log = some (stage a)
  alloc : ∀ a, m.allocated a = true ↔ stage a ≠ .absent
  chain : ∀ i, Follow m.f_next (m.fh i) (tbl i)
  table : ∀ i a, a ∈ tbl i ↔ stage a = .linked ∧ HASH (m.f_id a) = i
  count : ∀ a, stage a = .linked →
    m.f_count a = outstanding a m.refs ∧ 0 < outstanding a m.refs
  refs : ∀ t a, (t, a) ∈ m.refs → stage a = .linked

theorem start_inv : MemInv .start (fun _ => []) fun _ => .absent where
  fault := rfl
  life _ := rfl
  alloc _ := by simp [Memory.start]
  chain _ := rfl
  table _ _ := by simp
  count _ h := by cases h
  refs _ _ h := by cases h

/-- An object on a chain is in the table. -/
theorem MemInv.linked_of_mem {i : Nat} (h : MemInv m tbl stage) (ha : a ∈ tbl i) :
    stage a = .linked :=
  ((h.table i a).mp ha).1

/-- A new object is not in the table yet. -/
theorem MemInv.malloc (h : MemInv m tbl stage) (ha : m.allocated fp = false) (id : Int) :
    MemInv (m.malloc fp id) tbl (Function.update stage fp .made) := by
  have habs : stage fp = .absent := by
    by_contra hne
    simp [(h.alloc fp).mpr hne] at ha
  refine ⟨h.fault, life_snoc h.life (by rw [habs]; rfl), fun a => ?_, h.chain, fun i a => ?_,
    fun a ha => ?_, fun t a hr => ?_⟩ <;> by_cases hfp : a = fp
  · subst hfp
    simp [Memory.malloc]
  · simpa [Memory.malloc, hfp] using h.alloc a
  · subst hfp
    simp [h.table, habs]
  · simpa [Memory.malloc, hfp] using h.table i a
  · subst hfp
    simp at ha
  · rw [Function.update_of_ne hfp] at ha
    simpa [Memory.malloc, hfp] using h.count a ha
  · subst hfp
    have := h.refs t a hr
    rw [habs] at this
    cases this
  · rw [Function.update_of_ne hfp]
    exact h.refs t a hr

/-- No reference to an object that is not linked. -/
theorem MemInv.no_refs (h : MemInv m tbl stage) (ha : stage a ≠ .linked) :
    outstanding a m.refs = 0 :=
  outstanding_eq_zero.mpr fun t hr => ha (h.refs t a hr)

/-- An object comes to the front of its chain. -/
theorem MemInv.link (h : MemInv m tbl stage) (hst : stage fp = .made) (hc : m.f_count fp = 1)
    (t : Nat) :
    MemInv (m.link t fp)
      (Function.update tbl (HASH (m.f_id fp)) (fp :: tbl (HASH (m.f_id fp))))
      (Function.update stage fp .linked) := by
  -- an object that has just been made is in no chain
  have hnot : ∀ i, fp ∉ tbl i := by
    intro i hmem
    have := h.linked_of_mem hmem
    rw [hst] at this
    cases this
  refine ⟨h.fault, life_snoc h.life (by rw [hst]; rfl), fun a => ?_, fun i => ?_, fun i a => ?_,
    fun a ha => ?_, fun t' a hr => ?_⟩
  · by_cases hfp : a = fp
    · subst hfp
      simp [Memory.link, (h.alloc a).mpr (by simp [hst])]
    · simpa [Memory.link, hfp] using h.alloc a
  · by_cases hi : i = HASH (m.f_id fp)
    · subst hi
      simpa [Memory.link] using (h.chain _).push (hnot _)
    · simp only [Memory.link, Function.update_of_ne hi]
      exact (h.chain i).congr fun b hb => Function.update_of_ne (ne_of_mem_of_not_mem hb (hnot i)) ..
  · by_cases hfp : a = fp
    · subst hfp
      by_cases hi : i = HASH (m.f_id a)
      · subst hi
        simp [Memory.link]
      · simp [Memory.link, hi, hnot, Ne.symm hi]
    · by_cases hi : i = HASH (m.f_id fp)
      · subst hi
        simp [Memory.link, hfp, h.table]
      · simp [Memory.link, hfp, hi, h.table]
  · by_cases hfp : a = fp
    · subst hfp
      have hout := h.no_refs (a := a) (by simp [hst])
      simp [Memory.link, outstanding_cons, hout, hc]
    · rw [Function.update_of_ne hfp] at ha
      simpa [Memory.link, outstanding_cons_ne t (Ne.symm hfp)] using h.count a ha
  · rcases List.mem_cons.mp hr with hr | hr
    · cases hr
      simp
    · by_cases hfp : a = fp
      · subst hfp
        simp
      · rw [Function.update_of_ne hfp]
        exact h.refs t' a hr

/-- A reference more. -/
theorem MemInv.incr (h : MemInv m tbl stage) (hst : stage fp = .linked) (t : Nat) :
    MemInv (m.incr t fp) tbl stage := by
  refine ⟨h.fault, h.life, h.alloc, h.chain, h.table, fun a ha => ?_, fun t' a hr => ?_⟩
  · have hcount := h.count a ha
    by_cases hfp : a = fp
    · subst hfp
      simp only [Memory.incr, Function.update_self, outstanding_cons]
      omega
    · simpa [Memory.incr, hfp, outstanding_cons_ne t (Ne.symm hfp)] using hcount
  · rcases List.mem_cons.mp hr with hr | hr
    · cases hr
      exact hst
    · exact h.refs t' a hr

/-- A reference less, and others are left. -/
theorem MemInv.decr (h : MemInv m tbl stage) (hr : (t, fp) ∈ m.refs) (hc : m.f_count fp ≠ 1) :
    MemInv (m.decr t fp) tbl stage := by
  refine ⟨h.fault, h.life, h.alloc, h.chain, h.table, fun a ha => ?_, fun t' a hr' => ?_⟩
  · have hcount := h.count a ha
    by_cases hfp : a = fp
    · subst hfp
      have herase := outstanding_erase hr
      simp only [Memory.decr, Function.update_self]
      omega
    · simpa [Memory.decr, hfp, outstanding_erase_ne t (Ne.symm hfp)] using hcount
  · exact h.refs t' a (List.mem_of_mem_erase hr')

/-- An object whose last reference is given up goes off its chain. -/
theorem MemInv.unlinked (h : MemInv m tbl stage) (hr : (t, fp) ∈ m.refs)
    (hone : outstanding fp m.refs = 1) {f_next : Nat → Option Nat} {fh : Nat → Option Nat}
    (hchain : ∀ i, Follow f_next (fh i) (tbl' i))
    (htbl : ∀ i a, a ∈ tbl' i ↔ a ∈ tbl i ∧ a ≠ fp) :
    MemInv { m with
      f_next := f_next, fh := fh
      refs := m.refs.erase (t, fp)
      log := m.log ++ [(.unlink, fp)] } tbl' (Function.update stage fp .unlinked) := by
  have hst := h.refs t fp hr
  refine ⟨h.fault, life_snoc h.life (by rw [hst]; rfl), fun a => ?_, hchain, fun i a => ?_,
    fun a ha => ?_, fun t' a hr' => ?_⟩ <;> by_cases hfp : a = fp
  · subst hfp
    simp [(h.alloc a).mpr (by simp [hst])]
  · simpa [hfp] using h.alloc a
  · subst hfp
    simp [htbl]
  · simp [htbl, hfp, h.table]
  · subst hfp
    simp at ha
  · rw [Function.update_of_ne hfp] at ha
    simpa [outstanding_erase_ne t (Ne.symm hfp)] using h.count a ha
  · subst hfp
    have herase := outstanding_erase hr
    have hpos : 0 < outstanding a (m.refs.erase (t, a)) := outstanding_pos hr'
    omega
  · rw [Function.update_of_ne hfp]
    exact h.refs t' a (List.mem_of_mem_erase hr')

/-- The first object of a chain is taken off, with its last reference. -/
theorem MemInv.unlinkFirst (h : MemInv m tbl stage) (hr : (t, fp) ∈ m.refs)
    (hone : outstanding fp m.refs = 1) (hl : tbl (HASH (m.f_id fp)) = fp :: l) :
    MemInv ((m.unlinkFirst fp).giveUp t fp) (Function.update tbl (HASH (m.f_id fp)) l)
      (Function.update stage fp .unlinked) := by
  have hchain := h.chain (HASH (m.f_id fp))
  have hnodup := hchain.nodup
  rw [hl] at hchain hnodup
  refine h.unlinked hr hone (fun i => ?_) fun i a => ?_ <;> by_cases hi : i = HASH (m.f_id fp)
  · subst hi
    simp only [Memory.unlinkFirst, Function.update_self]
    exact hchain.2
  · simp only [Memory.unlinkFirst, Function.update_of_ne hi]
    exact h.chain i
  · subst hi
    rw [Function.update_self, hl]
    have := (List.nodup_cons.mp hnodup).1
    constructor
    · intro ha
      exact ⟨.tail _ ha, fun he => this (he ▸ ha)⟩
    · rintro ⟨ha, hne⟩
      exact (List.mem_cons.mp ha).resolve_left hne
  · rw [Function.update_of_ne hi]
    refine ⟨fun ha => ⟨ha, fun he => hi ?_⟩, And.left⟩
    subst he
    exact ((h.table i a).mp ha).2.symm

/-- An object behind another one is taken off, with its last reference. -/
theorem MemInv.unlinkNext {tfp : Nat} (h : MemInv m tbl stage) (hr : (t, fp) ∈ m.refs)
    (hone : outstanding fp m.refs = 1) (hl : tbl (HASH (m.f_id fp)) = l₁ ++ tfp :: fp :: l₂) :
    MemInv ((m.unlinkNext tfp fp).giveUp t fp)
      (Function.update tbl (HASH (m.f_id fp)) (l₁ ++ tfp :: l₂))
      (Function.update stage fp .unlinked) := by
  have hchain := h.chain (HASH (m.f_id fp))
  have hnodup := hchain.nodup
  rw [hl] at hchain hnodup
  have htfp : tfp ∈ tbl (HASH (m.f_id fp)) := by simp [hl]
  refine h.unlinked hr hone (fun i => ?_) fun i a => ?_ <;> by_cases hi : i = HASH (m.f_id fp)
  · subst hi
    rw [Function.update_self]
    exact hchain.unlink
  · rw [Function.update_of_ne hi]
    refine (h.chain i).congr fun b hb => Function.update_of_ne (fun he => hi ?_) ..
    subst he
    exact ((h.table i b).mp hb).2.symm.trans ((h.table _ b).mp htfp).2
  · subst hi
    rw [Function.update_self, hl]
    constructor
    · refine fun ha => ⟨?_, ?_⟩
      · simp only [List.mem_append, List.mem_cons] at ha ⊢
        tauto
      · rintro rfl
        simp only [List.nodup_append, List.nodup_cons, List.mem_append, List.mem_cons] at hnodup ha
        grind
    · rintro ⟨ha, hne⟩
      simp only [List.mem_append, List.mem_cons] at ha ⊢
      tauto
  · rw [Function.update_of_ne hi]
    refine ⟨fun ha => ⟨ha, fun he => hi ?_⟩, And.left⟩
    subst he
    exact ((h.table i a).mp ha).2.symm

/-- An object that is not in the table any more is freed. -/
theorem MemInv.free (h : MemInv m tbl stage) (hst : stage fp = .unlinked) :
    MemInv (m.free fp) tbl (Function.update stage fp .absent) := by
  refine ⟨h.fault, life_snoc h.life (by rw [hst]; rfl), fun a => ?_, h.chain, fun i a => ?_,
    fun a ha => ?_, fun t a hr => ?_⟩ <;> by_cases hfp : a = fp
  · subst hfp
    simp [Memory.free]
  · simpa [Memory.free, hfp] using h.alloc a
  · subst hfp
    simp [h.table, hst]
  · simpa [Memory.free, hfp] using h.table i a
  · subst hfp
    simp at ha
  · rw [Function.update_of_ne hfp] at ha
    exact h.count a ha
  · subst hfp
    have := h.refs t a hr
    rw [hst] at this
    cases this
  · rw [Function.update_of_ne hfp]
    exact h.refs t a hr

end LearningNotes.Foo
