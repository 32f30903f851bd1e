import LearningNotes.Threads.FooTable

/-!
# The threads of `mutex2.c`

What is known of a thread at each point (`At`): what it has read of the table is still so as long as
it has `hashlock`, and an object that it uses is one to which it holds a reference, or that nobody
else knows. A thread that has found the count to be 1 and waits for `hashlock` still holds its
reference, so the object stays; what the others do meanwhile is why it looks again.

`act2_inv` has a case for each step; a step of another thread leaves `At` alone (`At.frame`).
-/

namespace LearningNotes.Foo

/-- The object that only this thread knows: not yet in the table, or not any more. -/
def Pc2.owns : Pc2 → Option Nat
  | .alloc1 fp => some fp
  | .alloc2 fp => some fp
  | .rele8 fp => some fp
  | .rele9 fp => some fp
  | .rele10 fp => some fp
  | _ => none

/-- The object that the thread uses, obtains or releases. -/
def Pc2.uses : Pc2 → Option Nat
  | .alloc3 fp => some fp
  | .alloc4 fp => some fp
  | .hold1 fp => some fp
  | .hold2 fp => some fp
  | .find3 _ fp => some fp
  | .find4 _ fp => some fp
  | .rele1 fp => some fp
  | .rele2 fp => some fp
  | .rele3 fp => some fp
  | .rele4 fp => some fp
  | .rele5 fp => some fp
  | .rele7 fp _ => some fp
  | _ => none

/-- The thread has `hashlock`. -/
def Pc2.hash : Pc2 → Bool
  | .alloc2 _ => true
  | .alloc3 _ => true
  | .find2 _ _ => true
  | .find3 _ _ => true
  | .find4 _ _ => true
  | .find5 => true
  | .rele4 _ => true
  | .rele5 _ => true
  | .rele6 => true
  | .rele7 _ _ => true
  | .rele8 _ => true
  | _ => false

/-- Where the thread of `mutex3.c` stands meanwhile. -/
def Pc2.abs : Pc2 → Pc3
  | .idle => .idle
  | .alloc1 fp => .alloc1 fp
  | .alloc2 fp => .alloc1 fp
  | .alloc3 _ => .idle
  | .alloc4 _ => .idle
  | .hold1 fp => .hold1 fp
  | .hold2 fp => .hold1 fp
  | .find1 id => .find1 id
  | .find2 id _ => .find1 id
  | .find3 id _ => .find1 id
  | .find4 id _ => .find1 id
  | .find5 => .idle
  | .rele1 fp => .rele1 fp
  | .rele2 fp => .rele1 fp
  | .rele3 fp => .rele1 fp
  | .rele4 fp => .rele1 fp
  | .rele5 fp => .rele1 fp
  | .rele6 => .idle
  | .rele7 fp _ => .rele1 fp
  | .rele8 fp => .rele5 fp
  | .rele9 fp => .rele5 fp
  | .rele10 fp => .rele5 fp

/-- Looking for `id` along a chain, `l` is left. -/
def Searching (m : Memory) (tbl : Nat → List Nat) (id : Int) (l : List Nat) : Prop :=
  ∃ l₁, tbl (HASH id) = l₁ ++ l ∧ ∀ a ∈ l₁, m.f_id a ≠ id

/-- What is known when thread `t` stands at a point. -/
def At (m : Memory) (tbl : Nat → List Nat) (stage : Nat → Stage) (t : Nat) : Pc2 → Prop
  | .idle => True
  | .alloc1 fp => stage fp = .made ∧ m.f_count fp = 1
  | .alloc2 fp => stage fp = .made ∧ m.f_count fp = 1
  | .alloc3 fp => (t, fp) ∈ m.refs
  | .alloc4 fp => (t, fp) ∈ m.refs
  | .hold1 fp => (t, fp) ∈ m.refs
  | .hold2 fp => (t, fp) ∈ m.refs
  | .find1 _ => True
  | .find2 id fp => ∃ l, fp = l.head? ∧ Searching m tbl id l
  | .find3 id fp => m.f_id fp = id ∧ ∃ l, Searching m tbl id (fp :: l)
  | .find4 id fp => m.f_id fp = id ∧ ∃ l, Searching m tbl id (fp :: l)
  | .find5 => True
  | .rele1 fp => (t, fp) ∈ m.refs
  | .rele2 fp => (t, fp) ∈ m.refs
  | .rele3 fp => (t, fp) ∈ m.refs
  | .rele4 fp => (t, fp) ∈ m.refs
  | .rele5 fp => (t, fp) ∈ m.refs
  | .rele6 => True
  | .rele7 fp tfp => (t, fp) ∈ m.refs ∧ outstanding fp m.refs = 1 ∧
      ∃ l₁ b l₂, tfp = some b ∧ tbl (HASH (m.f_id fp)) = l₁ ++ b :: l₂ ∧ fp ∈ l₂
  | .rele8 fp => stage fp = .unlinked
  | .rele9 fp => stage fp = .unlinked
  | .rele10 fp => stage fp = .unlinked

/-- What holds between two steps: where each object is, and what each thread knows of it. -/
structure Inv2 (s : State Pc2) (tbl : Nat → List Nat) (stage : Nat → Stage) : Prop where
  mem : MemInv s.toMemory tbl stage
  hash : ∀ t, (s.thread t).hash = true → s.hashlock = some t
  owner : ∀ t t' a, (s.thread t).owns = some a → (s.thread t').owns = some a → t = t'
  at_ : ∀ t, At s.toMemory tbl stage t (s.thread t)

variable {m m' : Memory} {tbl tbl' : Nat → List Nat} {stage stage' : Nat → Stage}
  {t t' fp a : Nat} {pc : Pc2} {s s' : State Pc2} {id : Int} {l : List Nat}

/-- An object that a thread owns is not in the table. -/
theorem At.owns (h : At m tbl stage t pc) (ho : pc.owns = some a) :
    stage a = .made ∨ stage a = .unlinked := by
  cases pc <;> cases ho
  · exact .inl h.1
  · exact .inl h.1
  · exact .inr h
  · exact .inr h
  · exact .inr h

/-- A search looks at the chain and the ids only. -/
theorem Searching.congr (h : Searching m tbl id l) (htbl : tbl' = tbl)
    (hid : ∀ i, ∀ a ∈ tbl i, m'.f_id a = m.f_id a) : Searching m' tbl' id l := by
  obtain ⟨l₁, hl, hne⟩ := h
  refine ⟨l₁, by rw [htbl, hl], fun a ha => ?_⟩
  rw [hid (HASH id) a (by rw [hl]; exact List.mem_append_left _ ha)]
  exact hne a ha

/-- A step of another thread: the references and the own object of this one stay as they are, and
so do the table, if it has `hashlock`, and the object that it is about to unlink. -/
theorem At.frame (h : At m tbl stage t pc) (hrefs : ∀ a, (t, a) ∈ m.refs → (t, a) ∈ m'.refs)
    (hown : ∀ a, pc.owns = some a → stage' a = stage a ∧ m'.f_count a = m.f_count a)
    (htbl : pc.hash = true → tbl' = tbl ∧ ∀ i, ∀ a ∈ tbl i, m'.f_id a = m.f_id a)
    (hone : ∀ fp, outstanding fp m.refs = 1 → (t, fp) ∈ m.refs → pc.hash = true →
      outstanding fp m'.refs = 1) : At m' tbl' stage' t pc := by
  cases pc with
  | alloc1 fp => exact ⟨(hown fp rfl).1.trans h.1, (hown fp rfl).2.trans h.2⟩
  | alloc2 fp => exact ⟨(hown fp rfl).1.trans h.1, (hown fp rfl).2.trans h.2⟩
  | rele8 fp => exact (hown fp rfl).1.trans h
  | rele9 fp => exact (hown fp rfl).1.trans h
  | rele10 fp => exact (hown fp rfl).1.trans h
  | find2 id fp =>
    obtain ⟨l, hfp, hl⟩ := h
    obtain ⟨htbl, hid⟩ := htbl rfl
    exact ⟨l, hfp, hl.congr htbl hid⟩
  | find3 id fp =>
    obtain ⟨hfp, l, hl⟩ := h
    obtain ⟨htbl, hid⟩ := htbl rfl
    have hmem : fp ∈ tbl (HASH id) := by
      obtain ⟨l₁, hl, -⟩ := hl
      simp [hl]
    exact ⟨(hid _ fp hmem).trans hfp, l, hl.congr htbl hid⟩
  | find4 id fp =>
    obtain ⟨hfp, l, hl⟩ := h
    obtain ⟨htbl, hid⟩ := htbl rfl
    have hmem : fp ∈ tbl (HASH id) := by
      obtain ⟨l₁, hl, -⟩ := hl
      simp [hl]
    exact ⟨(hid _ fp hmem).trans hfp, l, hl.congr htbl hid⟩
  | rele7 fp tfp =>
    obtain ⟨hr, ho, l₁, b, l₂, rfl, hl, hfp⟩ := h
    obtain ⟨htbl, hid⟩ := htbl rfl
    refine ⟨hrefs fp hr, hone fp ho hr rfl, l₁, b, l₂, rfl, ?_, hfp⟩
    rw [hid (HASH (m.f_id fp)) fp (by simp [hl, hfp]), htbl]
    exact hl
  | alloc3 fp => exact hrefs fp h
  | alloc4 fp => exact hrefs fp h
  | hold1 fp => exact hrefs fp h
  | hold2 fp => exact hrefs fp h
  | rele1 fp => exact hrefs fp h
  | rele2 fp => exact hrefs fp h
  | rele3 fp => exact hrefs fp h
  | rele4 fp => exact hrefs fp h
  | rele5 fp => exact hrefs fp h
  | idle => trivial
  | find1 id => trivial
  | find5 => trivial
  | rele6 => trivial

/-! ## What a step has to show -/

/-- A step of thread `t` to `pc`. -/
theorem Inv2.step {f_lock : Nat → Option Nat} {hashlock : Option Nat} (h : Inv2 s tbl stage)
    (hm : MemInv m' tbl' stage') (hat : At m' tbl' stage' t pc)
    (hlock : ∀ t', t' ≠ t → s.hashlock = some t' → hashlock = some t')
    (hheld : pc.hash = true → hashlock = some t)
    (howner : ∀ a, pc.owns = some a →
      (s.thread t).owns = some a ∨ stage a = .absent ∨ stage a = .linked)
    (hframe : ∀ t', t' ≠ t → At m' tbl' stage' t' (s.thread t')) :
    Inv2 ⟨m', f_lock, hashlock, Function.update s.thread t pc⟩ tbl' stage' := by
  -- an object that `t` gets hold of is nobody else's
  have hnew : ∀ t' a, t' ≠ t → pc.owns = some a → (s.thread t').owns ≠ some a := by
    intro t' a ht ha ha'
    rcases howner a ha with ho | ho | ho
    · exact ht (h.owner t' t a ha' ho)
    · rcases (h.at_ t').owns ha' with hs | hs <;> rw [hs] at ho <;> cases ho
    · rcases (h.at_ t').owns ha' with hs | hs <;> rw [hs] at ho <;> cases ho
  refine ⟨hm, fun t' hh => ?_, fun t₁ t₂ a h₁ h₂ => ?_, fun t' => ?_⟩
  · dsimp only at hh ⊢
    by_cases ht : t' = t
    · subst ht
      rw [Function.update_self] at hh
      exact hheld hh
    · rw [Function.update_of_ne ht] at hh
      exact hlock t' ht (h.hash t' hh)
  · dsimp only at h₁ h₂
    by_cases ht₁ : t₁ = t <;> by_cases ht₂ : t₂ = t
    · rw [ht₁, ht₂]
    · subst ht₁
      rw [Function.update_self] at h₁
      rw [Function.update_of_ne ht₂] at h₂
      exact absurd h₂ (hnew t₂ a ht₂ h₁)
    · subst ht₂
      rw [Function.update_of_ne ht₁] at h₁
      rw [Function.update_self] at h₂
      exact absurd h₁ (hnew t₁ a ht₁ h₂)
    · rw [Function.update_of_ne ht₁] at h₁
      rw [Function.update_of_ne ht₂] at h₂
      exact h.owner t₁ t₂ a h₁ h₂
  · dsimp only
    by_cases ht : t' = t
    · subst ht
      rw [Function.update_self]
      exact hat
    · rw [Function.update_of_ne ht]
      exact hframe t' ht

/-- A step that leaves the memory as it is. -/
theorem Inv2.move {f_lock : Nat → Option Nat} {hashlock : Option Nat} (h : Inv2 s tbl stage)
    (hat : At s.toMemory tbl stage t pc)
    (hlock : ∀ t', t' ≠ t → s.hashlock = some t' → hashlock = some t')
    (hheld : pc.hash = true → hashlock = some t)
    (howner : pc.owns = none ∨ pc.owns = (s.thread t).owns) :
    Inv2 ⟨s.toMemory, f_lock, hashlock, Function.update s.thread t pc⟩ tbl stage := by
  refine h.step h.mem hat hlock hheld (fun a ha => ?_) fun t' _ => h.at_ t'
  rcases howner with ho | ho
  · rw [ho] at ha
    cases ha
  · exact .inl (ho ▸ ha)

/-- `hashlock` is somebody else's only when `t` does not have it. -/
theorem Inv2.hash_ne (h : Inv2 s tbl stage) (ht : (s.thread t).hash = true) (hne : t' ≠ t) :
    s.hashlock ≠ some t' := by
  rw [h.hash t ht]
  intro he
  exact hne (Option.some.inj he).symm

/-! ## The operations -/

section Ops

variable {Pc : Type} {u u' next' : State Pc} {next : State Pc → State Pc}

/-- An object that has not been freed may be accessed. -/
theorem access_eq (h : u.allocated fp = true) : u.access fp u' = u' := if_pos h

/-- The lock of the table was free. -/
theorem of_lockHash (h : u.lockHash t next = some u') :
    u.hashlock = none ∧ u' = next { u with hashlock := some t } := by
  unfold State.lockHash at h
  split at h
  next hn => exact ⟨hn, (Option.some.inj h).symm⟩
  next => cases h

/-- The lock of the object was free. -/
theorem of_lock (ha : u.allocated fp = true) (h : u.lock t fp next = some u') :
    u' = next { u with f_lock := Function.update u.f_lock fp (some t) } := by
  unfold State.lock at h
  split at h
  · cases h
  · rw [access_eq ha] at h
    exact (Option.some.inj h).symm

/-- One more reference. -/
theorem hold_eq (ha : u.allocated fp = true) (hlt : u.f_count fp < (INT_MAX : Int)) :
    u.hold t fp next = next (u.on (u.incr t fp)) := by
  rw [State.hold, access_eq ha, if_pos hlt]

/-- One reference too many. -/
theorem hold_overflow (ha : u.allocated fp = true) (hle : (INT_MAX : Int) ≤ u.f_count fp) :
    u.hold t fp next = u.crash := by
  rw [State.hold, access_eq ha, if_neg (Int.not_lt.mpr hle)]

end Ops

/-! ## One step -/

/-- An object with a reference has not been freed. -/
theorem MemInv.allocated (h : MemInv m tbl stage) (hr : (t, fp) ∈ m.refs) :
    m.allocated fp = true :=
  (h.alloc fp).mpr (by simp [h.refs t fp hr])

/-- The count of an object in the table is the number of its references. -/
theorem MemInv.count_lt (h : MemInv m tbl stage) (hst : stage fp = .linked)
    (hlt : outstanding fp m.refs < INT_MAX) : m.f_count fp < (INT_MAX : Int) := by
  rw [(h.count fp hst).1]
  exact Int.ofNat_lt.mpr hlt

/-- Nor has an object of the table. -/
theorem MemInv.allocated_mem {i : Nat} (h : MemInv m tbl stage) (ha : a ∈ tbl i) :
    m.allocated a = true :=
  (h.alloc a).mpr (by simp [h.linked_of_mem ha])

/-- `t` gets a reference, with `hashlock` or having one already. -/
theorem Inv2.incr {f_lock : Nat → Option Nat} (h : Inv2 s tbl stage) (hst : stage fp = .linked)
    (hpc : (s.thread t).hash = true ∧ pc = .find5 ∨
      (∃ fp', (t, fp) ∈ s.refs ∧ s.thread t = .hold2 fp') ∧ pc = .idle) :
    Inv2 ⟨s.incr t fp, f_lock, s.hashlock, Function.update s.thread t pc⟩ tbl stage := by
  refine h.step (h.mem.incr hst t) ?_ (fun _ _ he => he) ?_ ?_ fun t' ht => ?_
  · rcases hpc with ⟨-, rfl⟩ | ⟨-, rfl⟩ <;> trivial
  · rcases hpc with ⟨hh, rfl⟩ | ⟨-, rfl⟩
    · intro _
      exact h.hash t hh
    · intro he
      cases he
  · rcases hpc with ⟨-, rfl⟩ | ⟨-, rfl⟩ <;> exact fun a ha => by cases ha
  · refine (h.at_ t').frame (fun a hr => .tail _ hr) (fun a ho => ⟨rfl, ?_⟩)
      (fun _ => ⟨rfl, fun _ _ _ => rfl⟩) fun fp' hone hr hh => ?_
    · -- an object of its own is not linked
      refine Function.update_of_ne (fun he => ?_) ..
      subst he
      rcases (h.at_ t').owns ho with hs | hs <;> rw [hst] at hs <;> cases hs
    · by_cases he : fp = fp'
      · subst he
        rcases hpc with ⟨hh', -⟩ | ⟨⟨-, hr', -⟩, -⟩
        · exact absurd (h.hash t' hh) (h.hash_ne hh' ht)
        · exact absurd (eq_of_outstanding_one hone hr hr').symm ht
      · rw [show (s.incr t fp).refs = (t, fp) :: s.refs from rfl, outstanding_cons_ne t he]
        exact hone

/-- `t` gives up a reference that is not the last one. -/
theorem Inv2.decr {f_lock : Nat → Option Nat} (h : Inv2 s tbl stage) (hr : (t, fp) ∈ s.refs)
    (hc : s.f_count fp ≠ 1) (hat : At (s.decr t fp) tbl stage t pc)
    (hheld : pc.hash = true → (s.thread t).hash = true) (hown : pc.owns = none) :
    Inv2 ⟨s.decr t fp, f_lock, s.hashlock, Function.update s.thread t pc⟩ tbl stage := by
  refine h.step (h.mem.decr hr hc) hat (fun _ _ he => he) (fun hh => h.hash t (hheld hh))
    (fun a ha => by rw [hown] at ha; cases ha) fun t' ht => ?_
  have hst := h.mem.refs t fp hr
  refine (h.at_ t').frame (fun a hr' => ?_) (fun a ho => ⟨rfl, ?_⟩)
    (fun _ => ⟨rfl, fun _ _ _ => rfl⟩) fun fp' hone hr' hh => ?_
  · exact (List.mem_erase_of_ne (by simp [ht])).mpr hr'
  · refine Function.update_of_ne (fun he => ?_) ..
    subst he
    rcases (h.at_ t').owns ho with hs | hs <;> rw [hst] at hs <;> cases hs
  · by_cases he : fp = fp'
    · subst he
      exact absurd (eq_of_outstanding_one hone hr hr') ht
    · rw [show (s.decr t fp).refs = s.refs.erase (t, fp) from rfl, outstanding_erase_ne t he]
      exact hone

/-- `t` has taken the object off its chain. -/
theorem Inv2.unlinked {f_lock : Nat → Option Nat} (h : Inv2 s tbl stage)
    (hr : (t, fp) ∈ s.refs) (hh : (s.thread t).hash = true)
    (hm : MemInv m' tbl' (Function.update stage fp .unlinked))
    (hrefs : m'.refs = s.refs.erase (t, fp)) (hcount : m'.f_count = s.f_count) :
    Inv2 ⟨m', f_lock, s.hashlock, Function.update s.thread t (.rele8 fp)⟩ tbl'
      (Function.update stage fp .unlinked) := by
  have hst := h.mem.refs t fp hr
  refine h.step hm (Function.update_self ..) (fun _ _ he => he) (fun _ => h.hash t hh)
    (fun a ha => ?_) fun t' ht => ?_
  · cases ha
    exact .inr (.inr hst)
  · -- the table is only known to the one that has `hashlock`
    have hno : ∀ {P : Prop}, (s.thread t').hash = true → P := by
      intro P hh'
      exact absurd (h.hash t' hh') (h.hash_ne hh ht)
    refine (h.at_ t').frame (fun a hr' => ?_) (fun a ho => ⟨?_, by rw [hcount]⟩) (fun hh' => hno hh')
      fun _ _ _ hh' => hno hh'
    · rw [hrefs]
      exact (List.mem_erase_of_ne (by simp [ht])).mpr hr'
    · refine Function.update_of_ne (fun he => ?_) ..
      subst he
      rcases (h.at_ t').owns ho with hs | hs <;> rw [hst] at hs <;> cases hs

/-- A new object, which only its creator knows. -/
theorem Inv2.alloc (h : Inv2 s tbl stage) (ha : s.allocated fp = false) (id : Int) :
    Inv2 ((s.create fp id).goto t (.alloc1 fp)) tbl (Function.update stage fp .made) := by
  have hst : stage fp = .absent := by
    by_contra hne
    simp [(h.mem.alloc fp).mpr hne] at ha
  refine h.step (h.mem.malloc ha id) ⟨Function.update_self .., Function.update_self ..⟩
    (fun _ _ he => he) (fun he => by cases he) (fun a ho => ?_) fun t' ht => ?_
  · cases ho
    exact .inr (.inl hst)
  · refine (h.at_ t').frame (fun a hr => hr) (fun a ho => ?_) (fun _ => ⟨rfl, fun i a hmem => ?_⟩)
      fun _ hone _ _ => hone
    · have hne : a ≠ fp := by
        intro he
        subst he
        rcases (h.at_ t').owns ho with hs | hs <;> rw [hst] at hs <;> cases hs
      exact ⟨Function.update_of_ne hne .., Function.update_of_ne hne ..⟩
    · refine Function.update_of_ne (fun he => ?_) ..
      subst he
      have := h.mem.linked_of_mem hmem
      rw [hst] at this
      cases this

/-- The object goes into the table. -/
theorem Inv2.link {f_lock : Nat → Option Nat} (h : Inv2 s tbl stage)
    (hpc : s.thread t = .alloc2 fp) :
    ∃ tbl' stage', Inv2 ⟨s.link t fp, f_lock, s.hashlock,
      Function.update s.thread t (.alloc3 fp)⟩ tbl' stage' := by
  have hat := h.at_ t
  rw [hpc] at hat
  have hh : (s.thread t).hash = true := by rw [hpc]; rfl
  refine ⟨_, _, h.step (h.mem.link hat.1 hat.2 t) (List.mem_cons_self ..) (fun _ _ he => he)
    (fun _ => h.hash t hh) (fun a ha => by cases ha) fun t' ht => ?_⟩
  have hno : ∀ {P : Prop}, (s.thread t').hash = true → P := by
    intro P hh'
    exact absurd (h.hash t' hh') (h.hash_ne hh ht)
  refine (h.at_ t').frame (fun a hr => .tail _ hr) (fun a ho => ⟨?_, rfl⟩) (fun hh' => hno hh')
    fun _ _ _ hh' => hno hh'
  refine Function.update_of_ne (fun he => ?_) ..
  subst he
  exact ht (h.owner t' t a ho (by rw [hpc]; rfl))

/-- The object is freed. -/
theorem Inv2.free {f_lock : Nat → Option Nat} (h : Inv2 s tbl stage)
    (hpc : s.thread t = .rele10 fp) :
    ∃ stage', Inv2 ⟨s.free fp, f_lock, s.hashlock, Function.update s.thread t .idle⟩ tbl stage' := by
  have hat := h.at_ t
  rw [hpc] at hat
  refine ⟨_, h.step (h.mem.free hat) trivial (fun _ _ he => he) (fun he => by cases he)
    (fun a ha => by cases ha) fun t' ht => ?_⟩
  refine (h.at_ t').frame (fun a hr => hr) (fun a ho => ⟨?_, rfl⟩) (fun _ => ⟨rfl, fun _ _ _ => rfl⟩)
    fun _ hone _ _ => hone
  refine Function.update_of_ne (fun he => ?_) ..
  subst he
  exact ht (h.owner t' t a ho (by rw [hpc]; rfl))

/-- One round of the loop of `foo_find`. -/
theorem Searching.next (h : MemInv m tbl stage) (hl : Searching m tbl id (fp :: l))
    (hne : m.f_id fp ≠ id) : m.f_next fp = l.head? ∧ Searching m tbl id l := by
  obtain ⟨l₁, htbl, hid⟩ := hl
  have hchain := h.chain (HASH id)
  rw [htbl] at hchain
  refine ⟨hchain.next_eq, l₁ ++ [fp], by simp [htbl], fun a ha => ?_⟩
  rcases List.mem_append.mp ha with ha | ha
  · exact hid a ha
  · rw [List.mem_singleton.mp ha]
    exact hne

/-- What a search points at is in the chain. -/
theorem Searching.mem (hl : Searching m tbl id (fp :: l)) : fp ∈ tbl (HASH id) := by
  obtain ⟨l₁, htbl, -⟩ := hl
  simp [htbl]

/-- At the recheck: the object is the first one of its chain, or behind another one. -/
theorem MemInv.first_or (h : MemInv m tbl stage) (hst : stage fp = .linked) :
    (m.fh (HASH (m.f_id fp)) = some fp ∧ ∃ l, tbl (HASH (m.f_id fp)) = fp :: l) ∨
    m.fh (HASH (m.f_id fp)) ≠ some fp ∧ ∃ b l, m.fh (HASH (m.f_id fp)) = some b ∧
      tbl (HASH (m.f_id fp)) = b :: l ∧ fp ∈ l := by
  have hmem : fp ∈ tbl (HASH (m.f_id fp)) := (h.table _ fp).mpr ⟨hst, rfl⟩
  have hhead := (h.chain (HASH (m.f_id fp))).head
  cases hl : tbl (HASH (m.f_id fp)) with
  | nil => simp [hl] at hmem
  | cons b l =>
    rw [hl] at hmem hhead
    by_cases hb : b = fp
    · subst hb
      exact .inl ⟨hhead, l, rfl⟩
    · refine .inr ⟨?_, b, l, hhead, rfl, ?_⟩
      · rw [hhead]
        simpa using hb
      · exact (List.mem_cons.mp hmem).resolve_left (Ne.symm hb)

/-- What a step of thread `t` does. -/
inductive Step2 (s : State Pc2) (tbl : Nat → List Nat) (stage : Nat → Stage) (t : Nat) :
    State Pc2 → Prop where
  /-- It goes on, and takes or gives back locks. -/
  | move {pc : Pc2} {f_lock : Nat → Option Nat} {hashlock : Option Nat}
      (hat : At s.toMemory tbl stage t pc)
      (hlock : ∀ t', t' ≠ t → s.hashlock = some t' → hashlock = some t')
      (hheld : pc.hash = true → hashlock = some t)
      (howner : pc.owns = none ∨ pc.owns = (s.thread t).owns)
      (habs : pc.abs = (s.thread t).abs ∨ ∃ id, s.thread t = .find2 id none ∧ pc = .idle) :
      Step2 s tbl stage t ⟨s.toMemory, f_lock, hashlock, Function.update s.thread t pc⟩
  | link {fp : Nat} {f_lock : Nat → Option Nat} (hpc : s.thread t = .alloc2 fp) :
      Step2 s tbl stage t
        ⟨s.link t fp, f_lock, s.hashlock, Function.update s.thread t (.alloc3 fp)⟩
  | incr {fp : Nat} {pc : Pc2} {f_lock : Nat → Option Nat} (hst : stage fp = .linked)
      (hlt : s.f_count fp < (INT_MAX : Int))
      (hpc : s.thread t = .hold2 fp ∧ pc = .idle ∨ ∃ id, s.thread t = .find4 id fp ∧ pc = .find5) :
      Step2 s tbl stage t ⟨s.incr t fp, f_lock, s.hashlock, Function.update s.thread t pc⟩
  | decr {fp : Nat} {pc : Pc2} {f_lock : Nat → Option Nat} (hr : (t, fp) ∈ s.refs)
      (hc : s.f_count fp ≠ 1)
      (hpc : s.thread t = .rele2 fp ∧ pc = .idle ∨ s.thread t = .rele5 fp ∧ pc = .rele6) :
      Step2 s tbl stage t ⟨s.decr t fp, f_lock, s.hashlock, Function.update s.thread t pc⟩
  | first {fp : Nat} {l : List Nat} {f_lock : Nat → Option Nat} (hpc : s.thread t = .rele5 fp)
      (hr : (t, fp) ∈ s.refs) (hone : s.f_count fp = 1)
      (hfirst : s.fh (HASH (s.f_id fp)) = some fp) (hl : tbl (HASH (s.f_id fp)) = fp :: l) :
      Step2 s tbl stage t ⟨(s.unlinkFirst fp).giveUp t fp, f_lock, s.hashlock,
        Function.update s.thread t (.rele8 fp)⟩
  | behind {fp tfp : Nat} {l₁ l₂ : List Nat} {f_lock : Nat → Option Nat}
      (hpc : s.thread t = .rele7 fp (some tfp)) (hr : (t, fp) ∈ s.refs) (hone : s.f_count fp = 1)
      (hl : tbl (HASH (s.f_id fp)) = l₁ ++ tfp :: fp :: l₂) :
      Step2 s tbl stage t ⟨(s.unlinkNext tfp fp).giveUp t fp, f_lock, s.hashlock,
        Function.update s.thread t (.rele8 fp)⟩
  | free {fp : Nat} {f_lock : Nat → Option Nat} (hpc : s.thread t = .rele10 fp) :
      Step2 s tbl stage t ⟨s.free fp, f_lock, s.hashlock, Function.update s.thread t .idle⟩

/-- **One step of a thread.** It never comes to the null pointer, nor to an object that has been
freed. -/
theorem run2_cases (h : Inv2 s tbl stage) (hc : Counts (.run t) s) (hs : run2 t s = some s') :
    Step2 s tbl stage t s' := by
  have hat := h.at_ t
  unfold run2 at hs
  cases hpc : s.thread t with
  | idle => simp [hpc] at hs
  | alloc1 fp =>
    simp only [hpc] at hs hat
    obtain ⟨hnone, rfl⟩ := of_lockHash hs
    exact .move hat (fun t' _ he => by simp [hnone] at he) (fun _ => rfl)
      (.inr (by rw [hpc]; rfl)) (.inl (by rw [hpc]; rfl))
  | alloc2 fp =>
    simp only [hpc] at hs hat
    have ha : (s.on (s.link t fp)).allocated fp = true := (h.mem.alloc fp).mpr (by simp [hat.1])
    cases of_lock ha hs
    exact .link hpc
  | alloc3 fp =>
    simp only [hpc, Option.some.injEq] at hs hat
    subst hs
    have hh : (s.thread t).hash = true := by rw [hpc]; rfl
    exact .move hat (fun t' ht he => absurd he (h.hash_ne hh ht))
      (fun he => by cases he) (.inl rfl) (.inl (by rw [hpc]; rfl))
  | alloc4 fp =>
    simp only [hpc, Option.some.injEq] at hs hat
    subst hs
    rw [access_eq (h.mem.allocated hat)]
    exact .move trivial (fun _ _ he => he) (fun he => by cases he) (.inl rfl)
      (.inl (by rw [hpc]; rfl))
  | hold1 fp =>
    simp only [hpc] at hs hat
    cases of_lock (h.mem.allocated hat) hs
    exact .move hat (fun _ _ he => he) (fun he => by cases he) (.inl rfl)
      (.inl (by rw [hpc]; rfl))
  | hold2 fp =>
    simp only [hpc] at hs hat
    have hlt := h.mem.count_lt (h.mem.refs t fp hat) (hc fp (by rw [hpc]; rfl))
    rw [hold_eq (h.mem.allocated hat) hlt] at hs
    cases hs
    exact .incr (h.mem.refs t fp hat) hlt (.inl ⟨hpc, rfl⟩)
  | find1 id =>
    simp only [hpc] at hs
    obtain ⟨hnone, rfl⟩ := of_lockHash hs
    refine .move ?_ (fun t' _ he => by simp [hnone] at he) (fun _ => rfl) (.inl rfl)
      (.inl (by rw [hpc]; rfl))
    -- the search starts at the head of the chain, with no object passed
    exact ⟨_, (h.mem.chain (HASH id)).head, [], rfl, fun a ha => by cases ha⟩
  | find2 id fp =>
    have hh : (s.thread t).hash = true := by rw [hpc]; rfl
    rw [hpc] at hat
    obtain ⟨l, hfp, hl⟩ := hat
    cases fp with
    | none =>
      simp only [hpc, Option.some.injEq] at hs
      subst hs
      exact .move trivial (fun t' ht he => absurd he (h.hash_ne hh ht))
        (fun he => by cases he) (.inl rfl) (.inr ⟨id, hpc, rfl⟩)
    | some fp =>
      simp only [hpc, Option.some.injEq] at hs
      cases l with
      | nil => cases hfp
      | cons b l =>
        -- what the thread points at is in a chain, so it is not freed
        cases hfp
        rw [access_eq (h.mem.allocated_mem hl.mem)] at hs
        subst hs
        by_cases hid : s.f_id fp = id
        · rw [if_pos hid]
          exact .move ⟨hid, l, hl⟩ (fun _ _ he => he) (fun _ => h.hash t hh) (.inl rfl)
            (.inl (by rw [hpc]; rfl))
        · rw [if_neg hid]
          exact .move ⟨l, hl.next h.mem hid⟩ (fun _ _ he => he) (fun _ => h.hash t hh) (.inl rfl)
            (.inl (by rw [hpc]; rfl))
  | find3 id fp =>
    simp only [hpc] at hs hat
    obtain ⟨hid, l, hl⟩ := hat
    cases of_lock (h.mem.allocated_mem hl.mem) hs
    exact .move ⟨hid, l, hl⟩ (fun _ _ he => he)
      (fun _ => h.hash t (by rw [hpc]; rfl)) (.inl rfl) (.inl (by rw [hpc]; rfl))
  | find4 id fp =>
    simp only [hpc] at hs hat
    obtain ⟨hid, l, hl⟩ := hat
    have hlt := h.mem.count_lt (h.mem.linked_of_mem hl.mem) (hc fp (by rw [hpc]; rfl))
    rw [hold_eq (h.mem.allocated_mem hl.mem) hlt] at hs
    cases hs
    exact .incr (h.mem.linked_of_mem hl.mem) hlt (.inr ⟨id, hpc, rfl⟩)
  | find5 =>
    simp only [hpc, Option.some.injEq] at hs
    subst hs
    have hh : (s.thread t).hash = true := by rw [hpc]; rfl
    exact .move trivial (fun t' ht he => absurd he (h.hash_ne hh ht))
      (fun he => by cases he) (.inl rfl) (.inl (by rw [hpc]; rfl))
  | rele1 fp =>
    simp only [hpc] at hs hat
    cases of_lock (h.mem.allocated hat) hs
    exact .move hat (fun _ _ he => he) (fun he => by cases he) (.inl rfl)
      (.inl (by rw [hpc]; rfl))
  | rele2 fp =>
    simp only [hpc, Option.some.injEq] at hs hat
    rw [access_eq (h.mem.allocated hat)] at hs
    split at hs
    · subst hs
      exact .move hat (fun _ _ he => he) (fun he => by cases he) (.inl rfl)
        (.inl (by rw [hpc]; rfl))
    next hc =>
      subst hs
      exact .decr hat hc (.inl ⟨hpc, rfl⟩)
  | rele3 fp =>
    simp only [hpc] at hs hat
    obtain ⟨hnone, rfl⟩ := of_lockHash hs
    exact .move hat (fun t' _ he => by simp [hnone] at he) (fun _ => rfl) (.inl rfl)
      (.inl (by rw [hpc]; rfl))
  | rele4 fp =>
    simp only [hpc] at hs hat
    cases of_lock (h.mem.allocated hat) hs
    exact .move hat (fun _ _ he => he) (fun _ => h.hash t (by rw [hpc]; rfl))
      (.inl rfl) (.inl (by rw [hpc]; rfl))
  | rele5 fp =>
    simp only [hpc, Option.some.injEq] at hs hat
    have hh : (s.thread t).hash = true := by rw [hpc]; rfl
    have hst := h.mem.refs t fp hat
    rw [access_eq (h.mem.allocated hat)] at hs
    split at hs
    next hc =>
      subst hs
      exact .decr hat hc (.inr ⟨hpc, rfl⟩)
    next hc =>
      -- the count is still 1 under the lock of the table: nobody else holds the object
      have hone : outstanding fp s.refs = 1 := by
        have := (h.mem.count fp hst).1
        omega
      -- either it is the first of its chain, or the walk to its predecessor begins
      rcases h.mem.first_or hst with ⟨hfirst, l, hl⟩ | ⟨hfirst, b, l, hb, hl, hmem⟩
      · rw [if_pos hfirst] at hs
        subst hs
        exact .first hpc hat (by simpa using hc) hfirst hl
      · rw [if_neg hfirst] at hs
        subst hs
        exact .move ⟨hat, hone, [], b, l, hb, hl, hmem⟩ (fun _ _ he => he)
          (fun _ => h.hash t hh) (.inl rfl) (.inl (by rw [hpc]; rfl))
  | rele6 =>
    simp only [hpc, Option.some.injEq] at hs
    subst hs
    have hh : (s.thread t).hash = true := by rw [hpc]; rfl
    exact .move trivial (fun t' ht he => absurd he (h.hash_ne hh ht))
      (fun he => by cases he) (.inl rfl) (.inl (by rw [hpc]; rfl))
  | rele7 fp tfp =>
    have hh : (s.thread t).hash = true := by rw [hpc]; rfl
    rw [hpc] at hat
    obtain ⟨hr, hone, l₁, b, l₂, rfl, hl, hmem⟩ := hat
    simp only [hpc, Option.some.injEq] at hs
    rw [access_eq (h.mem.allocated_mem (i := HASH (s.f_id fp)) (by simp [hl]))] at hs
    have hchain := h.mem.chain (HASH (s.f_id fp))
    rw [hl] at hchain
    have hnext := hchain.next_eq
    cases l₂ with
    | nil => cases hmem
    | cons c l₂ =>
      -- the walk stops at the predecessor of the object, or goes on
      by_cases hc : c = fp
      · subst hc
        rw [if_neg (by simp [hnext]), access_eq (h.mem.allocated hr)] at hs
        subst hs
        exact .behind hpc hr (by have := (h.mem.count c (h.mem.refs t c hr)).1; omega) hl
      · rw [if_pos (by simp [hnext, hc])] at hs
        subst hs
        refine .move ⟨hr, hone, l₁ ++ [b], c, l₂, hnext, by simp [hl], ?_⟩
          (fun _ _ he => he) (fun _ => h.hash t hh) (.inl rfl) (.inl (by rw [hpc]; rfl))
        exact (List.mem_cons.mp hmem).resolve_left (Ne.symm hc)
  | rele8 fp =>
    simp only [hpc, Option.some.injEq] at hs hat
    subst hs
    have hh : (s.thread t).hash = true := by rw [hpc]; rfl
    exact .move hat (fun t' ht he => absurd he (h.hash_ne hh ht))
      (fun he => by cases he) (.inr (by rw [hpc]; rfl)) (.inl (by rw [hpc]; rfl))
  | rele9 fp =>
    simp only [hpc, Option.some.injEq] at hs hat
    have ha : s.allocated fp = true := (h.mem.alloc fp).mpr (by simp [show stage fp = _ from hat])
    rw [access_eq ha] at hs
    subst hs
    exact .move hat (fun _ _ he => he) (fun he => by cases he)
      (.inr (by rw [hpc]; rfl)) (.inl (by rw [hpc]; rfl))
  | rele10 fp =>
    simp only [hpc, Option.some.injEq] at hs hat
    have ha : s.allocated fp = true := (h.mem.alloc fp).mpr (by simp [show stage fp = _ from hat])
    rw [access_eq ha] at hs
    subst hs
    exact .free hpc

/-- The step that would count too far. -/
theorem run2_overflow (h : Inv2 s tbl stage) (hc : ¬ Counts (.run t) s) (hs : run2 t s = some s') :
    s' = s.crash := by
  have hat := h.at_ t
  obtain ⟨fp, hcounts, hle⟩ : ∃ fp, (s.thread t).counts = some fp ∧ INT_MAX ≤ outstanding fp s.refs := by
    simpa only [Counts, not_forall, exists_prop, Nat.not_lt] using hc
  have hcount (hst : stage fp = .linked) : (INT_MAX : Int) ≤ s.f_count fp := by
    rw [(h.mem.count fp hst).1]
    exact Int.ofNat_le.mpr hle
  unfold run2 at hs
  cases hpc : s.thread t <;> rw [hpc] at hcounts <;> cases hcounts
  case hold2 =>
    simp only [hpc, Option.some.injEq] at hs hat
    rw [hold_overflow (h.mem.allocated hat) (hcount (h.mem.refs t fp hat))] at hs
    exact hs.symm
  case find4 id =>
    simp only [hpc, Option.some.injEq] at hs hat
    obtain ⟨-, l, hl⟩ := hat
    rw [hold_overflow (h.mem.allocated_mem hl.mem) (hcount (h.mem.linked_of_mem hl.mem))] at hs
    exact hs.symm

/-- It keeps what is known of every thread. -/
theorem step2_inv (h : Inv2 s tbl stage) (hs : Step2 s tbl stage t s') :
    ∃ tbl' stage', Inv2 s' tbl' stage' := by
  have hat := h.at_ t
  cases hs with
  | move hat hlock hheld howner _ => exact ⟨tbl, stage, h.move hat hlock hheld howner⟩
  | link hpc => exact h.link hpc
  | free hpc => exact ⟨tbl, h.free hpc⟩
  | @incr fp pc f_lock hst _ hpc =>
    rcases hpc with ⟨hpc, rfl⟩ | ⟨id, hpc, rfl⟩
    · rw [hpc] at hat
      exact ⟨tbl, stage, h.incr hst (.inr ⟨⟨fp, hat, hpc⟩, rfl⟩)⟩
    · exact ⟨tbl, stage, h.incr hst (.inl ⟨by rw [hpc]; rfl, rfl⟩)⟩
  | decr hr hc hpc =>
    rcases hpc with ⟨hpc, rfl⟩ | ⟨hpc, rfl⟩
    · exact ⟨tbl, stage, h.decr hr hc trivial (fun he => by cases he) rfl⟩
    · exact ⟨tbl, stage, h.decr hr hc trivial (fun _ => by rw [hpc]; rfl) rfl⟩
  | @first fp l f_lock hpc hr hone hfirst hl =>
    have hcount := (h.mem.count fp (h.mem.refs t fp hr)).1
    exact ⟨_, _, h.unlinked hr (by rw [hpc]; rfl) (h.mem.unlinkFirst hr (by omega) hl) rfl rfl⟩
  | @behind fp tfp l₁ l₂ f_lock hpc hr hone hl =>
    have hcount := (h.mem.count fp (h.mem.refs t fp hr)).1
    exact ⟨_, _, h.unlinked hr (by rw [hpc]; rfl) (h.mem.unlinkNext hr (by omega) hl) rfl rfl⟩

/-- Every step keeps the invariant. -/
theorem act2_inv {x : Act} (h : Inv2 s tbl stage) (hc : Counts x s) (hs : act2 x s = some s') :
    ∃ tbl' stage', Inv2 s' tbl' stage' := by
  cases x with
  | run t => exact step2_inv h (run2_cases h hc hs)
  | alloc t id fp =>
    simp only [act2] at hs
    split at hs
    next hc =>
      cases hs
      exact ⟨tbl, _, h.alloc hc.2 id⟩
    next => cases hs
  | call t c =>
    simp only [act2] at hs
    split at hs
    next hc =>
      cases hs
      refine ⟨tbl, stage, h.move ?_ (fun _ _ he => he) ?_ (.inl ?_)⟩
      · have hallowed := hc.2
        cases c with
        | foo_find id => trivial
        | foo_hold fp =>
          change (t, fp) ∈ s.refs
          simpa [Call.allowed] using hallowed
        | foo_rele fp =>
          change (t, fp) ∈ s.refs
          simpa [Call.allowed] using hallowed
      · cases c <;> exact fun he => by cases he
      · cases c <;> rfl
    next => cases hs

/-- The start of the two-lock version. -/
def init2 : State Pc2 := .start .idle

/-- The invariant holds at the start. -/
theorem init2_inv : Inv2 init2 (fun _ => []) fun _ => .absent where
  mem := start_inv
  hash _ h := by cases h
  owner _ _ _ h := by cases h
  at_ _ := trivial

/-- It holds in every run. -/
theorem run_inv2 (h : Run act2 init2 Counts s) : ∃ tbl stage, Inv2 s tbl stage :=
  Run.inv (I := fun s => ∃ tbl stage, Inv2 s tbl stage) ⟨_, _, init2_inv⟩
    (fun _ _ _ _ hc hs ⟨_, _, hi⟩ => act2_inv hi hc hs) h

end LearningNotes.Foo
