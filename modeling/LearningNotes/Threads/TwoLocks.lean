import LearningNotes.Threads.Mutex2

/-!
# `mutex2.c` does what `mutex3.c` does

Every run of `mutex2.c` is matched by a run of `mutex3.c` with the same table, the same references
and the same counts. A thread of `mutex3.c` does its whole critical section at the moment at which
the thread of `mutex2.c` changes a count or the table (or finds nothing); the rest are steps that
the single lock does not need. So `hashlock` is free in `mutex3.c` between these moments (`single`).
-/

namespace LearningNotes.Foo

variable {m : Memory} {th : Nat → Pc3} {t fp tfp : Nat} {id : Int} {l l₁ l₂ : List Nat}

/-! ## The critical sections of `mutex3.c` -/

/-- A state of `mutex3.c` in which nobody has a lock. -/
def free3 (m : Memory) (th : Nat → Pc3) : State Pc3 := ⟨m, fun _ => none, none, th⟩

/-- A state of `mutex3.c` in which `t` has `hashlock` and stands at `pc`. -/
def held3 (m : Memory) (th : Nat → Pc3) (t : Nat) (pc : Pc3) : State Pc3 :=
  ⟨m, fun _ => none, some t, Function.update th t pc⟩

variable {new pc : Pc3}

/-- `t` takes `hashlock`. -/
theorem take3 (hth : run3 t (free3 m th) = (free3 m th).lockHash t fun u => u.goto t new) :
    Run act3 (free3 m th) AnyStep (held3 m th t new) := by
  refine .one (a := .run t) trivial ?_
  change run3 t (free3 m th) = _
  rw [hth]
  simp [State.lockHash, State.goto, free3, held3]

/-- `t` gives `hashlock` back. -/
theorem give3 (hth : run3 t (held3 m th t pc) = some ((held3 m th t pc).unlockHash.goto t new)) :
    Run act3 (held3 m th t pc) AnyStep (free3 m (Function.update th t new)) := by
  refine .one (a := .run t) trivial ?_
  change run3 t (held3 m th t pc) = _
  rw [hth]
  simp [State.unlockHash, State.goto, free3, held3]

/-- `foo_alloc` from the lock of `hashlock` on. -/
theorem alloc3 (hth : th t = .alloc1 fp) (ha : m.allocated fp = true) :
    Run act3 (free3 m th) AnyStep (free3 (m.link t fp) (Function.update th t .idle)) := by
  have h₁ : Run act3 (free3 m th) AnyStep (held3 m th t (.alloc2 fp)) :=
    take3 (by simp [run3, free3, hth])
  have h₂ : act3 (.run t) (held3 m th t (.alloc2 fp)) = some ⟨m.link t fp,
      Function.update (fun _ => none) fp (some t), some t, Function.update th t (.alloc3 fp)⟩ := by
    simp [act3, run3, held3, State.on, State.lock, State.access, State.goto, Memory.link, ha]
  have h₃ : act3 (.run t) ⟨m.link t fp, Function.update (fun _ => none) fp (some t), some t,
      Function.update th t (.alloc3 fp)⟩ = some ⟨m.link t fp,
      Function.update (fun _ => none) fp (some t), none, Function.update th t (.alloc4 fp)⟩ := by
    simp [act3, run3, State.unlockHash, State.goto]
  have h₄ : act3 (.run t) ⟨m.link t fp, Function.update (fun _ => none) fp (some t), none,
      Function.update th t (.alloc4 fp)⟩ =
      some (free3 (m.link t fp) (Function.update th t .idle)) := by
    simp [act3, run3, State.access, State.unlock, State.goto, Memory.link, ha, free3]
  exact ((h₁.step trivial h₂).step trivial h₃).step trivial h₄

/-- `foo_hold` of the single-lock version, from its first step to its last. -/
theorem hold3 (hth : th t = .hold1 fp) (ha : m.allocated fp = true)
    (hc : m.f_count fp < (INT_MAX : Int)) :
    Run act3 (free3 m th) AnyStep (free3 (m.incr t fp) (Function.update th t .idle)) := by
  have h₁ : Run act3 (free3 m th) AnyStep (held3 m th t (.hold2 fp)) :=
    take3 (by simp [run3, free3, hth])
  have h₂ : act3 (.run t) (held3 m th t (.hold2 fp)) =
      some (free3 (m.incr t fp) (Function.update th t .idle)) := by
    have hc' : m.f_count fp < 2147483647 := hc
    simp [act3, run3, held3, State.hold, State.access, State.goto, State.on, State.unlockHash,
      free3, ha, hc']
  exact h₁.step trivial h₂

/-- The loop of `foo_find` goes along objects with other ids. -/
theorem walk_find3 (hF : Follow m.f_next (l₁ ++ l).head? (l₁ ++ l))
    (ha : ∀ a ∈ l₁, m.allocated a = true) (hne : ∀ a ∈ l₁, m.f_id a ≠ id) :
    Run act3 (held3 m th t (.find2 id (l₁ ++ l).head?)) AnyStep
      (held3 m th t (.find2 id l.head?)) := by
  induction l₁ with
  | nil => exact .start
  | cons a l₁ ih =>
    have hstep : act3 (.run t) (held3 m th t (.find2 id (a :: l₁ ++ l).head?)) =
        some (held3 m th t (.find2 id (l₁ ++ l).head?)) := by
      have hnext : m.f_next a = (l₁ ++ l).head? := hF.2.head
      have hid := hne a (List.mem_cons_self ..)
      have halloc := ha a (List.mem_cons_self ..)
      simp [act3, run3, held3, State.access, State.goto, hid, halloc, hnext]
    have hrest : Follow m.f_next (l₁ ++ l).head? (l₁ ++ l) := hF.2.head ▸ hF.2
    exact (Run.one trivial hstep).trans (ih hrest (fun b hb => ha b (.tail _ hb))
      fun b hb => hne b (.tail _ hb))

/-- `foo_find` that goes along the chain and finds nothing. -/
theorem find_none3 (hth : th t = .find1 id) (hF : Follow m.f_next (m.fh (HASH id)) l)
    (ha : ∀ a ∈ l, m.allocated a = true) (hne : ∀ a ∈ l, m.f_id a ≠ id) :
    Run act3 (free3 m th) AnyStep (free3 m (Function.update th t .idle)) := by
  have h₁ : Run act3 (free3 m th) AnyStep (held3 m th t (.find2 id (m.fh (HASH id)))) :=
    take3 (by simp [run3, free3, hth, State.lockHash])
  rw [hF.head] at h₁ hF
  have h₂ : Run act3 (held3 m th t (.find2 id l.head?)) AnyStep (held3 m th t (.find2 id none)) := by
    have hF' : Follow m.f_next (l ++ []).head? (l ++ []) := by
      rw [List.append_nil]
      exact hF
    have hwalk : Run act3 (held3 m th t (.find2 id (l ++ []).head?)) AnyStep
        (held3 m th t (.find2 id none)) := walk_find3 hF' ha hne
    rwa [List.append_nil] at hwalk
  exact (h₁.trans h₂).trans (give3 (by simp [run3, held3]))

/-- `foo_find` that finds the object and takes a reference. -/
theorem find_some3 (hth : th t = .find1 id) (hF : Follow m.f_next (m.fh (HASH id)) (l₁ ++ fp :: l))
    (ha : ∀ a ∈ l₁ ++ fp :: l, m.allocated a = true) (hne : ∀ a ∈ l₁, m.f_id a ≠ id)
    (hid : m.f_id fp = id) (hc : m.f_count fp < (INT_MAX : Int)) :
    Run act3 (free3 m th) AnyStep (free3 (m.incr t fp) (Function.update th t .idle)) := by
  have h₁ : Run act3 (free3 m th) AnyStep (held3 m th t (.find2 id (m.fh (HASH id)))) :=
    take3 (by simp [run3, free3, hth, State.lockHash])
  rw [hF.head] at h₁ hF
  have h₂ : Run act3 (held3 m th t (.find2 id (l₁ ++ fp :: l).head?)) AnyStep
      (held3 m th t (.find2 id (fp :: l).head?)) :=
    walk_find3 hF (fun a hmem => ha a (List.mem_append_left _ hmem)) hne
  have h₃ : act3 (.run t) (held3 m th t (.find2 id (fp :: l).head?)) =
      some (held3 (m.incr t fp) th t .find3) := by
    have hc' : m.f_count fp < 2147483647 := hc
    simp [act3, run3, held3, hid, State.hold, State.access, State.on, State.goto, hc',
      ha fp (by simp)]
  have h₄ : Run act3 (held3 (m.incr t fp) th t .find3) AnyStep
      (free3 (m.incr t fp) (Function.update th t .idle)) := give3 (by simp [run3, held3])
  exact ((h₁.trans h₂).step trivial h₃).trans h₄

/-- `foo_rele` when there are other references. -/
theorem rele_decr3 (hth : th t = .rele1 fp) (ha : m.allocated fp = true) (hc : m.f_count fp ≠ 1) :
    Run act3 (free3 m th) AnyStep (free3 (m.decr t fp) (Function.update th t .idle)) := by
  have h₁ : Run act3 (free3 m th) AnyStep (held3 m th t (.rele2 fp)) :=
    take3 (by simp [run3, free3, hth])
  have h₂ : act3 (.run t) (held3 m th t (.rele2 fp)) = some (held3 (m.decr t fp) th t .rele6) := by
    have hc' : ¬ m.f_count fp - 1 = 0 := by omega
    simp [act3, run3, held3, State.access, State.on, State.goto, Memory.decr, ha, hc']
  exact (h₁.step trivial h₂).trans (give3 (by simp [run3, held3]))

/-- `foo_rele` of the last reference, when the object is the first one of its chain. -/
theorem rele_first3 (hth : th t = .rele1 fp) (ha : m.allocated fp = true) (hc : m.f_count fp = 1)
    (hfirst : m.fh (HASH (m.f_id fp)) = some fp) :
    Run act3 (free3 m th) AnyStep
      (free3 ((m.decr t fp).unlinkFirst fp) (Function.update th t (.rele5 fp))) := by
  have h₁ : Run act3 (free3 m th) AnyStep (held3 m th t (.rele2 fp)) :=
    take3 (by simp [run3, free3, hth])
  have h₂ : act3 (.run t) (held3 m th t (.rele2 fp)) =
      some (held3 ((m.decr t fp).unlinkFirst fp) th t (.rele4 fp)) := by
    simp [act3, run3, held3, State.access, State.on, State.goto, Memory.decr, ha, hc, hfirst]
  exact (h₁.step trivial h₂).trans (give3 (by simp [run3, held3]))

/-- The loop of `foo_rele` goes up to the object in front of `fp`. -/
theorem walk_rele3 (hF : Follow m.f_next (l₁ ++ tfp :: fp :: l).head? (l₁ ++ tfp :: fp :: l))
    (ha : ∀ a ∈ l₁, m.allocated a = true) :
    Run act3 (held3 m th t (.rele3 fp (l₁ ++ tfp :: fp :: l).head?)) AnyStep
      (held3 m th t (.rele3 fp (some tfp))) := by
  induction l₁ with
  | nil => exact .start
  | cons a l₁ ih =>
    have hnext : m.f_next a = (l₁ ++ tfp :: fp :: l).head? := hF.2.head
    have hne : (l₁ ++ tfp :: fp :: l).head? ≠ some fp := by
      have hnodup := (List.nodup_cons.mp hF.nodup).2
      cases l₁ with
      | nil =>
        rintro he
        cases he
        simp at hnodup
      | cons b l₁ =>
        rintro he
        cases he
        simp at hnodup
    have hstep : act3 (.run t) (held3 m th t (.rele3 fp (a :: l₁ ++ tfp :: fp :: l).head?)) =
        some (held3 m th t (.rele3 fp (l₁ ++ tfp :: fp :: l).head?)) := by
      have halloc := ha a (List.mem_cons_self ..)
      have hne' : m.f_next a ≠ some fp := hnext ▸ hne
      simp only [act3, run3, held3, List.cons_append, List.head?_cons, Function.update_self,
        State.access, halloc, if_true, State.goto, Function.update_idem]
      rw [if_pos hne', hnext]
    have hrest : Follow m.f_next (l₁ ++ tfp :: fp :: l).head? (l₁ ++ tfp :: fp :: l) :=
      hF.2.head ▸ hF.2
    exact (Run.one trivial hstep).trans (ih hrest fun b hb => ha b (.tail _ hb))

/-- `foo_rele` of the last reference, when the object is behind another one. -/
theorem rele_next3 (hth : th t = .rele1 fp) (hc : m.f_count fp = 1)
    (hF : Follow m.f_next (m.fh (HASH (m.f_id fp))) (l₁ ++ tfp :: fp :: l))
    (ha : ∀ a ∈ l₁ ++ tfp :: fp :: l, m.allocated a = true) :
    Run act3 (free3 m th) AnyStep
      (free3 ((m.decr t fp).unlinkNext tfp fp) (Function.update th t (.rele5 fp))) := by
  have hfp : m.allocated fp = true := ha fp (by simp)
  have htfp : m.allocated tfp = true := ha tfp (by simp)
  have hnext : m.f_next tfp = some fp := hF.next_eq
  have hne : m.fh (HASH (m.f_id fp)) ≠ some fp := by
    have hnodup := hF.nodup
    rw [hF.head]
    cases l₁ <;>
    · rintro he
      cases he
      simp at hnodup
  have h₁ : Run act3 (free3 m th) AnyStep (held3 m th t (.rele2 fp)) :=
    take3 (by simp [run3, free3, hth])
  have h₂ : act3 (.run t) (held3 m th t (.rele2 fp)) =
      some (held3 (m.decr t fp) th t (.rele3 fp (m.fh (HASH (m.f_id fp))))) := by
    simp [act3, run3, held3, State.access, State.on, State.goto, Memory.decr, hfp, hc, hne]
  have h₃ : Run act3 (held3 (m.decr t fp) th t (.rele3 fp (m.fh (HASH (m.f_id fp))))) AnyStep
      (held3 (m.decr t fp) th t (.rele3 fp (some tfp))) := by
    have hhead := hF.head
    rw [hhead] at hF ⊢
    exact walk_rele3 (m := m.decr t fp) hF fun a hmem => ha a (List.mem_append_left _ hmem)
  have h₄ : act3 (.run t) (held3 (m.decr t fp) th t (.rele3 fp (some tfp))) =
      some (held3 ((m.decr t fp).unlinkNext tfp fp) th t (.rele4 fp)) := by
    simp [act3, run3, held3, State.access, State.on, State.goto, Memory.decr, hfp, htfp, hnext]
  have h₅ : Run act3 (held3 ((m.decr t fp).unlinkNext tfp fp) th t (.rele4 fp)) AnyStep
      (free3 ((m.decr t fp).unlinkNext tfp fp) (Function.update th t (.rele5 fp))) :=
    give3 (by simp [run3, held3])
  exact (((h₁.step trivial h₂).trans h₃).step trivial h₄).trans h₅

/-- The object is freed. -/
theorem free_step3 (hth : th t = .rele5 fp) (ha : m.allocated fp = true) :
    Run act3 (free3 m th) AnyStep (free3 (m.free fp) (Function.update th t .idle)) := by
  refine .one (a := .run t) trivial ?_
  simp [act3, run3, free3, hth, State.access, State.on, State.goto, ha]

/-! ## Matching a step of `mutex2.c` -/

/-- The state of `mutex3.c`, with the counts `c`. -/
def single (s : State Pc2) (c : Nat → Int) : State Pc3 :=
  free3 { s.toMemory with f_count := c } fun t => (s.thread t).abs

/-- The counts agree, but for objects that are off the table: `mutex2.c` leaves them a count of 1. -/
def Agrees (m : Memory) (c : Nat → Int) : Prop :=
  ∀ a st, life a m.log = some st → st = .made ∨ st = .linked → c a = m.f_count a

variable {s s' : State Pc2} {c : Nat → Int} {m' : Memory} {pc' : Pc2}
  {f_lock : Nat → Option Nat} {hashlock : Option Nat} {tbl : Nat → List Nat}
  {stage : Nat → Stage}

/-- A thread goes on, in both versions. -/
theorem abs_update (th : Nat → Pc2) (t : Nat) (pc : Pc2) :
    (fun t' => (Function.update th t pc t').abs) =
      Function.update (fun t' => (th t').abs) t pc.abs := by
  funext t'
  by_cases ht : t' = t
  · subst ht
    simp
  · simp [ht]

/-- The matching state after a step of `t`. -/
theorem single_step (c : Nat → Int) :
    single ⟨m', f_lock, hashlock, Function.update s.thread t pc'⟩ c =
      free3 { m' with f_count := c } (Function.update (fun t' => (s.thread t').abs) t pc'.abs) := by
  rw [← abs_update]
  rfl

/-- A step that the single lock does not need. -/
theorem sim_skip (hc : Agrees s.toMemory c) (hpc : pc'.abs = (s.thread t).abs) :
    ∃ c', Run act3 (single s c) AnyStep
        (single ⟨s.toMemory, f_lock, hashlock, Function.update s.thread t pc'⟩ c') ∧
      Agrees s.toMemory c' := by
  refine ⟨c, ?_, hc⟩
  rw [single_step, hpc, Function.update_eq_self (f := fun t' => (s.thread t').abs) t]
  exact .start

/-- A step that changes the count of one object as `mutex3.c` does. -/
theorem Agrees.count {n n' : Int} {refs : List (Nat × Nat)} (hc : Agrees m c)
    (hn : c fp = m.f_count fp → n = n') :
    Agrees { m with f_count := Function.update m.f_count fp n', refs := refs }
      (Function.update c fp n) := by
  intro a st hl hst
  dsimp only at hl ⊢
  by_cases ha : a = fp
  · subst ha
    rw [Function.update_self, Function.update_self]
    exact hn (hc a st hl hst)
  · rw [Function.update_of_ne ha, Function.update_of_ne ha]
    exact hc a st hl hst

/-- A step in which something happens to an object. -/
theorem Agrees.event {c' : Nat → Int} {e : Event} {st : Stage} (h : MemInv m tbl stage)
    (hnext : (stage fp).next e = some st) (hlog : m'.log = m.log ++ [(e, fp)])
    (hcount : ∀ a st, a ≠ fp → life a m.log = some st → st = .made ∨ st = .linked →
      c' a = m'.f_count a)
    (hfp : st = .made ∨ st = .linked → c' fp = m'.f_count fp) : Agrees m' c' := by
  intro a st' hl hst
  rw [hlog, life_snoc h.life hnext] at hl
  cases hl
  by_cases ha : a = fp
  · subst ha
    rw [Function.update_self] at hst
    exact hfp hst
  · rw [Function.update_of_ne ha] at hst
    exact hcount a _ ha (h.life a) hst

/-- The counts of objects in the table agree. -/
theorem Agrees.linked (hc : Agrees s.toMemory c) (h : MemInv s.toMemory tbl stage)
    (hst : stage fp = .linked) : c fp = s.f_count fp :=
  hc fp _ (h.life fp) (.inr hst)

/-- An object comes into the table, in both versions. -/
theorem sim_link (h : Inv2 s tbl stage) (hc : Agrees s.toMemory c)
    (hpc : s.thread t = .alloc2 fp) :
    ∃ c', Run act3 (single s c) AnyStep
        (single ⟨s.link t fp, f_lock, hashlock, Function.update s.thread t (.alloc3 fp)⟩ c') ∧
      Agrees (s.link t fp) c' := by
  have hat := h.at_ t
  rw [hpc] at hat
  refine ⟨c, ?_, ?_⟩
  · rw [single_step]
    exact alloc3 (by simp [hpc, Pc2.abs])
      ((h.mem.alloc fp).mpr (by simp [hat.1]))
  · refine Agrees.event h.mem (show (stage fp).next .link = some .linked by rw [hat.1]; rfl) rfl
      (fun a st _ hl hst => hc a st hl hst) fun _ => ?_
    exact hc fp _ (h.mem.life fp) (.inl hat.1)

/-- A reference more: `foo_hold`, or `foo_find`, which has found the object. -/
theorem sim_incr (h : Inv2 s tbl stage) (hc : Agrees s.toMemory c) (hst : stage fp = .linked)
    (hlt : s.f_count fp < (INT_MAX : Int))
    (hpc : s.thread t = .hold2 fp ∧ pc' = .idle ∨
      ∃ id, s.thread t = .find4 id fp ∧ pc' = .find5) :
    ∃ c', Run act3 (single s c) AnyStep
        (single ⟨s.incr t fp, f_lock, hashlock, Function.update s.thread t pc'⟩ c') ∧
      Agrees (s.incr t fp) c' := by
  have hcfp := hc.linked h.mem hst
  have hlt' : c fp < (INT_MAX : Int) := by
    rw [hcfp]
    exact hlt
  have ha : s.allocated fp = true := (h.mem.alloc fp).mpr (by simp [hst])
  refine ⟨Function.update c fp (c fp + 1), ?_, hc.count fun he => by rw [he]⟩
  rw [single_step]
  rcases hpc with ⟨hpc, rfl⟩ | ⟨id, hpc, rfl⟩
  · exact hold3 (by simp [hpc, Pc2.abs]) ha hlt'
  · have hat := h.at_ t
    rw [hpc] at hat
    obtain ⟨hid, l, l₁, hl, hne⟩ := hat
    have hchain := h.mem.chain (HASH id)
    rw [hl] at hchain
    have halloc : ∀ a ∈ l₁ ++ fp :: l, s.allocated a = true := by
      intro a hmem
      exact h.mem.allocated_mem (i := HASH id) (hl ▸ hmem)
    exact find_some3 (by simp only [hpc, Pc2.abs]) hchain
      halloc hne hid
      hlt'

/-- `foo_find` that finds nothing. -/
theorem sim_none (h : Inv2 s tbl stage) (hc : Agrees s.toMemory c)
    (hpc : s.thread t = .find2 id none) :
    ∃ c', Run act3 (single s c) AnyStep
        (single ⟨s.toMemory, f_lock, hashlock, Function.update s.thread t .idle⟩ c') ∧
      Agrees s.toMemory c' := by
  have hat := h.at_ t
  rw [hpc] at hat
  obtain ⟨l, hhead, l₁, hl, hne⟩ := hat
  cases l with
  | cons a l => cases hhead
  | nil =>
    rw [List.append_nil] at hl
    refine ⟨c, ?_, hc⟩
    rw [single_step]
    have halloc : ∀ a ∈ tbl (HASH id), s.allocated a = true := fun a => h.mem.allocated_mem
    exact find_none3 (by simp only [hpc, Pc2.abs]) (h.mem.chain (HASH id))
      halloc (fun a hmem => hne a (hl ▸ hmem))

/-- A reference less, and others are left. -/
theorem sim_decr (h : Inv2 s tbl stage) (hc : Agrees s.toMemory c) (hr : (t, fp) ∈ s.refs)
    (hne : s.f_count fp ≠ 1) (hpc : (s.thread t).abs = .rele1 fp) (hpc' : pc'.abs = .idle) :
    ∃ c', Run act3 (single s c) AnyStep
        (single ⟨s.decr t fp, f_lock, hashlock, Function.update s.thread t pc'⟩ c') ∧
      Agrees (s.decr t fp) c' := by
  have hcfp := hc.linked h.mem (h.mem.refs t fp hr)
  refine ⟨Function.update c fp (c fp - 1), ?_, hc.count fun he => by rw [he]⟩
  rw [single_step, hpc']
  exact rele_decr3 hpc (h.mem.allocated hr) (fun he => hne (hcfp.symm.trans he))

/-- The last reference, and the object is the first one of its chain. -/
theorem sim_first (h : Inv2 s tbl stage) (hc : Agrees s.toMemory c) (hr : (t, fp) ∈ s.refs)
    (hone : s.f_count fp = 1) (hpc : (s.thread t).abs = .rele1 fp)
    (hfirst : s.fh (HASH (s.f_id fp)) = some fp) :
    ∃ c', Run act3 (single s c) AnyStep
        (single ⟨(s.unlinkFirst fp).giveUp t fp, f_lock, hashlock,
          Function.update s.thread t (.rele8 fp)⟩ c') ∧
      Agrees ((s.unlinkFirst fp).giveUp t fp) c' := by
  have hst := h.mem.refs t fp hr
  have hcfp := hc.linked h.mem hst
  refine ⟨Function.update c fp (c fp - 1), ?_, ?_⟩
  · rw [single_step]
    exact rele_first3 hpc (h.mem.allocated hr) (hcfp.trans hone) hfirst
  · refine Agrees.event h.mem (show (stage fp).next .unlink = some .unlinked by rw [hst]; rfl) rfl
      (fun a st ha hl hst => ?_) fun hst => by simp at hst
    exact (Function.update_of_ne ha ..).trans (hc a st hl hst)

/-- The last reference, and the object is behind another one. -/
theorem sim_next (h : Inv2 s tbl stage) (hc : Agrees s.toMemory c) (hr : (t, fp) ∈ s.refs)
    (hone : s.f_count fp = 1) (hpc : (s.thread t).abs = .rele1 fp)
    (hl : tbl (HASH (s.f_id fp)) = l₁ ++ tfp :: fp :: l) :
    ∃ c', Run act3 (single s c) AnyStep
        (single ⟨(s.unlinkNext tfp fp).giveUp t fp, f_lock, hashlock,
          Function.update s.thread t (.rele8 fp)⟩ c') ∧
      Agrees ((s.unlinkNext tfp fp).giveUp t fp) c' := by
  have hst := h.mem.refs t fp hr
  have hcfp := hc.linked h.mem hst
  have hchain := h.mem.chain (HASH (s.f_id fp))
  rw [hl] at hchain
  have halloc : ∀ a ∈ l₁ ++ tfp :: fp :: l, s.allocated a = true := by
    intro a hmem
    exact h.mem.allocated_mem (i := HASH (s.f_id fp)) (hl ▸ hmem)
  refine ⟨Function.update c fp (c fp - 1), ?_, ?_⟩
  · rw [single_step]
    exact rele_next3 hpc (hcfp.trans hone) hchain halloc
  · refine Agrees.event h.mem (show (stage fp).next .unlink = some .unlinked by rw [hst]; rfl) rfl
      (fun a st ha hl hst => ?_) fun hst => by simp at hst
    exact (Function.update_of_ne ha ..).trans (hc a st hl hst)

/-- An object is freed, in both versions. -/
theorem sim_free (h : Inv2 s tbl stage) (hc : Agrees s.toMemory c)
    (hpc : s.thread t = .rele10 fp) :
    ∃ c', Run act3 (single s c) AnyStep
        (single ⟨s.free fp, f_lock, hashlock, Function.update s.thread t .idle⟩ c') ∧
      Agrees (s.free fp) c' := by
  have hst : stage fp = .unlinked := by
    have hat := h.at_ t
    rw [hpc] at hat
    exact hat
  refine ⟨c, ?_, ?_⟩
  · rw [single_step]
    exact free_step3 (by simp only [hpc, Pc2.abs])
      ((h.mem.alloc fp).mpr (by simp [hst]))
  · exact Agrees.event h.mem (show (stage fp).next .free = some .absent by rw [hst]; rfl) rfl
      (fun a st ha hl hst => hc a st hl hst) fun hst => by simp at hst

/-- **One step.** -/
theorem step2_sim (h : Inv2 s tbl stage) (hc : Agrees s.toMemory c) (hs : Step2 s tbl stage t s') :
    ∃ c', Run act3 (single s c) AnyStep (single s' c') ∧ Agrees s'.toMemory c' := by
  cases hs with
  | move hat hlock hheld howner habs =>
    rcases habs with habs | ⟨id, hpc, rfl⟩
    · exact sim_skip hc habs
    · exact sim_none h hc hpc
  | link hpc => exact sim_link h hc hpc
  | incr hst hlt hpc => exact sim_incr h hc hst hlt hpc
  | decr hr hne hpc =>
    rcases hpc with ⟨hpc, rfl⟩ | ⟨hpc, rfl⟩
    · exact sim_decr h hc hr hne (by rw [hpc]; rfl) rfl
    · exact sim_decr h hc hr hne (by rw [hpc]; rfl) rfl
  | first hpc hr hone hfirst hl => exact sim_first h hc hr hone (by rw [hpc]; rfl) hfirst
  | behind hpc hr hone hl => exact sim_next h hc hr hone (by rw [hpc]; rfl) hl
  | free hpc => exact sim_free h hc hpc

/-- Every step of the two-lock version is matched by steps of the other one. -/
theorem act2_sim {x : Act} (h : Inv2 s tbl stage) (hc : Agrees s.toMemory c) (hx : Counts x s)
    (hs : act2 x s = some s') :
    ∃ c', Run act3 (single s c) AnyStep (single s' c') ∧ Agrees s'.toMemory c' := by
  cases x with
  | run t => exact step2_sim h hc (run2_cases h hx hs)
  | alloc t id fp =>
    simp only [act2] at hs
    split at hs
    next hpc =>
      cases hs
      obtain ⟨hpc, ha⟩ := hpc
      -- the address is fresh, so it stands for no object
      have hst : stage fp = .absent := by
        by_contra hne
        simp [(h.mem.alloc fp).mpr hne] at ha
      refine ⟨Function.update c fp 1, .one (a := .alloc t id fp) trivial ?_, ?_⟩
      · have hth : (single s c).thread t = .idle ∧ (single s c).allocated fp = false :=
          ⟨by simp [single, free3, hpc, Pc2.abs], ha⟩
        simp only [act3, if_pos hth, Option.some.injEq]
        rw [State.goto, State.goto, single_step]
        simp [State.create, State.on, Memory.malloc, single, free3, Pc2.abs]
      · refine Agrees.event h.mem (show (stage fp).next .malloc = some .made by rw [hst]; rfl) rfl
          (fun a st ha hl hst => ?_) fun _ => ?_
        · have hcount : (s.malloc fp id).f_count a = s.f_count a := Function.update_of_ne ha ..
          rw [Function.update_of_ne ha]
          exact (hc a st hl hst).trans hcount.symm
        · have hcount : (s.malloc fp id).f_count fp = 1 := Function.update_self ..
          -- the new object has one reference, in both programs
          rw [Function.update_self]
          exact hcount.symm
    next => cases hs
  | call t x =>
    simp only [act2] at hs
    split at hs
    next hpc =>
      cases hs
      refine ⟨c, .one (a := .call t x) trivial ?_, hc⟩
      have hth : (single s c).thread t = .idle ∧ x.allowed t (single s c).refs = true :=
        ⟨by simp [single, free3, hpc.1, Pc2.abs], hpc.2⟩
      simp only [act3, if_pos hth, Option.some.injEq]
      rw [State.goto, State.goto, single_step]
      cases x <;> rfl
    next => cases hs

/-- The start of the single-lock version. -/
def init3 : State Pc3 := .start .idle

/-- Every run of the two-lock version is matched by a run of the other one. -/
theorem run_sim (h : Run act2 init2 Counts s) :
    ∃ c, Run act3 init3 AnyStep (single s c) ∧ Agrees s.toMemory c := by
  induction h with
  | start => exact ⟨fun _ => 0, .start, fun a st hl _ => rfl⟩
  | step h hx hs ih =>
    obtain ⟨c, hrun, hc⟩ := ih
    obtain ⟨tbl, stage, hinv⟩ := run_inv2 h
    obtain ⟨c', hrun', hc'⟩ := act2_sim hinv hc hx hs
    exact ⟨c', hrun.trans hrun', hc'⟩

/-! ## What becomes of the objects -/

/-- The object has been put into the table and not taken off. -/
def Live (m : Memory) (a : Nat) : Prop := life a m.log = some .linked

/-- The object is on chain `i`, where it occurs once (`Follow.nodup`). -/
def OnChain (m : Memory) (i a : Nat) : Prop := ∃ l, Follow m.f_next (m.fh i) l ∧ a ∈ l

/-- Thread `t` is about to give up the last reference, and nobody else uses the object. -/
def LastUse (s : State Pc2) (t fp : Nat) : Prop :=
  (s.thread t).uses = some fp ∧ (t, fp) ∈ s.refs ∧ outstanding fp s.refs = 1 ∧
    ∀ t', t' ≠ t → (s.thread t').uses ≠ some fp

/-- There is no reference to the object, and only `t` knows it. -/
def Unused (s : State Pc2) (t fp : Nat) : Prop :=
  outstanding fp s.refs = 0 ∧ (s.thread t).owns = some fp ∧
    ∀ t', t' ≠ t → (s.thread t').uses ≠ some fp ∧ (s.thread t').owns ≠ some fp

/-- The table, the references and the counts of the objects in the table are the same. -/
structure SameTable (m : Memory) (m' : Memory) : Prop where
  fh : m'.fh = m.fh
  f_next : m'.f_next = m.f_next
  f_id : m'.f_id = m.f_id
  allocated : m'.allocated = m.allocated
  refs : m'.refs = m.refs
  count : ∀ a, Live m a → m'.f_count a = m.f_count a

/-- Who counts on an object holds a reference to it, or the lock of the table. -/
theorem Inv2.linked_of_uses (h : Inv2 s tbl stage) (hu : (s.thread t).uses = some fp) :
    stage fp = .linked ∧ ((t, fp) ∈ s.refs ∨ (s.thread t).hash = true) := by
  have hat := h.at_ t
  cases hpc : s.thread t <;> rw [hpc] at hu hat <;> cases hu
  case find3 id => exact ⟨h.mem.linked_of_mem hat.2.choose_spec.mem, .inr (by rfl)⟩
  case find4 id => exact ⟨h.mem.linked_of_mem hat.2.choose_spec.mem, .inr (by rfl)⟩
  case rele7 tfp => exact ⟨h.mem.refs t fp hat.1, .inl hat.1⟩
  all_goals exact ⟨h.mem.refs t fp hat, .inl hat⟩

/-- The releaser of the last reference, with `hashlock`. -/
theorem Inv2.lastUse (h : Inv2 s tbl stage) (hu : (s.thread t).uses = some fp)
    (hh : (s.thread t).hash = true) (hr : (t, fp) ∈ s.refs) (hone : s.f_count fp = 1) :
    LastUse s t fp := by
  have hout : outstanding fp s.refs = 1 := by
    have := (h.mem.count fp (h.mem.refs t fp hr)).1
    omega
  refine ⟨hu, hr, hout, fun t' ht hu' => ?_⟩
  rcases (h.linked_of_uses hu').2 with hr' | hh'
  · exact ht (eq_of_outstanding_one hout hr hr')
  · exact h.hash_ne hh ht (h.hash t' hh')

/-- Nobody else knows what a thread owns. -/
theorem Inv2.unused (h : Inv2 s tbl stage) (ho : (s.thread t).owns = some fp) :
    Unused s t fp := by
  have hst : stage fp ≠ .linked := by
    rcases (h.at_ t).owns ho with hs | hs <;> simp [hs]
  exact ⟨h.mem.no_refs hst, ho, fun t' ht => ⟨fun hu => hst (h.linked_of_uses hu).1,
    fun ho' => ht (h.owner t' t fp ho' ho)⟩⟩

/-- Which step takes an object off the table, and which one frees it. -/
theorem act2_event {x : Act} {e : Event} (h : Inv2 s tbl stage) (hs : act2 x s = some s')
    (he : s'.log = s.log ++ [(e, fp)]) :
    (e = .unlink → ∃ t, x = .run t ∧ LastUse s t fp) ∧
    (e = .free → ∃ t, x = .run t ∧ Unused s t fp) := by
  -- a step in which something else happens
  have hother : ∀ {e' fp'}, s.log ++ [(e', fp')] = s.log ++ [(e, fp)] → e' = e ∧ fp' = fp := by
    intro e' fp' heq
    simpa using heq
  have hnone : s.log ≠ s.log ++ [(e, fp)] := by simp
  cases x with
  | alloc t id fp' =>
    simp only [act2] at hs
    split at hs
    · cases hs
      obtain ⟨rfl, rfl⟩ := hother he
      exact ⟨by simp, by simp⟩
    · cases hs
  | call t x =>
    simp only [act2] at hs
    split at hs
    · cases hs
      exact absurd he hnone
    · cases hs
  | run t =>
    by_cases hc : Counts (.run t) s
    case neg =>
      rw [run2_overflow h hc hs] at he
      exact absurd he hnone
    cases run2_cases h hc hs with
    | move => exact absurd he hnone
    | incr => exact absurd he hnone
    | decr => exact absurd he hnone
    | link =>
      obtain ⟨rfl, rfl⟩ := hother he
      exact ⟨by simp, by simp⟩
    | first hpc hr hone =>
      obtain ⟨rfl, rfl⟩ := hother he
      exact ⟨fun _ => ⟨t, rfl, h.lastUse (by rw [hpc]; rfl) (by rw [hpc]; rfl) hr hone⟩,
        by simp⟩
    | behind hpc hr hone =>
      obtain ⟨rfl, rfl⟩ := hother he
      exact ⟨fun _ => ⟨t, rfl, h.lastUse (by rw [hpc]; rfl) (by rw [hpc]; rfl) hr hone⟩,
        by simp⟩
    | free hpc =>
      obtain ⟨rfl, rfl⟩ := hother he
      exact ⟨by simp, fun _ => ⟨t, rfl, h.unused (by rw [hpc]; rfl)⟩⟩

/-- The chains are those of the table. -/
theorem Inv2.onChain (h : Inv2 s tbl stage) (i a : Nat) :
    OnChain s.toMemory i a ↔ a ∈ tbl i := by
  constructor
  · rintro ⟨l, hl, ha⟩
    rwa [hl.unique (h.mem.chain i)] at ha
  · intro ha
    exact ⟨tbl i, h.mem.chain i, ha⟩

/-- **The two versions.** In every run of `mutex2.c` that does not count beyond `INT_MAX`, no thread
comes to the null pointer or to an object that has been freed; what happens to an object happens in
order, so that it is unlinked and freed once; an object in the table has as many references as its count says, and is on the chain of
its id only; it is unlinked at its last use, and freed when nobody knows it; and a run of `mutex3.c`
comes to the same table. -/
theorem two_locks (h : Run act2 init2 Counts s) :
    s.fault = false ∧
    (∀ a, life a s.log ≠ none) ∧
    (∀ a, Live s.toMemory a → s.f_count a = outstanding a s.refs ∧
      ∀ i, OnChain s.toMemory i a ↔ i = HASH (s.f_id a)) ∧
    (∀ x s' fp, act2 x s = some s' →
      (s'.log = s.log ++ [(.unlink, fp)] → ∃ t, x = .run t ∧ LastUse s t fp) ∧
      (s'.log = s.log ++ [(.free, fp)] → ∃ t, x = .run t ∧ Unused s t fp)) ∧
    ∃ u, Run act3 init3 AnyStep u ∧ SameTable s.toMemory u.toMemory := by
  obtain ⟨tbl, stage, hinv⟩ := run_inv2 h
  obtain ⟨c, hrun, hc⟩ := run_sim h
  refine ⟨hinv.mem.fault, fun a => by simp [hinv.mem.life a], fun a ha => ?_,
    fun x s' fp hs => ⟨fun he => (act2_event hinv hs he).1 rfl,
      fun he => (act2_event hinv hs he).2 rfl⟩,
    _, hrun, rfl, rfl, rfl, rfl, rfl, fun a ha => hc a _ ha (.inr rfl)⟩
  have hst : stage a = .linked := Option.some.inj ((hinv.mem.life a).symm.trans ha)
  refine ⟨(hinv.mem.count a hst).1, fun i => ?_⟩
  rw [hinv.onChain, hinv.mem.table]
  exact ⟨fun ⟨_, hi⟩ => hi.symm, fun hi => ⟨hst, hi.symm⟩⟩

/-- A lookup revives an object whose last reference is being released. -/
def revived : List Act :=
  [.alloc 0 5 7, .run 0, .run 0, .run 0, .run 0,
    .call 0 (.foo_rele 7), .run 0, .run 0,
    .call 1 (.foo_find 5), .run 1, .run 1, .run 1, .run 1, .run 1,
    .run 0, .run 0, .run 0, .run 0,
    .call 1 (.foo_rele 7), .run 1, .run 1, .run 1, .run 1, .run 1, .run 1, .run 1, .run 1]

/-- The object is unlinked and freed once, by the second release. -/
theorem two_locks_revived : ∃ s, Run act2 init2 Counts s ∧
    s.log = [(.malloc, 7), (.link, 7), (.unlink, 7), (.free, 7)] ∧ s.fault = false ∧
    ∃ u, Run act3 init3 AnyStep u ∧ SameTable s.toMemory u.toMemory := by
  have hcheck : (performIf act2 (fun x s => decide (Counts x s)) revived init2).any (fun s =>
      s.log = [(.malloc, 7), (.link, 7), (.unlink, 7), (.free, 7)]) = true := by decide +kernel
  obtain ⟨s, hs, hlog⟩ := (Option.any_eq_true _ _).mp hcheck
  have hrun : Run act2 init2 Counts s := Run.of_performIf (fun _ _ => of_decide_eq_true) hs
  obtain ⟨hfault, -, -, -, hu⟩ := two_locks hrun
  exact ⟨s, hrun, of_decide_eq_true hlog, hfault, hu⟩

/-! ## A count that is too large -/

/-- Object 7 is in the table with the count `n`, and thread 0 holds a reference to it. -/
structure Holding (s : State Pc2) (n : Nat) : Prop where
  idle : s.thread 0 = .idle
  ref : (0, 7) ∈ s.refs
  allocated : s.allocated 7 = true
  unlocked : s.f_lock 7 = none
  count : s.f_count 7 = n

/-- A call of `foo_hold` by thread 0. -/
def oneHold : List Act := [.call 0 (.foo_hold 7), .run 0, .run 0]

/-- The thread comes to the increment. -/
theorem Holding.perform_oneHold (h : Holding s n) : ∃ u : State Pc2, u.toMemory = s.toMemory ∧
    perform act2 oneHold s = some (u.hold 0 7 fun s => (s.unlock 7).goto 0 .idle) := by
  let u : State Pc2 := { s with
    f_lock := Function.update s.f_lock 7 (some 0)
    thread := Function.update s.thread 0 (.hold2 7) }
  have hcall : act2 (.call 0 (.foo_hold 7)) s = some (s.goto 0 (.hold1 7)) :=
    if_pos ⟨h.idle, by simp [Call.allowed, h.ref]⟩
  have hlock : act2 (.run 0) (s.goto 0 (.hold1 7)) = some u := by
    simp [u, act2, run2, State.goto, State.lock, State.access, h.allocated, h.unlocked]
  have hcount : act2 (.run 0) u = some (u.hold 0 7 fun s => (s.unlock 7).goto 0 .idle) := by
    simp [u, act2, run2]
  refine ⟨u, rfl, ?_⟩
  simp only [oneHold, perform, hcall, hlock, hcount, Option.bind_some]

/-- One more reference. -/
theorem Holding.next (h : Holding s n) (hlt : n < INT_MAX) :
    ∃ s', perform act2 oneHold s = some s' ∧ Holding s' (n + 1) := by
  obtain ⟨u, hu, hs⟩ := h.perform_oneHold
  have hcount : u.f_count 7 = n := hu ▸ h.count
  have ha : u.allocated 7 = true := hu ▸ h.allocated
  refine ⟨_, hs, ?_⟩
  rw [hold_eq ha (hcount ▸ Int.ofNat_lt.mpr hlt)]
  constructor
  case ref => exact List.mem_cons_self
  case allocated => exact ha
  all_goals simp [State.goto, State.unlock, State.on, Memory.incr, hcount]

/-- The increment that is one too many. -/
theorem Holding.overflow (h : Holding s INT_MAX) :
    ∃ s', perform act2 oneHold s = some s' ∧ s'.fault = true := by
  obtain ⟨u, hu, hs⟩ := h.perform_oneHold
  have hcount : u.f_count 7 = (INT_MAX : Nat) := hu ▸ h.count
  refine ⟨_, hs, ?_⟩
  rw [hold_overflow (hu ▸ h.allocated) hcount.ge]
  rfl

/-- A thread creates an object, and then calls `foo_hold` on it `n` times. -/
theorem exists_holding {n : Nat} (hn : n < INT_MAX) :
    ∃ s, Run act2 init2 AnyStep s ∧ Holding s (n + 1) := by
  induction n with
  | zero =>
    have hs : perform act2 [.alloc 0 5 7, .run 0, .run 0, .run 0, .run 0] init2 = some _ := rfl
    exact ⟨_, Run.of_perform hs, rfl, List.mem_cons_self, rfl, rfl, rfl⟩
  | succ n ih =>
    obtain ⟨s, hrun, hs⟩ := ih (Nat.lt_of_succ_lt hn)
    obtain ⟨s', hs', hnext⟩ := hs.next hn
    exact ⟨s', hrun.perform_from hs', hnext⟩

/-- An object that its creator holds and then calls `foo_hold` on `INT_MAX` times. -/
theorem two_locks_overflow : ¬ ∀ s, Run act2 init2 AnyStep s → s.fault = false ∧
    ∀ a, Live s.toMemory a → s.f_count a = outstanding a s.refs := by
  intro hall
  obtain ⟨s, hrun, hs⟩ := exists_holding (n := INT_MAX - 1) (by decide)
  obtain ⟨s', hs', hfault⟩ := hs.overflow
  exact Bool.false_ne_true ((hall s' (hrun.perform_from hs')).1.symm.trans hfault)

end LearningNotes.Foo
