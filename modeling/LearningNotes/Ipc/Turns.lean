import LearningNotes.Ipc.Tellwait

/-!
# Whose turn it is

`HasTurn n p s` says that `p` has the turn: it works, tells the other, or has been told to go on;
the other one waits and nothing is pending for it, or it is done. Every action keeps this, wherever
a signal is delivered (`act_turn`), so that the work strictly alternates in every run
(`run_alternates`).

What may go wrong is that the one that has been told does not notice. After its first `WAIT_*` a
process has its old mask, and when the signal arrives between the test of `sigflag` and
`sigsuspend`, the process suspends all the same (`gap_stuck`). When no signal arrives there, nobody
is stuck (`run_turns`); so it is when the mask before `TELL_WAIT` blocks both signals
(`run_of_blocked`).
-/

namespace LearningNotes.Tellwait

variable {n : Nat} {mask : Sig → Bool} {p q : Who} {sig : Sig} {s s' : State} {x : Proc}

/-! ## The parts of a state -/

@[simp] theorem Who.other_ne (p : Who) : p.other ≠ p := by
  cases p <;> simp [Who.other]

theorem Who.eq_other (h : q ≠ p) : q = p.other := by
  cases p <;> cases q <;> simp_all [Who.other]

@[simp] theorem set_self (s : State) (p : Who) (x : Proc) : (s.set p x).proc p = x := by
  simp [State.set]

theorem set_other (s : State) (x : Proc) (h : q ≠ p) : (s.set p x).proc q = s.proc q := by
  simp [State.set, h]

@[simp] theorem set_log (s : State) (p : Who) (x : Proc) : (s.set p x).log = s.log := rfl

@[simp] theorem set_area (s : State) (p : Who) (x : Proc) : (s.set p x).area = s.area := rfl

/-! ## Waiting and having the turn -/

/-- In the loop of `WAIT_*`. -/
def Proc.Waits (x : Proc) : Prop :=
  x.pc = .test ∨ x.pc = .suspend ∨ x.pc = .suspended

/-- No signal has arrived that has not been taken care of. -/
structure Proc.Calm (x : Proc) : Prop where
  flag : x.sigflag = false
  quiet : x.pending = fun _ => false

/-- It waits for the other one, or is done. -/
structure Idle (n : Nat) (x : Proc) : Prop where
  calm : x.Calm
  pc : x.Waits ∧ x.i < n ∨ x.pc = .done ∧ x.i = n

/-- It has been told and is on its way out of `WAIT_*`. -/
inductive Told (p : Who) (x : Proc) : Prop where
  /-- the signal is on its way -/
  | pending (hw : x.Waits) (hf : x.sigflag = false)
      (hp : x.pending = Function.update (fun _ => false) p.sig true)
  /-- the handler has run -/
  | flagged (hw : x.Waits ∨ x.pc = .clear) (hf : x.sigflag = true)
      (hp : x.pending = fun _ => false)
  | restore (hc : x.Calm) (hpc : x.pc = .restore)

/-- `x` has the turn, with `len` works done so far and `j` the round of the other process. -/
inductive Busy (x : Proc) (len j : Nat) : Who → Prop where
  | parentWork (hc : x.Calm) (hpc : x.pc = .work) (hl : len = 2 * x.i) (hj : j = x.i) :
      Busy x len j .parent
  | parentTell (hc : x.Calm) (hpc : x.pc = .tell) (hl : len = 2 * x.i + 1) (hj : j = x.i) :
      Busy x len j .parent
  | parentTold (h : Told .parent x) (hl : len = 2 * x.i + 2) (hj : j = x.i + 1) :
      Busy x len j .parent
  | childTold (h : Told .child x) (hl : len = 2 * x.i + 1) (hj : j = x.i) : Busy x len j .child
  | childWork (hc : x.Calm) (hpc : x.pc = .work) (hl : len = 2 * x.i + 1) (hj : j = x.i) :
      Busy x len j .child
  | childTell (hc : x.Calm) (hpc : x.pc = .tell) (hl : len = 2 * x.i + 2) (hj : j = x.i) :
      Busy x len j .child

structure HasTurn (n : Nat) (p : Who) (s : State) : Prop where
  busy : Busy (s.proc p) s.log.length (s.proc p.other).i p
  idle : Idle n (s.proc p.other)
  lt : (s.proc p).i < n

/-- One of the two has the turn, or both are done. -/
structure Turn (n : Nat) (s : State) : Prop where
  has : (∃ p, HasTurn n p s) ∨ ∀ p, (s.proc p).pc = .done ∧ (s.proc p).Calm
  area : s.area = s.log.length
  alternates : Alternates s.log

theorem alternates_snoc {log : List Who} (h : Alternates log)
    (hp : p = if log.length % 2 = 0 then .parent else .child) : Alternates (log ++ [p]) := by
  intro i w hw
  by_cases hi : i < log.length
  · rw [List.getElem?_append_left hi] at hw
    exact h i w hw
  · have hlt : i < (log ++ [p]).length := (List.getElem?_eq_some_iff.mp hw).1
    rw [List.length_append, List.length_singleton] at hlt
    have he : i = log.length := by omega
    subst he
    rw [List.getElem?_concat_length] at hw
    cases hw
    exact hp

/-! ## One step -/

/-- Nothing can be delivered to a process for which nothing is pending. -/
theorem Proc.Calm.delivers (h : x.Calm) (sig : Sig) : x.delivers sig = false := by
  simp [Proc.delivers, h.quiet]

/-- The one that waits goes round in its loop. -/
theorem idle_run (h : Idle n (s.proc q)) (hs : runProc n q s = some s') :
    ∃ x, s' = s.set q x ∧ Idle n x ∧ x.i = (s.proc q).i := by
  obtain ⟨⟨hf, hq⟩, ⟨hpc | hpc | hpc, hi⟩ | ⟨hpc, -⟩⟩ := h
  · simp only [runProc, hpc, hf, Option.some.injEq] at hs
    exact ⟨_, hs.symm, ⟨⟨rfl, hq⟩, .inl ⟨.inr (.inl rfl), hi⟩⟩, rfl⟩
  · simp only [runProc, hpc, Option.some.injEq] at hs
    exact ⟨_, hs.symm, ⟨⟨hf, hq⟩, .inl ⟨.inr (.inr rfl), hi⟩⟩, rfl⟩
  · simp [runProc, hpc] at hs
  · simp [runProc, hpc] at hs

/-- The signal of a process that has been told is delivered. -/
theorem told_deliver (h : Told p (s.proc p)) (hs : deliver p sig s = some s') :
    ∃ x, s' = s.set p x ∧ Told p x ∧ x.i = (s.proc p).i := by
  unfold deliver at hs
  dsimp only at hs
  split at hs
  next hd =>
    cases hs
    refine ⟨_, rfl, ?_, rfl⟩
    cases h with
    | pending hw hf hp =>
      have hsig : sig = p.sig := by
        by_contra hne
        simp [Proc.delivers, hp, hne] at hd
      subst hsig
      refine .flagged (.inl ?_) rfl ?_
      · rcases hw with hw | hw | hw <;> simp [Proc.Waits, hw]
      · dsimp only
        rw [hp, Function.update_idem, Function.update_eq_self_iff]
    | flagged hw hf hp => simp [Proc.delivers, hp] at hd
    | restore hc hpc => simp [hc.delivers] at hd
  next => cases hs

/-- The one that has been told leaves its loop; `restore` is the last step. -/
theorem told_run (h : Told p (s.proc p)) (hpc : (s.proc p).pc ≠ .restore)
    (hs : runProc n p s = some s') :
    ∃ x, s' = s.set p x ∧ Told p x ∧ x.i = (s.proc p).i := by
  cases h with
  | pending hw hf hp =>
    rcases hw with hw | hw | hw
    · simp only [runProc, hw, hf, Option.some.injEq] at hs
      exact ⟨_, hs.symm, .pending (.inr (.inl rfl)) rfl hp, rfl⟩
    · simp only [runProc, hw, Option.some.injEq] at hs
      exact ⟨_, hs.symm, .pending (.inr (.inr rfl)) hf hp, rfl⟩
    · simp [runProc, hw] at hs
  | flagged hw hf hp =>
    rcases hw with (hw | hw | hw) | hw
    · simp only [runProc, hw, hf, Option.some.injEq] at hs
      exact ⟨_, hs.symm, .flagged (.inr rfl) rfl hp, rfl⟩
    · simp only [runProc, hw, Option.some.injEq] at hs
      exact ⟨_, hs.symm, .flagged (.inl (.inr (.inr rfl))) hf hp, rfl⟩
    · simp [runProc, hw] at hs
    · simp only [runProc, hw, Option.some.injEq] at hs
      exact ⟨_, hs.symm, .restore ⟨rfl, hp⟩ rfl, rfl⟩
  | restore hc hr => exact absurd hr hpc

theorem Told.pc_ne (h : Told p x) : x.pc ≠ .work ∧ x.pc ≠ .tell := by
  cases h with
  | pending hw hf hp => rcases hw with hw | hw | hw <;> simp [hw]
  | flagged hw hf hp => rcases hw with (hw | hw | hw) | hw <;> simp [hw]
  | restore hc hpc => simp [hpc]

theorem Told.calm (h : Told p x) (hpc : x.pc = .restore) : x.Calm := by
  cases h with
  | pending hw hf hp => rcases hw with hw | hw | hw <;> simp [hw] at hpc
  | flagged hw hf hp => rcases hw with (hw | hw | hw) | hw <;> simp [hw] at hpc
  | restore hc _ => exact hc

/-- A process that stays told keeps the turn. -/
theorem HasTurn.stay {y : Proc} (h : HasTurn n p s) (ht : Told p (s.proc p)) (hy : Told p y)
    (hi : y.i = (s.proc p).i) : HasTurn n p (s.set p y) := by
  obtain ⟨hb, hidle, hlt⟩ := h
  have ho : (s.set p y).proc p.other = s.proc p.other := set_other s y p.other_ne
  refine ⟨?_, by rwa [ho], by rwa [set_self, hi]⟩
  rw [set_self, ho, set_log]
  cases hb with
  | parentTold _ hl hj => exact .parentTold hy (by omega) (by omega)
  | childTold _ hl hj => exact .childTold hy (by omega) (by omega)
  | parentWork hc hpc => exact absurd hpc ht.pc_ne.1
  | parentTell hc hpc => exact absurd hpc ht.pc_ne.2
  | childWork hc hpc => exact absurd hpc ht.pc_ne.1
  | childTell hc hpc => exact absurd hpc ht.pc_ne.2

/-- The other one moves in its loop. -/
theorem HasTurn.other {y : Proc} (h : HasTurn n p s) (hy : Idle n y)
    (hi : y.i = (s.proc p.other).i) : HasTurn n p (s.set p.other y) := by
  obtain ⟨hb, hidle, hlt⟩ := h
  have hp : (s.set p.other y).proc p = s.proc p := set_other s y p.other_ne.symm
  exact ⟨by rwa [hp, set_self, hi, set_log], by rwa [set_self], by rwa [hp]⟩

theorem Idle.waits (h : Idle n x) (hi : x.i < n) : x.Waits := by
  rcases h.pc with ⟨hw, -⟩ | ⟨-, he⟩
  · exact hw
  · omega

theorem Idle.done (h : Idle n x) (hi : x.i = n) : x.pc = .done := by
  rcases h.pc with ⟨-, hl⟩ | ⟨hpc, -⟩
  · omega
  · exact hpc

/-- The signal wakes one that waits. -/
theorem Idle.told (h : Idle n x) (hi : x.i < n) (q : Who) :
    Told q { x with pending := Function.update x.pending q.sig true } :=
  .pending (h.waits hi) h.calm.flag (by rw [h.calm.quiet])

/-- `TELL_CHILD` hands the turn over. -/
theorem tell_child (h : HasTurn n .parent s) (hpc : (s.proc .parent).pc = .tell) :
    HasTurn n .child ((s.set .parent { s.proc .parent with pc := .test }).kill .child) := by
  obtain ⟨hb, hidle, hlt⟩ := h
  change Busy _ _ (s.proc .child).i _ at hb
  change Idle n (s.proc .child) at hidle
  cases hb with
  | parentWork hc hw => simp [hw] at hpc
  | parentTold ht => exact absurd hpc ht.pc_ne.2
  | parentTell hc _ hl hj =>
    have hi : (s.proc .child).i < n := by omega
    refine ⟨?_, ?_, by simpa [State.kill, State.set] using hi⟩
    · refine .childTold ?_ ?_ ?_
      · simpa [State.kill, State.set] using hidle.told hi .child
      · simpa [State.kill, State.set, hj] using hl
      · simp [State.kill, State.set, Who.other, hj]
    · refine ⟨?_, .inl ⟨.inl ?_, ?_⟩⟩
      · simpa [State.kill, State.set, Who.other] using ⟨hc.flag, hc.quiet⟩
      · simp [State.kill, State.set, Who.other]
      · simpa [State.kill, State.set, Who.other] using hlt

/-- `TELL_PARENT` hands the turn over. -/
theorem tell_parent (h : HasTurn n .child s) (hpc : (s.proc .child).pc = .tell) :
    HasTurn n .parent ((s.set .child ((s.proc .child).next n .test)).kill .parent) := by
  obtain ⟨hb, hidle, hlt⟩ := h
  change Busy _ _ (s.proc .parent).i _ at hb
  change Idle n (s.proc .parent) at hidle
  cases hb with
  | childWork hc hw => simp [hw] at hpc
  | childTold ht => exact absurd hpc ht.pc_ne.2
  | childTell hc _ hl hj =>
    have hi : (s.proc .parent).i < n := by omega
    refine ⟨?_, ?_, by simpa [State.kill, State.set] using hi⟩
    · refine .parentTold ?_ ?_ ?_
      · simpa [State.kill, State.set] using hidle.told hi .parent
      · simpa [State.kill, State.set, hj] using hl
      · simp [State.kill, State.set, Who.other, Proc.next, hj]
    · refine ⟨?_, ?_⟩
      · simpa [State.kill, State.set, Who.other, Proc.next] using ⟨hc.flag, hc.quiet⟩
      · by_cases hn : (s.proc .child).i + 1 < n
        · exact .inl ⟨.inl (by simp [State.kill, State.set, Who.other, Proc.next, hn]),
            by simpa [State.kill, State.set, Who.other, Proc.next] using hn⟩
        · exact .inr ⟨by simp [State.kill, State.set, Who.other, Proc.next, hn],
            by simp [State.kill, State.set, Who.other, Proc.next]; omega⟩

/-- The one at `update` reads what it expects, and then tells the other. -/
theorem work_turn (h : HasTurn n p s) (hpc : (s.proc p).pc = .work)
    (ha : s.area = s.log.length) :
    s.area = counter p (s.proc p).i ∧ (p = if s.log.length % 2 = 0 then .parent else .child) ∧
      HasTurn n p { s.set p { s.proc p with pc := .tell } with
        area := s.area + 1, log := s.log ++ [p] } := by
  obtain ⟨hb, hidle, hlt⟩ := h
  have ho : (s.set p { s.proc p with pc := .tell }).proc p.other = s.proc p.other :=
    set_other s _ p.other_ne
  have hlen : (s.log ++ [p]).length = s.log.length + 1 := by simp
  cases hb with
  | parentTell hc ht => simp [ht] at hpc
  | parentTold ht => exact absurd hpc ht.pc_ne.1
  | childTold ht => exact absurd hpc ht.pc_ne.1
  | childTell hc ht => simp [ht] at hpc
  | parentWork hc _ hl hj =>
    refine ⟨ha.trans hl, by rw [if_pos (by omega)], ?_, by rwa [ho], by rwa [set_self]⟩
    rw [set_self, ho, hlen]
    exact .parentTell ⟨hc.flag, hc.quiet⟩ rfl (congrArg (· + 1) hl) hj
  | childWork hc _ hl hj =>
    refine ⟨ha.trans hl, by rw [if_neg (by omega)], ?_, by rwa [ho], by rwa [set_self]⟩
    rw [set_self, ho, hlen]
    exact .childTell ⟨hc.flag, hc.quiet⟩ rfl (congrArg (· + 1) hl) hj

/-- `WAIT_CHILD` returns: the next round, if there is one. -/
theorem restore_parent (h : HasTurn n .parent s) (hpc : (s.proc .parent).pc = .restore)
    (hs : runProc n .parent s = some s') :
    HasTurn n .parent s' ∨ ∀ p, (s'.proc p).pc = .done ∧ (s'.proc p).Calm := by
  obtain ⟨hb, hidle, hlt⟩ := h
  change Busy _ _ (s.proc .child).i _ at hb
  change Idle n (s.proc .child) at hidle
  simp only [runProc, hpc, Option.some.injEq] at hs
  subst hs
  cases hb with
  | parentWork hc hw => simp [hw] at hpc
  | parentTell hc ht => simp [ht] at hpc
  | parentTold ht hl hj =>
    have hcalm := ht.calm hpc
    by_cases hn : (s.proc .parent).i + 1 < n
    · refine .inl ⟨?_, ?_, by simpa [Proc.next] using hn⟩
      · rw [set_self, set_other s _ Who.parent.other_ne, set_log]
        refine .parentWork ⟨hcalm.flag, hcalm.quiet⟩ (by simp [Proc.next, hn]) ?_ hj
        rw [hl, Proc.next, Nat.mul_add]
      · rw [set_other s _ Who.parent.other_ne]
        exact hidle
    · refine .inr fun p => ?_
      cases p with
      | parent => simpa [Proc.next, hn] using ⟨hcalm.flag, hcalm.quiet⟩
      | child =>
        rw [set_other s _ (by decide : Who.child ≠ .parent)]
        exact ⟨hidle.done (by omega), hidle.calm⟩

/-- `WAIT_PARENT` returns. -/
theorem restore_child (h : HasTurn n .child s) (hpc : (s.proc .child).pc = .restore)
    (hs : runProc n .child s = some s') : HasTurn n .child s' := by
  obtain ⟨hb, hidle, hlt⟩ := h
  simp only [runProc, hpc, Option.some.injEq] at hs
  subst hs
  cases hb with
  | childWork hc hw => simp [hw] at hpc
  | childTell hc ht => simp [ht] at hpc
  | childTold ht hl hj =>
    have hcalm := ht.calm hpc
    have ho := set_other s { s.proc .child with mask := (s.proc .child).oldmask, pc := .work }
      Who.child.other_ne
    refine ⟨?_, by rwa [ho], by rwa [set_self]⟩
    rw [set_self, ho, set_log]
    exact .childWork ⟨hcalm.flag, hcalm.quiet⟩ rfl hl hj

/-- `runProc` leaves what only `update` changes. -/
theorem runProc_log (hpc : (s.proc p).pc ≠ .work) (hs : runProc n p s = some s') :
    s'.area = s.area ∧ s'.log = s.log := by
  unfold runProc at hs
  dsimp only at hs
  split at hs <;> first | contradiction | (try split at hs) <;> cases hs <;> exact ⟨rfl, rfl⟩

/-- One step of the process that has the turn. -/
theorem busy_run (h : Turn n s) (hp : HasTurn n p s) (hs : runProc n p s = some s') :
    Turn n s' := by
  by_cases hw : (s.proc p).pc = .work
  · obtain ⟨hc, ha, hnext⟩ := work_turn hp hw h.area
    simp only [runProc, hw, if_pos hc, Option.some.injEq] at hs
    subst hs
    refine ⟨.inl ⟨p, hnext⟩, ?_, alternates_snoc h.alternates ha⟩
    simp [h.area]
  obtain ⟨harea, hlog⟩ := runProc_log hw hs
  refine ⟨?_, by rw [harea, hlog, h.area], hlog ▸ h.alternates⟩
  by_cases ht : (s.proc p).pc = .tell
  · cases p with
    | parent =>
      simp only [runProc, ht, Option.some.injEq] at hs
      subst hs
      exact .inl ⟨.child, tell_child hp ht⟩
    | child =>
      simp only [runProc, ht, Option.some.injEq] at hs
      subst hs
      exact .inl ⟨.parent, tell_parent hp ht⟩
  by_cases hr : (s.proc p).pc = .restore
  · cases p with
    | parent => exact (restore_parent hp hr hs).imp_left fun h => ⟨_, h⟩
    | child => exact .inl ⟨_, restore_child hp hr hs⟩
  have htold : Told p (s.proc p) := by
    cases hp.busy with
    | parentTold h => exact h
    | childTold h => exact h
    | parentWork _ hpc => exact absurd hpc hw
    | childWork _ hpc => exact absurd hpc hw
    | parentTell _ hpc => exact absurd hpc ht
    | childTell _ hpc => exact absurd hpc ht
  obtain ⟨y, rfl, hy, hi⟩ := told_run htold hr hs
  exact .inl ⟨p, hp.stay htold hy hi⟩

/-- A process for which a signal is pending has been told. -/
theorem Busy.told {len j : Nat} (h : Busy x len j p) (hd : x.delivers sig = true) : Told p x := by
  cases h with
  | parentTold h => exact h
  | childTold h => exact h
  | parentWork hc => simp [hc.delivers] at hd
  | parentTell hc => simp [hc.delivers] at hd
  | childWork hc => simp [hc.delivers] at hd
  | childTell hc => simp [hc.delivers] at hd

theorem delivers_of (hs : deliver p sig s = some s') : (s.proc p).delivers sig = true := by
  unfold deliver at hs
  dsimp only at hs
  split at hs
  · assumption
  · cases hs

/-- **One step.** Every action keeps the turn in order. -/
theorem act_turn {a : Act} (h : Turn n s) (hs : act n a s = some s') : Turn n s' := by
  rcases h.has with ⟨p, hp⟩ | hdone
  · cases a with
    | run q =>
      by_cases hq : q = p
      · subst hq
        exact busy_run h hp hs
      · cases Who.eq_other hq
        obtain ⟨y, rfl, hy, hi⟩ := idle_run hp.idle hs
        exact ⟨.inl ⟨p, hp.other hy hi⟩, h.area, h.alternates⟩
    | deliver q sig =>
      have hd := delivers_of hs
      by_cases hq : q = p
      · subst hq
        have htold := hp.busy.told hd
        obtain ⟨y, rfl, hy, hi⟩ := told_deliver htold hs
        exact ⟨.inl ⟨q, hp.stay htold hy hi⟩, h.area, h.alternates⟩
      · cases Who.eq_other hq
        simp [hp.idle.calm.delivers] at hd
  · cases a with
    | run q => simp [act, runProc, (hdone q).1] at hs
    | deliver q sig =>
      have hd := delivers_of hs
      simp [(hdone q).2.delivers] at hd

theorem init_turn (n : Nat) (mask : Sig → Bool) : Turn n (init n mask) := by
  refine ⟨?_, rfl, fun i w hw => by simp [init] at hw⟩
  by_cases hn : 0 < n
  · refine .inl ⟨.parent, ?_, ⟨⟨rfl, rfl⟩, .inl ⟨.inl ?_, hn⟩⟩, hn⟩
    · exact .parentWork ⟨rfl, rfl⟩ (by simp [init, hn]) rfl rfl
    · simp [init, Who.other, hn]
  · refine .inr fun p => ?_
    cases p <;> exact ⟨by simp [init, hn], rfl, rfl⟩

theorem run_turn {C : Act → State → Prop} (h : Run (act n) (init n mask) C s) : Turn n s :=
  h.inv (init_turn n mask) fun _ _ _ _ _ hs hi => act_turn hi hs

/-- **The processes take turns**, wherever the signals are delivered. -/
theorem run_alternates {C : Act → State → Prop} (h : Run (act n) (init n mask) C s) :
    Alternates s.log :=
  (run_turn h).alternates

/-! ## A signal that is not noticed -/

/-- It has been told, but has suspended or is about to. -/
def Lost (p : Who) (s : State) : Prop :=
  (s.proc p).sigflag = true ∧ ((s.proc p).pc = .suspend ∨ (s.proc p).pc = .suspended)

@[simp] theorem kill_lost (s : State) (p q : Who) : Lost p (s.kill q) ↔ Lost p s := by
  by_cases h : p = q
  · subst h
    simp [Lost, State.kill]
  · simp [Lost, State.kill, set_other s _ h]

/-- A change of one process says nothing of the other. -/
theorem set_lost_other {y : Proc} (h : p ≠ q) : Lost p (s.set q y) ↔ Lost p s := by
  rw [Lost, set_other s y h, Lost]

@[simp] theorem set_lost (s : State) (p : Who) (x : Proc) :
    Lost p (s.set p x) ↔ x.sigflag = true ∧ (x.pc = .suspend ∨ x.pc = .suspended) := by
  rw [Lost, set_self]

/-- A step of the process itself: it only suspends when it has seen no signal. -/
theorem run_noticed (h : ¬ Lost p s) (hs : runProc n q s = some s') : ¬ Lost p s' := by
  -- only the state of `q` changes
  have hmove : ∀ {y : Proc}, (¬ Lost q s → ¬ (y.sigflag = true ∧ (y.pc = .suspend ∨ y.pc = .suspended))) →
      ¬ Lost p (s.set q y) := by
    intro y hy
    by_cases hp : p = q
    · subst hp
      rw [set_lost]
      exact hy h
    · rwa [set_lost_other hp]
  unfold runProc at hs
  cases hpc : (s.proc q).pc with
  | work =>
    simp only [hpc] at hs
    split at hs <;> cases hs <;> exact hmove fun _ => by simp
  | tell =>
    cases q <;> simp only [hpc] at hs <;> cases hs <;> rw [kill_lost]
    · exact hmove fun _ => by simp
    · refine hmove fun _ => ?_
      simp only [Proc.next]
      split <;> simp
  | test =>
    simp only [hpc] at hs
    cases hs
    refine hmove fun _ => ?_
    cases (s.proc q).sigflag <;> simp
  | suspend =>
    simp only [hpc] at hs
    cases hs
    exact hmove fun hq => by simpa [Lost, hpc] using hq
  | suspended => simp [hpc] at hs
  | clear =>
    simp only [hpc] at hs
    cases hs
    exact hmove fun _ => by simp
  | restore =>
    cases q <;> simp only [hpc] at hs <;> cases hs
    · refine hmove fun _ => ?_
      simp only [Proc.next]
      split <;> simp
    · exact hmove fun _ => by simp
  | done => simp [hpc] at hs
  | failed => simp [hpc] at hs

/-- Only a signal that is delivered between the test and `sigsuspend` goes unnoticed. -/
theorem act_noticed {a : Act} (h : ∀ p, ¬ Lost p s) (hc : NotBetween a s)
    (hs : act n a s = some s') : ∀ p, ¬ Lost p s' := by
  intro p
  cases a with
  | run q => exact run_noticed (h p) hs
  | deliver q sig =>
    simp only [act, deliver] at hs
    split at hs
    next =>
      cases hs
      by_cases hq : p = q
      · subst hq
        have hne : (s.proc p).pc ≠ .suspend := hc
        rw [set_lost]
        split
        · simp
        · simp [*]
      · rw [set_lost_other hq]
        exact h p
    next => cases hs

/-- When both wait for good, the one that has the turn has not noticed. -/
theorem Turn.lost (h : Turn n s) (hs : Stuck s) : ∃ p, Lost p s := by
  rcases h.has with ⟨p, hp⟩ | hdone
  · have hpc := (hs p).1
    have htold : Told p (s.proc p) := by
      cases hp.busy with
      | parentTold h => exact h
      | childTold h => exact h
      | parentWork _ hw => simp [hpc] at hw
      | childWork _ hw => simp [hpc] at hw
      | parentTell _ ht => simp [hpc] at ht
      | childTell _ ht => simp [hpc] at ht
    cases htold with
    | pending _ _ hpend => simpa [hpend] using (hs p).2 p.sig
    | flagged _ hf _ => exact ⟨p, hf, .inr hpc⟩
    | restore _ hr => simp [hpc] at hr
  · exact absurd (hdone .parent).1 (by simp [(hs .parent).1])

/-- A process that has not noticed never goes on: nobody sends it another signal. -/
theorem lost_forever {a : Act} (h : Turn n s) (hl : Lost p s) (hs : act n a s = some s') :
    Lost p s' := by
  have hp : HasTurn n p s := by
    rcases h.has with ⟨q, hq⟩ | hdone
    · by_cases hpq : p = q
      · exact hpq ▸ hq
      · cases Who.eq_other hpq
        exact absurd hl.1 (by simp [hq.idle.calm.flag])
    · exact absurd hl.1 (by simp [(hdone p).2.flag])
  by_cases hq : ∃ q y, q ≠ p ∧ s' = s.set q y
  · obtain ⟨q, y, hne, rfl⟩ := hq
    exact (set_lost_other hne.symm).mpr hl
  cases a with
  | run q =>
    by_cases hqp : q = p
    · subst hqp
      rcases hl with ⟨hf, hpc | hpc⟩
      · simp only [act, runProc, hpc, Option.some.injEq] at hs
        subst hs
        rw [set_lost]
        exact ⟨hf, .inr rfl⟩
      · simp [act, runProc, hpc] at hs
    · cases Who.eq_other hqp
      obtain ⟨y, rfl, -⟩ := idle_run hp.idle hs
      exact absurd ⟨_, y, hqp, rfl⟩ hq
  | deliver q sig =>
    have hd := delivers_of hs
    by_cases hqp : q = p
    · subst hqp
      have htold := hp.busy.told hd
      cases htold with
      | pending _ hf _ => exact absurd hl.1 (by simp [hf])
      | flagged _ _ hpend => simp [Proc.delivers, hpend] at hd
      | restore hc _ => simp [hc.delivers] at hd
    · cases Who.eq_other hqp
      simp [hp.idle.calm.delivers] at hd

/-- Blocked signals stay blocked, outside `sigsuspend`. -/
def Blocked (s : State) : Prop :=
  ∀ p sig, (s.proc p).mask sig = true ∧ (s.proc p).oldmask sig = true

theorem act_blocked {a : Act} (h : Blocked s) (hs : act n a s = some s') : Blocked s' := by
  have hset : ∀ {t : State} {q : Who} {y : Proc}, Blocked t →
      (∀ sig, y.mask sig = true ∧ y.oldmask sig = true) → Blocked (t.set q y) := by
    intro t q y ht hy p
    by_cases hp : p = q
    · subst hp
      rwa [set_self]
    · rw [set_other t y hp]
      exact ht p
  have hkill : ∀ {t : State} {q : Who}, Blocked t → Blocked (t.kill q) :=
    fun ht => hset ht (ht _)
  cases a with
  | deliver q sig =>
    simp only [act, deliver] at hs
    split at hs <;> cases hs
    exact hset h (h q)
  | run q =>
    simp only [act, runProc] at hs
    split at hs
    · split at hs <;> cases hs <;> exact hset h (h q)
    · split at hs <;> cases hs <;> exact hkill (hset h (h _))
    · cases hs
      exact hset h (h q)
    · cases hs
      exact hset h (h q)
    · cases hs
    · cases hs
      exact hset h (h q)
    · split at hs <;> cases hs <;> exact hset h fun sig => ⟨(h _ sig).2, (h _ sig).2⟩
    · cases hs
    · cases hs

/-- When the mask before `TELL_WAIT` blocks both signals, they only arrive in `sigsuspend`. -/
theorem run_of_blocked (hm : ∀ sig, mask sig = true)
    (h : Run (act n) (init n mask) AnyStep s) : Run (act n) (init n mask) NotBetween s := by
  refine h.mono fun a t t' ht _ hs => ?_
  have hb : Blocked t :=
    ht.inv (fun p sig => by cases p <;> exact ⟨rfl, hm sig⟩) fun _ _ _ _ _ hs hi => act_blocked hi hs
  cases a with
  | run q => trivial
  | deliver q sig =>
    intro hpc
    have hd := delivers_of hs
    simp [Proc.delivers, hpc, (hb q sig).1] at hd

/-- **Taking turns.** When no signal is delivered between the test and `sigsuspend`, the work
alternates and nobody is stuck. -/
theorem run_turns (h : Run (act n) (init n mask) NotBetween s) :
    Alternates s.log ∧ ¬ Stuck s := by
  refine ⟨run_alternates h, fun hstuck => ?_⟩
  obtain ⟨p, hp⟩ := (run_turn h).lost hstuck
  have hnone : ∀ p, ¬ Lost p s := by
    refine h.inv ?_ fun _ _ _ _ hc hs hi => act_noticed hi hc hs
    intro q hq
    cases q <;> exact absurd hq.1 (by simp [init])
  exact hnone p hp

/-- One round in which the signals arrive in `sigsuspend`. -/
def oneRound : List Act :=
  [.run .parent, .run .child, .run .child, .run .parent, .deliver .child .usr1, .run .child,
    .run .child, .run .child, .run .child, .run .parent, .run .parent, .run .child,
    .deliver .parent .usr2, .run .parent, .run .parent, .run .parent]

/-- Both have had their turn, and nobody is stuck. -/
theorem run_turns_round : ∃ s, perform (act 1) oneRound (init 1 fun _ => true) = some s ∧
    s.log = [.parent, .child] ∧ Alternates s.log ∧ ¬ Stuck s := by
  have hrun : ∃ s, perform (act 1) oneRound (init 1 fun _ => true) = some s ∧
      s.log = [.parent, .child] := ⟨_, rfl, rfl⟩
  obtain ⟨s, hs, hlog⟩ := hrun
  exact ⟨s, hs, hlog, run_turns (run_of_blocked (fun _ => rfl) (Run.of_perform hs))⟩

/-- Two rounds in which the child is told between its test and `sigsuspend`. -/
def lateSignal : List Act :=
  [.run .parent, .run .parent, .run .parent, .run .parent,
    .run .child, .run .child, .deliver .child .usr1, .run .child, .run .child, .run .child,
    .run .child, .run .child,
    .deliver .parent .usr2, .run .parent, .run .parent, .run .parent, .run .parent,
    .run .child, .run .parent, .deliver .child .usr1, .run .child,
    .run .parent, .run .parent]

/-- In the second round the signals are not blocked, and then both processes may wait for good. -/
theorem late_signal_stuck :
    ¬ ∀ (n : Nat) (mask : Sig → Bool) (s : State), Run (act n) (init n mask) AnyStep s →
      Alternates s.log ∧ ¬ Stuck s := by
  intro h
  have hstuck : ∃ s, perform (act 2) lateSignal (init 2 fun _ => false) = some s ∧ Stuck s := by
    refine ⟨_, rfl, fun p => ?_⟩
    cases p
    · exact ⟨rfl, fun sig => by cases sig <;> rfl⟩
    · exact ⟨rfl, fun sig => by cases sig <;> rfl⟩
  obtain ⟨s, hs, hst⟩ := hstuck
  exact (h 2 _ s (Run.of_perform hs)).2 hst

end LearningNotes.Tellwait
