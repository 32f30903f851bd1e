import LearningNotes.Lib.Prog
import Mathlib.Logic.Function.Basic
import Mathlib.Logic.Relation

/-!
# Processes that take turns

A machine has a state that its processes share. Each process makes one call after the other; a
call is a program, and between two operations of it the others may do any number of theirs
(`Machine.Step`). The log of a run says what has happened, in order.

An `Argument` proves something of every configuration that can be reached. It consists of a
`wp` for each call, under rules that say what a process promises and what it relies on, and of
the proof that a promise of one process is what all the others rely on. `Argument.reach` is its
soundness. The ghost state may be tied to the log, so that what is proved may be about the log.
-/

namespace LearningNotes

variable {π Op : Type} {Res : Op → Type} {ε σ τ γ ρ L : Type}

/-- How the processes `π` act on the shared state `σ`: what an operation does, what the program
of a call is, and what the end of a process does. `L` is what a process keeps to itself from one
call to the next. -/
structure Machine (π Op : Type) (Res : Op → Type) (ε σ γ ρ L : Type) where
  step : π → (o : Op) → σ → Option (Res o × σ)
  code : γ → L → Prog Op Res ε (ρ × L)
  leave : π → σ → σ

/-- What happens in a run. -/
inductive Event (π Op ε γ ρ : Type) where
  | call (p : π) (c : γ)
  | op (p : π) (o : Op)
  | ret (p : π) (r : ρ)
  | stop (p : π) (e : ε)

/-- What a process is doing: nothing, or the rest of a call. -/
inductive Task (Op : Type) (Res : Op → Type) (ε γ ρ L : Type) where
  | idle (l : L)
  | busy (c : γ) (m : Prog Op Res ε (ρ × L))
  | gone

/-- All processes, the state they share, and what has happened so far. -/
structure Pool (π Op : Type) (Res : Op → Type) (ε σ γ ρ L : Type) where
  state : σ
  task : π → Task Op Res ε γ ρ L
  log : List (Event π Op ε γ ρ)

/-- Nothing has happened yet. -/
def Pool.start (s : σ) (l : π → L) : Pool π Op Res ε σ γ ρ L := ⟨s, fun p => .idle (l p), []⟩

/-- Process `p` goes on with task `t`. -/
def Pool.next [DecidableEq π] (s : Pool π Op Res ε σ γ ρ L) (p : π) (t : Task Op Res ε γ ρ L)
    (state : σ) (e : Event π Op ε γ ρ) : Pool π Op Res ε σ γ ρ L :=
  ⟨state, Function.update s.task p t, s.log ++ [e]⟩

/-- One step of one process. A process makes the calls that `ok` admits for it. -/
inductive Machine.Step [DecidableEq π] (M : Machine π Op Res ε σ γ ρ L) (ok : π → γ → Prop)
    (s : Pool π Op Res ε σ γ ρ L) : Pool π Op Res ε σ γ ρ L → Prop where
  | call {p : π} {l : L} {c : γ} (ht : s.task p = .idle l) (hc : ok p c) :
      M.Step ok s (s.next p (.busy c (M.code c l)) s.state (.call p c))
  | op {p : π} {c : γ} {o : Op} {k : Res o → Prog Op Res ε (ρ × L)} {r : Res o} {state : σ}
      (ht : s.task p = .busy c (.op o k)) (hst : M.step p o s.state = some (r, state)) :
      M.Step ok s (s.next p (.busy c (k r)) state (.op p o))
  | ret {p : π} {c : γ} {r : ρ} {l : L} (ht : s.task p = .busy c (.ret (r, l))) :
      M.Step ok s (s.next p (.idle l) s.state (.ret p r))
  | stop {p : π} {c : γ} {e : ε} (ht : s.task p = .busy c (.halt e)) :
      M.Step ok s (s.next p .gone (M.leave p s.state) (.stop p e))

/-- The configurations that can be reached. -/
def Machine.Reach [DecidableEq π] (M : Machine π Op Res ε σ γ ρ L) (ok : π → γ → Prop) :
    Pool π Op Res ε σ γ ρ L → Pool π Op Res ε σ γ ρ L → Prop :=
  Relation.ReflTransGen (M.Step ok)

/-! ## Schedules -/

/-- A process makes a call, or goes on with the one it is in. -/
inductive Act (π γ : Type) where
  | call (p : π) (c : γ)
  | go (p : π)

/-- What an act does, if the process can do it. -/
def Machine.act [DecidableEq π] (M : Machine π Op Res ε σ γ ρ L) (s : Pool π Op Res ε σ γ ρ L) :
    Act π γ → Option (Pool π Op Res ε σ γ ρ L)
  | .call p c =>
    match s.task p with
    | .idle l => some (s.next p (.busy c (M.code c l)) s.state (.call p c))
    | _ => none
  | .go p =>
    match s.task p with
    | .busy c (.op o k) =>
      (M.step p o s.state).map fun x => s.next p (.busy c (k x.1)) x.2 (.op p o)
    | .busy _ (.ret (r, l)) => some (s.next p (.idle l) s.state (.ret p r))
    | .busy _ (.halt e) => some (s.next p .gone (M.leave p s.state) (.stop p e))
    | _ => none

/-- The acts one after the other. -/
def Machine.perform [DecidableEq π] (M : Machine π Op Res ε σ γ ρ L) (acts : List (Act π γ))
    (s : Pool π Op Res ε σ γ ρ L) : Option (Pool π Op Res ε σ γ ρ L) := acts.foldlM M.act s

/-- The calls of the acts are admitted. -/
def Act.Ok (ok : π → γ → Prop) : Act π γ → Prop
  | .call p c => ok p c
  | .go _ => True

theorem Machine.step_of_act [DecidableEq π] {M : Machine π Op Res ε σ γ ρ L} {ok : π → γ → Prop}
    {s s' : Pool π Op Res ε σ γ ρ L} {a : Act π γ} (ha : a.Ok ok) (h : M.act s a = some s') :
    M.Step ok s s' := by
  cases a with
  | call p c =>
    unfold Machine.act at h
    dsimp only at h
    split at h
    next l ht =>
      cases h
      exact .call ht ha
    next => exact absurd h (by simp)
  | go p =>
    unfold Machine.act at h
    dsimp only at h
    split at h
    next c o k ht =>
      obtain ⟨⟨r, state⟩, hst, rfl⟩ := Option.map_eq_some_iff.mp h
      exact .op ht hst
    next c r l ht =>
      cases h
      exact .ret ht
    next c e ht =>
      cases h
      exact .stop ht
    next => exact absurd h (by simp)

/-- Where a schedule leads is reached. -/
theorem Machine.reach_of_perform [DecidableEq π] {M : Machine π Op Res ε σ γ ρ L} {ok : π → γ → Prop}
    {acts : List (Act π γ)} {s s' : Pool π Op Res ε σ γ ρ L} (hok : ∀ a ∈ acts, a.Ok ok)
    (h : M.perform acts s = some s') : M.Reach ok s s' := by
  induction acts generalizing s with
  | nil =>
    cases h
    exact .refl
  | cons a acts ih =>
    unfold Machine.perform at h
    rw [List.foldlM_cons] at h
    obtain ⟨s₁, hs₁, h₁⟩ := Option.bind_eq_some_iff.mp h
    have hstep := step_of_act (hok a (List.mem_cons_self ..)) hs₁
    exact .head hstep (ih (fun a ha => hok a (List.mem_cons_of_mem _ ha)) h₁)

/-! ## Calls in the log -/

/-- The process that the event is about. -/
def Event.proc : Event π Op ε γ ρ → π
  | .call p _ | .op p _ | .ret p _ | .stop p _ => p

/-- The event is the beginning or the end of a call of process `p`. -/
def Event.Bounds (p : π) : Event π Op ε γ ρ → Prop
  | .op _ _ => False
  | e => e.proc = p

/-- Process `p` has made the call `c`, number `i` in the log, and it has not returned. -/
structure Pending (log : List (Event π Op ε γ ρ)) (p : π) (i : Nat) (c : γ) : Prop where
  call : log[i]? = some (.call p c)
  last : ∀ j e, i < j → log[j]? = some e → ¬ e.Bounds p

section Log

variable {log : List (Event π Op ε γ ρ)} {e : Event π Op ε γ ρ} {p q : π} {i i' : Nat} {c c' : γ}

theorem Pending.unique (h : Pending log p i c) (h' : Pending log p i' c') : i = i' ∧ c = c' := by
  have hi : i = i' := by
    rcases Nat.lt_trichotomy i i' with hlt | heq | hgt
    · exact absurd rfl (h.last i' _ hlt h'.call)
    · exact heq
    · exact absurd rfl (h'.last i _ hgt h.call)
  subst hi
  have hc := h.call.symm.trans h'.call
  cases hc
  exact ⟨rfl, rfl⟩

theorem getElem?_concat_lt (h : i < log.length) : (log ++ [e])[i]? = log[i]? :=
  List.getElem?_append_left h

theorem getElem?_concat_cases {e' : Event π Op ε γ ρ} (h : (log ++ [e])[i]? = some e') :
    (i < log.length ∧ log[i]? = some e') ∨ (i = log.length ∧ e' = e) := by
  rcases Nat.lt_trichotomy i log.length with hlt | heq | hgt
  · exact Or.inl ⟨hlt, (getElem?_concat_lt hlt).symm.trans h⟩
  · subst heq
    rw [List.getElem?_concat_length] at h
    exact Or.inr ⟨rfl, (Option.some.inj h).symm⟩
  · rw [List.getElem?_eq_none (by rw [List.length_append, List.length_singleton]; omega)] at h
    exact absurd h (by simp)

theorem lt_length_of_getElem? (h : log[i]? = some e) : i < log.length :=
  (List.getElem?_eq_some_iff.mp h).1

/-- What one more event makes of a pending call. -/
theorem pending_concat : Pending (log ++ [e]) p i c ↔
    (Pending log p i c ∧ ¬ e.Bounds p) ∨ (i = log.length ∧ e = .call p c) := by
  constructor
  · intro h
    rcases getElem?_concat_cases h.call with ⟨hlt, hcall⟩ | ⟨hi, he⟩
    · refine Or.inl ⟨⟨hcall, fun j e' hij hj => ?_⟩, ?_⟩
      · exact h.last j e' hij ((getElem?_concat_lt (lt_length_of_getElem? hj)).trans hj)
      · exact h.last log.length e hlt List.getElem?_concat_length
    · exact Or.inr ⟨hi, he.symm⟩
  · rintro (⟨h, hb⟩ | ⟨rfl, rfl⟩)
    · have hlt := lt_length_of_getElem? h.call
      refine ⟨(getElem?_concat_lt hlt).trans h.call, fun j e' hij hj => ?_⟩
      rcases getElem?_concat_cases hj with ⟨-, hj⟩ | ⟨-, rfl⟩
      · exact h.last j e' hij hj
      · exact hb
    · refine ⟨List.getElem?_concat_length, fun j e' hij hj => ?_⟩
      rcases getElem?_concat_cases hj with ⟨hlt, -⟩ | ⟨heq, -⟩
      · omega
      · omega

/-- Another process does not end the call. -/
theorem Pending.other (h : Pending log p i c) (hne : e.proc ≠ p) : Pending (log ++ [e]) p i c := by
  refine pending_concat.mpr (Or.inl ⟨h, ?_⟩)
  cases e with
  | op q o => exact id
  | call q c => exact hne
  | ret q r => exact hne
  | stop q e => exact hne

theorem Pending.op (h : Pending log p i c) (q : π) (o : Op) :
    Pending (log ++ [.op q o]) p i c := pending_concat.mpr (Or.inl ⟨h, id⟩)

theorem not_pending_nil : ¬ Pending ([] : List (Event π Op ε γ ρ)) p i c := fun h => by
  have hcall := h.call
  simp at hcall

end Log

/-! ## Arguments -/

/-- The others keep their promises to process `q`, and the log goes on with `e`. -/
structure Keeps (rely : π → τ → τ → Prop) (good : List (Event π Op ε γ ρ) → τ → Prop)
    (log : List (Event π Op ε γ ρ)) (e : Event π Op ε γ ρ) (w w' : τ) : Prop where
  good : good (log ++ [e]) w'
  rely : ∀ q, q ≠ e.proc → rely q w w'

/-- What is proved of a machine: `good` of the log and the ghost state, always, and `idle` of
every process between two calls. -/
structure Argument (M : Machine π Op Res ε σ γ ρ L) (ok : π → γ → Prop) (τ : Type) where
  erase : τ → σ
  rely : π → τ → τ → Prop
  guar : π → γ → Op → τ → τ → Prop
  good : List (Event π Op ε γ ρ) → τ → Prop
  idle : π → L → τ → Prop
  done : π → γ → ρ × L → τ → Prop
  stopped : π → γ → ε → τ → Prop
  rely_refl : ∀ p w, rely p w w
  rely_trans : ∀ {p w₁ w₂ w₃}, rely p w₁ w₂ → rely p w₂ w₃ → rely p w₁ w₃
  idle_rely : ∀ {p l w w'}, rely p w w' → idle p l w → idle p l w'
  done_rely : ∀ {p c a w w'}, rely p w w' → done p c a w → done p c a w'
  stopped_rely : ∀ {p c e w w'}, rely p w w' → stopped p c e w → stopped p c e w'
  call : ∀ {log w p l c}, good log w → idle p l w → ok p c → (∀ i c', ¬ Pending log p i c') →
    ∃ w', erase w' = erase w ∧ Keeps rely good log (.call p c) w w' ∧
      Prog.wp (M.step p) ⟨erase, rely p, guar p c⟩ (M.code c l) (done p c) (stopped p c) w'
  op : ∀ {log w w' p c i o}, good log w → Pending log p i c → guar p c o w w' →
    Keeps rely good log (.op p o) w w'
  ret : ∀ {log w p c i r l}, good log w → Pending log p i c → done p c (r, l) w →
    ∃ w', erase w' = erase w ∧ Keeps rely good log (.ret p r) w w' ∧ idle p l w'
  stop : ∀ {log w p c i e}, good log w → Pending log p i c → stopped p c e w →
    ∃ w', erase w' = M.leave p (erase w) ∧ Keeps rely good log (.stop p e) w w'

namespace Argument

variable {M : Machine π Op Res ε σ γ ρ L} {ok : π → γ → Prop} (A : Argument M ok τ)
  {s s' : Pool π Op Res ε σ γ ρ L} {w w' : τ} {p q : π} {log : List (Event π Op ε γ ρ)}
  {e : Event π Op ε γ ρ}

/-- The rest of a call can be proved, and the log says which call it is. -/
def TaskOk (log : List (Event π Op ε γ ρ)) (p : π) (w : τ) : Task Op Res ε γ ρ L → Prop
  | .idle l => A.idle p l w ∧ ∀ i c, ¬ Pending log p i c
  | .busy c m => (∃ i, Pending log p i c) ∧
      Prog.wp (M.step p) ⟨A.erase, A.rely p, A.guar p c⟩ m (A.done p c) (A.stopped p c) w
  | .gone => ∀ i c, ¬ Pending log p i c

/-- The ghost state `w` fits the configuration. -/
structure Holds (s : Pool π Op Res ε σ γ ρ L) (w : τ) : Prop where
  state : A.erase w = s.state
  good : A.good s.log w
  task : ∀ p, A.TaskOk s.log p w (s.task p)

variable {A}

theorem not_pending_other (h : ∀ i c, ¬ Pending log q i c) (hne : e.proc ≠ q) (i : Nat) (c : γ) :
    ¬ Pending (log ++ [e]) q i c := fun hp => by
  rcases pending_concat.mp hp with ⟨hp, -⟩ | ⟨-, rfl⟩
  · exact h i c hp
  · exact hne rfl

theorem not_pending_ended (h : e.Bounds q) (hcall : ∀ c, e ≠ .call q c) (i : Nat) (c : γ) :
    ¬ Pending (log ++ [e]) q i c := fun hp => by
  rcases pending_concat.mp hp with ⟨-, hb⟩ | ⟨-, he⟩
  · exact hb h
  · exact hcall c he

/-- The task of a process that does nothing in this step. -/
theorem TaskOk.other {t : Task Op Res ε γ ρ L} (h : A.TaskOk log q w t) (hrely : A.rely q w w')
    (hne : e.proc ≠ q) : A.TaskOk (log ++ [e]) q w' t := by
  cases t with
  | idle l => exact ⟨A.idle_rely hrely h.1, not_pending_other h.2 hne⟩
  | busy c m =>
    obtain ⟨⟨i, hp⟩, hwp⟩ := h
    refine ⟨⟨i, hp.other hne⟩, ?_⟩
    exact Prog.wp_rely (Q := A.done q c) (H := A.stopped q c) A.rely_trans
      (fun _ _ _ hr => A.done_rely hr) (fun _ _ _ hr => A.stopped_rely hr) hrely hwp
  | gone => exact not_pending_other h hne

/-- One process goes on, and the others rely on what it has promised. -/
theorem Holds.next [DecidableEq π] (h : A.Holds s w) {t : Task Op Res ε γ ρ L} {state : σ}
    (hstate : A.erase w' = state) (hkeeps : Keeps A.rely A.good s.log e w w')
    (ht : A.TaskOk (s.log ++ [e]) e.proc w' t) : A.Holds (s.next e.proc t state e) w' := by
  refine ⟨hstate, hkeeps.good, fun q => ?_⟩
  show A.TaskOk (s.log ++ [e]) q w' (Function.update s.task e.proc t q)
  by_cases hq : q = e.proc
  · subst hq
    rw [Function.update_self]
    exact ht
  · rw [Function.update_of_ne hq]
    exact (h.task q).other (hkeeps.rely q hq) (Ne.symm hq)

/-- **One step.** -/
theorem Holds.step [DecidableEq π] (h : A.Holds s w) (hs : M.Step ok s s') :
    ∃ w', A.Holds s' w' := by
  cases hs with
  | @call p l c ht hc =>
    have htask := h.task p
    rw [ht] at htask
    obtain ⟨w', he, hkeeps, hwp⟩ := A.call h.good htask.1 hc htask.2
    refine ⟨w', h.next (he.trans h.state) hkeeps ⟨⟨s.log.length, ?_⟩, hwp⟩⟩
    exact pending_concat.mpr (Or.inr ⟨rfl, rfl⟩)
  | @op p c o k r state ht hst =>
    have htask := h.task p
    rw [ht] at htask
    obtain ⟨⟨i, hp⟩, hwp⟩ := htask
    rw [← h.state] at hst
    obtain ⟨w', he, hg, hwp'⟩ := hwp w (A.rely_refl p w) r state hst
    exact ⟨w', h.next he (A.op h.good hp hg) ⟨⟨i, hp.op p o⟩, hwp'⟩⟩
  | @ret p c r l ht =>
    have htask := h.task p
    rw [ht] at htask
    obtain ⟨⟨i, hp⟩, hd⟩ := htask
    obtain ⟨w', he, hkeeps, hidle⟩ := A.ret h.good hp hd
    exact ⟨w', h.next (he.trans h.state) hkeeps ⟨hidle, not_pending_ended rfl nofun⟩⟩
  | @stop p c e ht =>
    have htask := h.task p
    rw [ht] at htask
    obtain ⟨⟨i, hp⟩, hs⟩ := htask
    obtain ⟨w', he, hkeeps⟩ := A.stop h.good hp hs
    refine ⟨w', h.next (he.trans (congrArg (M.leave p) h.state)) hkeeps ?_⟩
    exact not_pending_ended rfl nofun

/-- **Soundness.** What the argument says holds in every configuration that is reached. -/
theorem Holds.reach [DecidableEq π] (h : A.Holds s w) (hr : M.Reach ok s s') :
    ∃ w', A.Holds s' w' := by
  induction hr with
  | refl => exact ⟨w, h⟩
  | tail _ hs ih =>
    obtain ⟨w', h'⟩ := ih
    exact h'.step hs

/-- The argument holds at the start if the processes are idle there. -/
theorem holds_start {l : π → L} (hgood : A.good [] w) (hidle : ∀ p, A.idle p (l p) w) :
    A.Holds (Pool.start (A.erase w) l) w :=
  ⟨rfl, hgood, fun p => ⟨hidle p, fun _ _ => not_pending_nil⟩⟩

end Argument

end LearningNotes
