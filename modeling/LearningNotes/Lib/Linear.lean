import LearningNotes.Lib.Pool
import Mathlib.Data.List.Nodup

/-!
# Linearizability

Calls of several processes overlap. A specification says what a call does to an abstract state
`μ` when it is made alone, and what it returns. The calls of a log are in order (`Linearizes`) if
they can be lined up so that

- a call that had returned before another one began stands in front of it;
- each call returned what the specification says when the calls are made one after the other;
- every call that has returned is in the line. One that is going on, or whose process has ended,
  may be in it or not.

`Linearized` is the invariant for a proof by moments: each call has one moment between its
beginning and its end at which it takes effect, and the line is made of the calls in the order of
their moments. `lin p` is the result of the call of process `p` once its moment has been. There
is one rule for each kind of event.
-/

namespace LearningNotes

variable {π Op ε γ ρ μ : Type} {spec : γ → μ → μ × ρ} {m₀ m m' : μ}
  {log : List (Event π Op ε γ ρ)} {e : Event π Op ε γ ρ} {p q : π} {i j : Nat} {c : γ} {r : ρ}

/-- Call `c` of process `p`, number `i` in the log, has returned `r`: this is number `j`. -/
structure Completed (log : List (Event π Op ε γ ρ)) (p : π) (i : Nat) (c : γ) (j : Nat) (r : ρ) :
    Prop where
  lt : i < j
  call : log[i]? = some (.call p c)
  ret : log[j]? = some (.ret p r)
  within : ∀ n e, i < n → n < j → log[n]? = some e → ¬ e.Bounds p

/-- A call in the line, with the number that it has in the log and its result. -/
structure Entry (π γ ρ : Type) where
  idx : Nat
  proc : π
  call : γ
  ret : ρ

variable {line : List (Entry π γ ρ)} {a : Entry π γ ρ}

/-- The calls of the line, one after the other, lead from one state to the other with these
results. -/
def Replays (spec : γ → μ → μ × ρ) : μ → List (Entry π γ ρ) → μ → Prop
  | m, [], m' => m' = m
  | m, a :: line, m' => a.ret = (spec a.call m).2 ∧ Replays spec (spec a.call m).1 line m'

theorem replays_append {line₁ line₂ : List (Entry π γ ρ)} :
    Replays spec m (line₁ ++ line₂) m' ↔
      ∃ m₁, Replays spec m line₁ m₁ ∧ Replays spec m₁ line₂ m' := by
  induction line₁ generalizing m with
  | nil =>
    constructor
    · intro h
      exact ⟨m, rfl, h⟩
    · rintro ⟨m₁, rfl, h⟩
      exact h
  | cons a line₁ ih =>
    show (_ ∧ Replays spec _ (line₁ ++ line₂) m') ↔ _
    rw [ih]
    constructor
    · rintro ⟨hr, m₁, h₁, h₂⟩
      exact ⟨m₁, ⟨hr, h₁⟩, h₂⟩
    · rintro ⟨m₁, ⟨hr, h₁⟩, h₂⟩
      exact ⟨hr, m₁, h₁, h₂⟩

/-- What no call of the line breaks holds behind it if it holds in front of it. -/
theorem Replays.keeps (h : Replays spec m line m') (good : μ → Prop)
    (hkeep : ∀ a ∈ line, ∀ m, good m → good (spec a.call m).1) (hm : good m) : good m' := by
  induction line generalizing m with
  | nil =>
    cases h
    exact hm
  | cons a line ih =>
    exact ih h.2 (fun b hb => hkeep b (List.mem_cons_of_mem _ hb))
      (hkeep a (List.mem_cons_self ..) m hm)

/-- **The calls of the log can be made in the order of the line**: from `m₀` they lead to `m`. -/
structure Linearizes (spec : γ → μ → μ × ρ) (m₀ : μ) (log : List (Event π Op ε γ ρ))
    (line : List (Entry π γ ρ)) (m : μ) : Prop where
  call : ∀ a ∈ line, log[a.idx]? = some (.call a.proc a.call)
  once : (line.map Entry.idx).Nodup
  returned : ∀ p i c j r, Completed log p i c j r → ⟨i, p, c, r⟩ ∈ line
  time : line.Pairwise fun a b => ∀ j r, Completed log b.proc b.idx b.call j r → a.idx < j
  replay : Replays spec m₀ line m

/-! ## One more event -/

theorem completed_concat : Completed (log ++ [e]) p i c j r ↔
    Completed log p i c j r ∨ (j = log.length ∧ e = .ret p r ∧ Pending log p i c) := by
  constructor
  · intro h
    rcases getElem?_concat_cases h.ret with ⟨hj, hret⟩ | ⟨rfl, he⟩
    · refine Or.inl ⟨h.lt, ?_, hret, fun n e' hin hnj hn => ?_⟩
      · exact (getElem?_concat_lt (Nat.lt_trans h.lt hj)).symm.trans h.call
      · exact h.within n e' hin hnj ((getElem?_concat_lt (Nat.lt_trans hnj hj)).trans hn)
    · refine Or.inr ⟨rfl, he.symm, ?_, fun n e' hin hn => ?_⟩
      · exact (getElem?_concat_lt h.lt).symm.trans h.call
      · have hlt := lt_length_of_getElem? hn
        exact h.within n e' hin hlt ((getElem?_concat_lt hlt).trans hn)
  · rintro (h | ⟨rfl, rfl, h⟩)
    · have hj := lt_length_of_getElem? h.ret
      refine ⟨h.lt, (getElem?_concat_lt (Nat.lt_trans h.lt hj)).trans h.call,
        (getElem?_concat_lt hj).trans h.ret, fun n e' hin hnj hn => ?_⟩
      exact h.within n e' hin hnj ((getElem?_concat_lt (Nat.lt_trans hnj hj)).symm.trans hn)
    · have hi := lt_length_of_getElem? h.call
      refine ⟨hi, (getElem?_concat_lt hi).trans h.call, List.getElem?_concat_length,
        fun n e' hin hnj hn => ?_⟩
      exact h.last n e' hin ((getElem?_concat_lt hnj).symm.trans hn)

/-- A call that is going on has not returned. -/
theorem Pending.not_completed (h : Pending log p i c) : ¬ Completed log p i c j r := fun hr =>
  h.last j _ hr.lt hr.ret rfl

theorem Linearizes.nil : Linearizes spec m ([] : List (Event π Op ε γ ρ)) [] m where
  call := fun a ha => absurd ha List.not_mem_nil
  once := List.nodup_nil
  returned := fun p i c j r h => by
    have hcall := h.call
    simp at hcall
  time := List.Pairwise.nil
  replay := rfl

theorem Linearizes.idx_lt (h : Linearizes spec m₀ log line m) (ha : a ∈ line) :
    a.idx < log.length := lt_length_of_getElem? (h.call a ha)

/-- The log goes on, and the line stays. If a call returns, it is in the line with its result. -/
theorem Linearizes.concat (h : Linearizes spec m₀ log line m)
    (hret : ∀ p r i c, e = .ret p r → Pending log p i c → ⟨i, p, c, r⟩ ∈ line) :
    Linearizes spec m₀ (log ++ [e]) line m where
  call := fun a ha => (getElem?_concat_lt (h.idx_lt ha)).trans (h.call a ha)
  once := h.once
  returned := by
    intro p i c j r hr
    rcases completed_concat.mp hr with hr | ⟨-, he, hp⟩
    · exact h.returned p i c j r hr
    · exact hret p r i c he hp
  time := by
    refine h.time.imp_of_mem fun {a b} ha _ hab j r hr => ?_
    rcases completed_concat.mp hr with hr | ⟨rfl, -, -⟩
    · exact hab j r hr
    · exact h.idx_lt ha
  replay := h.replay

/-- A call that is going on gets the last place in the line. -/
theorem Linearizes.append (h : Linearizes spec m₀ log line m) (hp : Pending log p i c)
    (hnew : i ∉ line.map Entry.idx) :
    Linearizes spec m₀ log (line ++ [⟨i, p, c, (spec c m).2⟩]) (spec c m).1 where
  call := by
    intro a ha
    rcases List.mem_append.mp ha with ha | ha
    · exact h.call a ha
    · rw [List.mem_singleton.mp ha]
      exact hp.call
  once := by
    rw [List.map_append, List.map_singleton]
    refine List.nodup_append.mpr ⟨h.once, List.nodup_singleton _, fun n hn n' hn' hnn => ?_⟩
    have hi : n = i := hnn.trans (List.mem_singleton.mp hn')
    exact hnew (hi ▸ hn)
  returned := fun p i c j r hr => List.mem_append_left _ (h.returned p i c j r hr)
  time := by
    refine List.pairwise_append.mpr ⟨h.time, List.pairwise_singleton .., fun a _ b hb j r hr => ?_⟩
    rw [List.mem_singleton.mp hb] at hr
    exact absurd hr hp.not_completed
  replay := replays_append.mpr ⟨m, h.replay, rfl, rfl⟩

/-! ## Moments -/

/-- The log can be lined up, and `lin` says of every call that is going on whether it is in the
line yet, and with which result. -/
structure Linearized (spec : γ → μ → μ × ρ) (m₀ : μ) (log : List (Event π Op ε γ ρ))
    (line : List (Entry π γ ρ)) (m : μ) (lin : π → Option ρ) : Prop
    extends Linearizes spec m₀ log line m where
  taken : ∀ p i c r, Pending log p i c → lin p = some r → ⟨i, p, c, r⟩ ∈ line
  free : ∀ p i c, Pending log p i c → lin p = none → i ∉ line.map Entry.idx

variable {lin lin' : π → Option ρ}

theorem Linearized.start : Linearized spec m ([] : List (Event π Op ε γ ρ)) [] m lin :=
  ⟨.nil, fun _ _ _ _ h => absurd h not_pending_nil, fun _ _ _ h => absurd h not_pending_nil⟩

/-- A process begins a call. -/
theorem Linearized.begin (h : Linearized spec m₀ log line m lin) (hp : lin' p = none)
    (hq : ∀ q, q ≠ p → lin' q = lin q) :
    Linearized spec m₀ (log ++ [.call p c]) line m lin' := by
  refine ⟨h.concat nofun, ?_, ?_⟩
  · intro q i c' r hpend hlin
    rcases pending_concat.mp hpend with ⟨hpend, hb⟩ | ⟨-, he⟩
    · exact h.taken q i c' r hpend ((hq q (Ne.symm hb)).symm.trans hlin)
    · cases he
      rw [hp] at hlin
      exact absurd hlin (by simp)
  · intro q i c' hpend hlin
    rcases pending_concat.mp hpend with ⟨hpend, hb⟩ | ⟨hi, -⟩
    · exact h.free q i c' hpend ((hq q (Ne.symm hb)).symm.trans hlin)
    · -- the number of the new call is none of the line's
      intro hmem
      obtain ⟨a, ha, hai⟩ := List.mem_map.mp hmem
      have hlt := h.idx_lt ha
      omega

/-- An event that is no call leaves the line alone. -/
theorem Linearized.concat (h : Linearized spec m₀ log line m lin) (hcall : ∀ p c, e ≠ .call p c)
    (hret : ∀ p r, e = .ret p r → lin p = some r) :
    Linearized spec m₀ (log ++ [e]) line m lin := by
  refine ⟨h.toLinearizes.concat ?_, ?_, ?_⟩
  · intro p r i c he hp
    exact h.taken p i c r hp (hret p r he)
  · intro q i c r hpend
    rcases pending_concat.mp hpend with ⟨hpend, -⟩ | ⟨-, he⟩
    · exact h.taken q i c r hpend
    · exact absurd he (hcall q c)
  · intro q i c hpend
    rcases pending_concat.mp hpend with ⟨hpend, -⟩ | ⟨-, he⟩
    · exact h.free q i c hpend
    · exact absurd he (hcall q c)

/-- The moment of a call. -/
theorem Linearized.moment (h : Linearized spec m₀ log line m lin) (hp : Pending log p i c)
    (hnone : lin p = none) (hsome : lin' p = some (spec c m).2)
    (hq : ∀ q, q ≠ p → lin' q = lin q) :
    Linearized spec m₀ log (line ++ [⟨i, p, c, (spec c m).2⟩]) (spec c m).1 lin' := by
  refine ⟨h.append hp (h.free p i c hp hnone), ?_, ?_⟩
  · intro q i' c' r hpend hlin
    by_cases hqp : q = p
    · subst hqp
      obtain ⟨rfl, rfl⟩ := hpend.unique hp
      rw [hsome] at hlin
      cases hlin
      exact List.mem_append_right _ (List.mem_singleton_self _)
    · exact List.mem_append_left _ (h.taken q i' c' r hpend ((hq q hqp).symm.trans hlin))
  · intro q i' c' hpend hlin
    have hqp : q ≠ p := by
      rintro rfl
      rw [hsome] at hlin
      exact absurd hlin (by simp)
    rw [List.map_append, List.map_singleton, List.mem_append, List.mem_singleton, not_or]
    refine ⟨h.free q i' c' hpend ((hq q hqp).symm.trans hlin), fun hi => hqp ?_⟩
    change i' = i at hi
    subst hi
    have hboth := hpend.call.symm.trans hp.call
    cases hboth
    rfl

/-- Of a process that is in no call nothing is said. -/
theorem Linearized.congr (h : Linearized spec m₀ log line m lin)
    (hlin : ∀ p i c, Pending log p i c → lin' p = lin p) :
    Linearized spec m₀ log line m lin' :=
  ⟨h.toLinearizes, fun p i c r hp hl => h.taken p i c r hp ((hlin p i c hp).symm.trans hl),
    fun p i c hp hl => h.free p i c hp ((hlin p i c hp).symm.trans hl)⟩

/-- A call whose result does not depend on the state may have its moment when it returns. -/
theorem Linearized.refused [DecidableEq π] (h : Linearized spec m₀ log line m lin)
    (hp : Pending log p i c) (hnone : lin p = none) (hspec : ∀ m, spec c m = (m, r)) :
    Linearized spec m₀ (log ++ [.ret p r]) (line ++ [⟨i, p, c, r⟩]) m lin := by
  have hmoment := @Linearized.moment _ _ _ _ _ _ spec m₀ m log p i c line lin
    (Function.update lin p (some (spec c m).2)) h hp hnone (Function.update_self ..)
    fun q hq => Function.update_of_ne hq ..
  rw [hspec m] at hmoment
  have hret := hmoment.concat (e := .ret p r) nofun fun q r' he => by
    cases he
    exact Function.update_self ..
  refine hret.congr fun q i' c' hpend => ?_
  have hqp : q ≠ p := by
    rintro rfl
    have hends : (Event.ret q r : Event π Op ε γ ρ).Bounds q := rfl
    exact Argument.not_pending_ended hends nofun i' c' hpend
  exact (Function.update_of_ne hqp ..).symm

end LearningNotes
