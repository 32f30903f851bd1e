/-!
# Programs over operations

A program is a finite tree of *operations* on some shared state: each node asks
for one operation, the answer picks the subtree, the leaves return a value or
stop the process. One text of a program then has several readings, and the
development uses all of them:

- `exec` runs it alone, from a state to an `Outcome`;
- `after` runs the first so many operations of it, up to a crash;
- `Pool.lean` interleaves the operations of many programs.

`wp` is the weakest precondition for all of them at once. It is parametric in
`Rules`: `rely` says what the others may do before the next operation, `guar`
what each of our own operations promises, and `erase` drops the ghost part of the
state. `wp_exec` and `wp_after` read it back for a run that nobody disturbs.
-/

namespace LearningNotes

/-- A program that calls operations `o : Op`, answered in `Res o`, and ends with
an `α` or stops the process with an `ε`. -/
inductive Prog (Op : Type) (Res : Op → Type) (ε α : Type) : Type where
  | ret (a : α)
  | halt (e : ε)
  | op (o : Op) (k : Res o → Prog Op Res ε α)

namespace Prog

variable {Op : Type} {Res : Op → Type} {ε α β σ τ : Type}

/-- Sequencing: graft `f a` onto every leaf `ret a`. -/
protected def bind : Prog Op Res ε α → (α → Prog Op Res ε β) → Prog Op Res ε β
  | ret a, f => f a
  | halt e, _ => halt e
  | op o k, f => op o fun r => (k r).bind f

instance : Monad (Prog Op Res ε) where
  pure := ret
  bind := Prog.bind

/-- After a program that returns at once. -/
@[simp] theorem ret_bind (a : α) (f : α → Prog Op Res ε β) :
    (ret a : Prog Op Res ε α) >>= f = f a := rfl

/-- After a program that stops. -/
@[simp] theorem halt_bind (e : ε) (f : α → Prog Op Res ε β) :
    (halt e : Prog Op Res ε α) >>= f = halt e := rfl

/-- After a program that begins with an operation. -/
@[simp] theorem op_bind (o : Op) (k : Res o → Prog Op Res ε α) (f : α → Prog Op Res ε β) :
    op o k >>= f = op o fun r => k r >>= f := rfl

/-- `pure` is `ret`. -/
@[simp] theorem pure_eq_ret (a : α) : (pure a : Prog Op Res ε α) = ret a := rfl

/-- Nothing more is done. -/
theorem bind_ret (m : Prog Op Res ε α) : m >>= ret = m := by
  induction m with
  | ret a => rfl
  | halt e => rfl
  | op o k ih => rw [op_bind]; exact congrArg (op o) (funext ih)

/-- The order of the brackets does not matter. -/
theorem bind_bind {γ : Type} (m : Prog Op Res ε α) (f : α → Prog Op Res ε β)
    (g : β → Prog Op Res ε γ) : m >>= f >>= g = m >>= fun a => f a >>= g := by
  induction m with
  | ret a => rfl
  | halt e => rfl
  | op o k ih => simp only [op_bind]; exact congrArg (op o) (funext ih)

instance : LawfulMonad (Prog Op Res ε) :=
  LawfulMonad.mk' _ bind_ret ret_bind bind_bind

/-! ## Running alone -/

/-- How a run that nobody disturbs ends. -/
inductive Outcome (ε α σ : Type) : Type where
  | done (a : α) (s : σ)
  | halted (e : ε) (s : σ)
  | blocked (s : σ)

/-- The outcome is a value in `Q` or a stop in `H`, never a wait. -/
def Outcome.Sat (Q : α → σ → Prop) (H : ε → σ → Prop) : Outcome ε α σ → Prop
  | .done a s => Q a s
  | .halted e s => H e s
  | .blocked _ => False

/-- Weaker conditions. -/
theorem Outcome.Sat.mono {Q Q' : α → σ → Prop} {H H' : ε → σ → Prop} {r : Outcome ε α σ}
    (h : r.Sat Q H) (hQ : ∀ a s, Q a s → Q' a s) (hH : ∀ e s, H e s → H' e s) : r.Sat Q' H' := by
  cases r with
  | done a s => exact hQ a s h
  | halted e s => exact hH e s h
  | blocked s => exact h

/-- A run that cannot stop ends with a value. -/
theorem Outcome.Sat.exists_done {Q : α → σ → Prop} {r : Outcome ε α σ}
    (h : r.Sat Q fun _ _ => False) : ∃ a s, r = .done a s ∧ Q a s := by
  cases r with
  | done a s => exact ⟨a, s, rfl, h⟩
  | halted e s => exact h.elim
  | blocked s => exact h.elim

/-- The run gets to its end. -/
def Outcome.isDone : Outcome ε α σ → Bool
  | .done _ _ => true
  | _ => false

/-- The state a run ends in. -/
def Outcome.state : Outcome ε α σ → σ
  | .done _ s => s
  | .halted _ s => s
  | .blocked s => s

variable (step : (o : Op) → σ → Option (Res o × σ))

/-- Run a program alone; `step` answers `none` to an operation that has to wait. -/
def exec : Prog Op Res ε α → σ → Outcome ε α σ
  | ret a, s => .done a s
  | halt e, s => .halted e s
  | op o k, s =>
    match step o s with
    | none => .blocked s
    | some (r, s') => exec (k r) s'

/-- The state after `n` operations of a program that runs alone; `none` if it does not get
that far. -/
def after : Nat → Prog Op Res ε α → σ → Option σ
  | 0, _, s => some s
  | n + 1, op o k, s =>
    match step o s with
    | none => none
    | some (r, s') => after n (k r) s'
  | _ + 1, ret _, _ => none
  | _ + 1, halt _, _ => none

/-- Where there is no further operation the run has ended. -/
theorem after_last {n : Nat} {m : Prog Op Res ε α} {s s' : σ} (h : after step n m s = some s')
    (hlast : after step (n + 1) m s = none) : (exec step m s).state = s' := by
  induction n generalizing m s with
  | zero =>
    obtain rfl : s = s' := Option.some.inj h
    cases m with
    | ret a => rfl
    | halt e => rfl
    | op o k =>
      rw [after] at hlast
      rw [exec]
      cases hst : step o s with
      | none => rfl
      | some r =>
        rw [hst] at hlast
        exact absurd hlast (by simp [after])
  | succ n ih =>
    cases m with
    | ret a => exact absurd h (by simp [after])
    | halt e => exact absurd h (by simp [after])
    | op o k =>
      rw [after] at h hlast
      rw [exec]
      cases hst : step o s with
      | none =>
        rw [hst] at h
        exact absurd h (by simp)
      | some r =>
        rw [hst] at h hlast
        exact ih h hlast

/-! ## Weakest preconditions -/

/-- The rules of the environment a program runs in, over ghost-extended states. -/
structure Rules (Op σ τ : Type) where
  erase : τ → σ
  rely : τ → τ → Prop
  guar : Op → τ → τ → Prop

/-- What every sensible pair of rules satisfies: the others may do nothing, and
what they do twice they may do at once; doing nothing keeps our promise. -/
structure Rules.Lawful (R : Rules Op σ τ) : Prop where
  rely_refl : ∀ s, R.rely s s
  rely_trans : ∀ {s₁ s₂ s₃}, R.rely s₁ s₂ → R.rely s₂ s₃ → R.rely s₁ s₃
  guar_refl : ∀ o s, R.guar o s s

/-- `m` started in `s` keeps the rules, and ends in `Q` or stops in `H`. At each
operation the others come first; the ghost part of the new state is ours to
choose. -/
def wp (R : Rules Op σ τ) : Prog Op Res ε α → (α → τ → Prop) → (ε → τ → Prop) → τ → Prop
  | ret a, Q, _, s => Q a s
  | halt e, _, H, s => H e s
  | op o k, Q, H, s => ∀ s₁, R.rely s s₁ → ∀ r σ', step o (R.erase s₁) = some (r, σ') →
      ∃ s₂, R.erase s₂ = σ' ∧ R.guar o s₁ s₂ ∧ wp R (k r) Q H s₂

variable {step}

/-- The condition on the answer. -/
@[simp] theorem wp_ret {R : Rules Op σ τ} {a : α} {Q : α → τ → Prop} {H : ε → τ → Prop} {s : τ} :
    wp step R (ret a) Q H s ↔ Q a s := Iff.rfl

/-- The condition on the error. -/
@[simp] theorem wp_halt {R : Rules Op σ τ} {e : ε} {Q : α → τ → Prop} {H : ε → τ → Prop} {s : τ} :
    wp step R (halt e) Q H s ↔ H e s := Iff.rfl

/-- Sequencing splits the precondition: the first part has to reach a state from
which the second part is fine. -/
theorem wp_bind {R : Rules Op σ τ} {f : α → Prog Op Res ε β} {Q : β → τ → Prop}
    {H : ε → τ → Prop} (m : Prog Op Res ε α) {s : τ} :
    wp step R (m >>= f) Q H s ↔ wp step R m (fun a => wp step R (f a) Q H) H s := by
  induction m generalizing s with
  | ret a => exact Iff.rfl
  | halt e => exact Iff.rfl
  | op o k ih =>
    rw [op_bind]
    constructor
    · intro h s₁ hs₁ r σ' hst
      obtain ⟨s₂, he, hg, hw⟩ := h s₁ hs₁ r σ' hst
      exact ⟨s₂, he, hg, (ih r).mp hw⟩
    · intro h s₁ hs₁ r σ' hst
      obtain ⟨s₂, he, hg, hw⟩ := h s₁ hs₁ r σ' hst
      exact ⟨s₂, he, hg, (ih r).mpr hw⟩

/-- Weaker conditions. -/
theorem wp_mono {R : Rules Op σ τ} {Q Q' : α → τ → Prop} {H H' : ε → τ → Prop}
    (hQ : ∀ a s, Q a s → Q' a s) (hH : ∀ e s, H e s → H' e s) (m : Prog Op Res ε α) :
    ∀ {s : τ}, wp step R m Q H s → wp step R m Q' H' s := by
  induction m with
  | ret a => intro s h; exact hQ a s h
  | halt e => intro s h; exact hH e s h
  | op o k ih =>
    intro s h s₁ hs₁ r σ' hst
    obtain ⟨s₂, he, hg, hw⟩ := h s₁ hs₁ r σ' hst
    exact ⟨s₂, he, hg, ih r hw⟩

/-- What the others do before the first operation is already accounted for. -/
theorem wp_rely {R : Rules Op σ τ}
    (htrans : ∀ {s₁ s₂ s₃}, R.rely s₁ s₂ → R.rely s₂ s₃ → R.rely s₁ s₃)
    {Q : α → τ → Prop} {H : ε → τ → Prop}
    (hQ : ∀ a s s', R.rely s s' → Q a s → Q a s') (hH : ∀ e s s', R.rely s s' → H e s → H e s')
    {m : Prog Op Res ε α} {s s' : τ} (hs : R.rely s s') (h : wp step R m Q H s) :
    wp step R m Q H s' := by
  cases m with
  | ret a => exact hQ a s s' hs h
  | halt e => exact hH e s s' hs h
  | op o k =>
    intro s₁ hs₁
    exact h s₁ (htrans hs hs₁)

section Soundness

variable {R : Rules Op σ τ} {T : τ → τ → Prop} (hR : R.Lawful) (hrefl : ∀ s, T s s)
  (htrans : ∀ s₁ s₂ s₃, T s₁ s₂ → T s₂ s₃ → T s₁ s₃) (hT : ∀ o s s', R.guar o s s' → T s s')

include hR hrefl htrans hT

/-- **Soundness for a run alone.** If no operation has to wait while `I` holds, a
program whose precondition holds ends as the precondition says, and its last state is
related to the first one by whatever the promises add up to. -/
theorem wp_exec {I : σ → Prop} {Q : α → τ → Prop} {H : ε → τ → Prop}
    (hI : ∀ o s, I s → ∃ r s', step o s = some (r, s') ∧ I s') (m : Prog Op Res ε α) :
    ∀ {s : τ}, I (R.erase s) → wp step R m Q H s →
      (exec step m (R.erase s)).Sat (fun a s' => ∃ t, R.erase t = s' ∧ I s' ∧ T s t ∧ Q a t)
        (fun e s' => ∃ t, R.erase t = s' ∧ I s' ∧ T s t ∧ H e t) := by
  induction m with
  | ret a => intro s hs h; exact ⟨s, rfl, hs, hrefl s, h⟩
  | halt e => intro s hs h; exact ⟨s, rfl, hs, hrefl s, h⟩
  | op o k ih =>
    intro s hs h
    obtain ⟨r, s', hst, hs'⟩ := hI o (R.erase s) hs
    obtain ⟨s₂, he, hg, hw⟩ := h s (hR.rely_refl s) r s' hst
    cases he
    have hstep := hT o s s₂ hg
    rw [exec, hst]
    refine Outcome.Sat.mono (ih r hs' hw) ?_ ?_
    · exact fun a s' ⟨t, ht, hi, h₂, hq⟩ => ⟨t, ht, hi, htrans _ _ _ hstep h₂, hq⟩
    · exact fun e s' ⟨t, ht, hi, h₂, hh⟩ => ⟨t, ht, hi, htrans _ _ _ hstep h₂, hh⟩

/-- **Soundness for crashes.** Every state passed through is related to the first one
by whatever the promises add up to. -/
theorem wp_after {Q : α → τ → Prop} {H : ε → τ → Prop} (n : Nat) :
    ∀ {m : Prog Op Res ε α} {s : τ} {s' : σ}, after step n m (R.erase s) = some s' →
      wp step R m Q H s → ∃ t, R.erase t = s' ∧ T s t := by
  induction n with
  | zero =>
    intro m s s' ha _
    exact ⟨s, Option.some.inj ha, hrefl s⟩
  | succ n ih =>
    intro m s s' ha h
    cases m with
    | ret a => exact absurd ha (by simp [after])
    | halt e => exact absurd ha (by simp [after])
    | op o k =>
      rw [after] at ha
      cases hst : step o (R.erase s) with
      | none =>
        rw [hst] at ha
        exact absurd ha (by simp)
      | some p =>
        obtain ⟨r, s₁⟩ := p
        rw [hst] at ha
        obtain ⟨s₂, he, hg, hw⟩ := h s (hR.rely_refl s) r s₁ hst
        cases he
        obtain ⟨t, ht, hst⟩ := ih ha hw
        exact ⟨t, ht, htrans _ _ _ (hT _ _ _ hg) hst⟩

end Soundness

/-- One program after the other. -/
theorem exec_bind (m : Prog Op Res ε α) (f : α → Prog Op Res ε β) (s : σ) :
    exec step (m >>= f) s =
      match exec step m s with
      | .done a s' => exec step (f a) s'
      | .halted e s' => .halted e s'
      | .blocked s' => .blocked s' := by
  induction m generalizing s with
  | ret a => rfl
  | halt e => rfl
  | op o k ih =>
    rw [op_bind, exec, exec]
    cases step o s with
    | none => rfl
    | some p => exact ih p.1 p.2

end Prog

end LearningNotes
