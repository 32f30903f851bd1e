import LearningNotes.Db.Source

/-!
# Weakest preconditions for library code

`wpM R p m Q H db s`: process `p` runs `m` with the handle `db` in state `s` under
the rules `R`; it ends in `Q` or stops the process in `H`. The lemmas tagged `simp`
take a body apart statement by statement; a system call is left as one of the five
`wpM_…` rules at the end, which hand over the state the call finds.
-/

namespace LearningNotes.Db

open Prog (Rules)

variable {α β τ : Type} {R : Rules Op OS τ} {p : Pid} {H : Fatal → τ → Prop} {db : DB} {s : τ}

/-- The weakest precondition of a piece of library code. -/
def wpM (R : Rules Op OS τ) (p : Pid) (m : DbM α) (Q : α → DB → τ → Prop) (H : Fatal → τ → Prop)
    (db : DB) (s : τ) : Prop :=
  Prog.wp (sysStep p) R (m.run db) (fun a => Q a.1 a.2) H s

section Statements

variable {Q : α → DB → τ → Prop}

/-- One part after the other. -/
@[simp] theorem wpM_bind {m : DbM β} {f : β → DbM α} :
    wpM R p (m >>= f) Q H db s ↔ wpM R p m (fun b db s => wpM R p (f b) Q H db s) H db s := by
  unfold wpM
  rw [StateT.run_bind, Prog.wp_bind]

@[simp] theorem wpM_pure {a : α} : wpM R p (pure a) Q H db s ↔ Q a db s := Iff.rfl

/-- The process ends with a message. -/
@[simp] theorem wpM_err {e : Fatal} : wpM R p (err e : DbM α) Q H db s ↔ H e s := Iff.rfl

@[simp] theorem wpM_map {m : DbM β} {f : β → α} :
    wpM R p (f <$> m) Q H db s ↔ wpM R p m (fun b db s => Q (f b) db s) H db s := by
  rw [map_eq_pure_bind, wpM_bind]
  rfl

/-- Either branch. -/
@[simp] theorem wpM_ite {c : Prop} [Decidable c] {m m' : DbM α} :
    wpM R p (if c then m else m') Q H db s ↔
      if c then wpM R p m Q H db s else wpM R p m' Q H db s := by
  split <;> rfl

/-- Less is to be shown. -/
theorem wpM_mono {Q' : α → DB → τ → Prop} {H' : Fatal → τ → Prop} {m : DbM α}
    (h : wpM R p m Q H db s) (hQ : ∀ a db s, Q a db s → Q' a db s) (hH : ∀ e s, H e s → H' e s) :
    wpM R p m Q' H' db s :=
  Prog.wp_mono (fun (a : α × DB) s => hQ a.1 a.2 s) hH (m.run db) h

end Statements

@[simp] theorem wpM_get {Q : DB → DB → τ → Prop} : wpM R p get Q H db s ↔ Q db db s := Iff.rfl

@[simp] theorem wpM_set {db' : DB} {Q : PUnit → DB → τ → Prop} :
    wpM R p (set db') Q H db s ↔ Q ⟨⟩ db' s := Iff.rfl

@[simp] theorem wpM_modify {f : DB → DB} {Q : PUnit → DB → τ → Prop} :
    wpM R p (modify f) Q H db s ↔ Q ⟨⟩ (f db) s := Iff.rfl

/-- A check that passes. -/
theorem wpM_errIf_neg {c : Prop} [Decidable c] {e : Fatal} {Q : Unit → DB → τ → Prop} (hc : ¬ c) :
    wpM R p (errIf c e) Q H db s ↔ Q () db s := by
  unfold errIf
  rw [if_neg hc]
  rfl

/-- A check that fails. -/
theorem wpM_errIf_pos {c : Prop} [Decidable c] {e : Fatal} {Q : Unit → DB → τ → Prop} (hc : c) :
    wpM R p (errIf c e) Q H db s ↔ H e s := by
  unfold errIf
  rw [if_pos hc]
  rfl

/-! ## `lseek` -/

/-- `lseek` to an offset. -/
@[simp] theorem wpM_lseek_set {fd : Fd} {n : Nat} {Q : Int → DB → τ → Prop} :
    wpM R p (lseek fd (n : Int) .seekSet) Q H db s ↔ Q n (db.setPos fd n) s := by
  have hn : ¬ (n : Int) < 0 := by omega
  have hv : ((0 : Nat) : Int) + (n : Int) = n := by omega
  simp only [lseek, wpM_bind, wpM_pure, wpM_ite, hv, if_neg hn, wpM_modify, Int.toNat_natCast]

/-- `lseek` that only asks for the offset. -/
theorem wpM_lseek_cur {fd : Fd} {Q : Int → DB → τ → Prop} :
    wpM R p (lseek fd 0 .seekCur) Q H db s ↔ Q (db.pos fd) (db.setPos fd (db.pos fd)) s := by
  have hn : ¬ (db.pos fd : Int) < 0 := by omega
  simp only [lseek, wpM_bind, wpM_map, wpM_get, wpM_pure, wpM_ite, Int.add_zero, if_neg hn,
    wpM_modify, Int.toNat_natCast]

/-! ## System calls -/

section Calls

variable (hR : R.Lawful)

include hR

/-- `read` finds some state that the others have left, and does not change it. -/
theorem wpM_read {fd : Fd} {n : Nat} {Q : List Byte → DB → τ → Prop}
    (h : ∀ s₁, R.rely s s₁ → ∀ bytes, slice ((R.erase s₁).file fd) (db.pos fd) n = bytes →
      Q bytes (db.setPos fd (db.pos fd + bytes.length)) s₁) :
    wpM R p (read fd n) Q H db s := by
  intro s₁ hs₁ r σ' hst
  cases hst
  exact ⟨s₁, rfl, hR.guar_refl _ s₁, h s₁ hs₁ _ rfl⟩

/-- `lseek(fd, 0, SEEK_END)`. -/
theorem wpM_lseek_end {fd : Fd} {Q : Int → DB → τ → Prop}
    (h : ∀ s₁, R.rely s s₁ →
      Q ((R.erase s₁).file fd).length (db.setPos fd ((R.erase s₁).file fd).length) s₁) :
    wpM R p (lseek fd 0 .seekEnd) Q H db s := by
  intro s₁ hs₁ r σ' hst
  cases hst
  refine ⟨s₁, rfl, hR.guar_refl _ s₁, ?_⟩
  have hn : ¬ (((R.erase s₁).file fd).length : Int) < 0 := by omega
  have hq := h s₁ hs₁
  show wpM R p (do
      if (((R.erase s₁).file fd).length : Int) + 0 < 0 then
        return -1
      modify (·.setPos fd ((((R.erase s₁).file fd).length : Int) + 0).toNat)
      return (((R.erase s₁).file fd).length : Int) + 0) Q H db s₁
  simpa only [wpM_bind, wpM_pure, wpM_ite, Int.add_zero, if_neg hn, wpM_modify,
    Int.toNat_natCast] using hq

omit hR

/-- `write`: the new state carries the new contents, and we choose its ghost part. -/
theorem wpM_write {fd : Fd} {bytes : List Byte} {Q : Unit → DB → τ → Prop}
    (h : ∀ s₁, R.rely s s₁ → ∃ s₂,
      R.erase s₂ = (R.erase s₁).setFile fd (overwrite 0 ((R.erase s₁).file fd) (db.pos fd) bytes) ∧
      R.guar (.write fd (db.pos fd) bytes) s₁ s₂ ∧ Q () (db.setPos fd (db.pos fd + bytes.length)) s₂) :
    wpM R p (write fd bytes) Q H db s := by
  intro s₁ hs₁ r σ' hst
  cases hst
  obtain ⟨s₂, he, hg, hq⟩ := h s₁ hs₁
  exact ⟨s₂, he, hg, hq⟩

/-- A lock request that is granted. -/
theorem wpM_lock {fd : Fd} {type : LockType} {off len : Nat} {Q : Unit → DB → τ → Prop}
    (h : ∀ s₁ locks, R.rely s s₁ →
      RangeLock.acquire (R.erase s₁).locks p fd type off (lockStop off len) = some locks →
      ∃ s₂, R.erase s₂ = { R.erase s₁ with locks := locks } ∧ R.guar (.lock fd type off len) s₁ s₂ ∧ Q () db s₂) :
    wpM R p (sys (.lock fd type off len)) Q H db s := by
  intro s₁ hs₁ r σ' hst
  simp only [sysStep] at hst
  cases hacq : RangeLock.acquire (R.erase s₁).locks p fd type off (lockStop off len) with
  | none =>
    rw [hacq] at hst
    exact absurd hst (by simp)
  | some locks =>
    rw [hacq] at hst
    cases hst
    exact h s₁ locks hs₁ hacq

/-- An unlock, whatever the others have done before it. -/
theorem wpM_unlock {fd : Fd} {off len : Nat} {Q : Unit → DB → τ → Prop}
    (h : ∀ s₁, R.rely s s₁ → ∃ s₂,
      R.erase s₂ = { R.erase s₁ with
        locks := RangeLock.clip (R.erase s₁).locks p fd off (lockStop off len) } ∧
      R.guar (.unlock fd off len) s₁ s₂ ∧ Q () db s₂) :
    wpM R p (sys (.unlock fd off len)) Q H db s := by
  intro s₁ hs₁ r σ' hst
  cases hst
  exact h s₁ hs₁

end Calls

end LearningNotes.Db
