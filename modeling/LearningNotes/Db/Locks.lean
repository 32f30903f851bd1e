import LearningNotes.Db.World
import Mathlib.Logic.Function.Basic

/-!
# Taking and giving back locks

A lock that a process takes in a range where it holds none so far gives it rights and
takes none away (`Inv.lock`). Giving a lock back is where a call takes effect: the
process puts the abstract map, and the result its call will have, in line with the lists
it gives back (`World.release`, `Inv.release`).

`HoldsOnly` bounds what a process holds from above, `World.Owns` and its relatives from
below; a call keeps both up to date.
-/

namespace LearningNotes.Db

open Function (update update_self update_of_ne)
open RangeLock (Held InRange acquire clip held_acquire held_clip exclusive_of_acquire)

variable {P : List Byte → Prop} {p q : Pid} {call : Call} {op : Op} {w w' : World}
  {fd : Fd} {type : LockType} {start : Nat} {stop : Option Nat}
  {table : List (RangeLock Pid Fd)} {S : Fd → Nat → Prop}

/-- Process `p` holds locks on these bytes only. -/
def HoldsOnly (p : Pid) (w : World) (S : Fd → Nat → Prop) : Prop :=
  ∀ f t n, Held w.os.locks p f t n → S f n

/-- The byte whose lock is the lock of a list. -/
def Place.byte : Place → Nat
  | .free => FREE_OFF
  | .chain h => h * PTR_SZ + HASH_OFF
  | .hand _ => 0

/-- The other processes do not take our locks, nor give them to us. -/
theorem HoldsOnly.rely {w' : World} (h : HoldsOnly p w S) (hr : Rely P p w w') :
    HoldsOnly p w' S := fun f t n hn => h f t n ((hr.locks f t n).mp hn)

namespace World

/-- A new lock table. -/
def setLocks (w : World) (table : List (RangeLock Pid Fd)) : World :=
  { w with os := { w.os with locks := table } }

/-- A new lock table, and process `p` brings the map up to date. -/
def release (w : World) (table : List (RangeLock Pid Fd)) (p : Pid) (map : Map)
    (r : Option Ret) : World :=
  { w with os := { w.os with locks := table }, map := map, lin := update w.lin p r }

end World

/-! ## Taking a lock -/

section Lock

variable (hacq : acquire w.os.locks p fd type start stop = some table)
  (hnone : ∀ n, InRange start stop n → ∀ t, ¬ Held w.os.locks p fd t n)

include hacq hnone

/-- What is held afterwards. -/
theorem held_lock {f : Fd} {t : LockType} {n : Nat} :
    Held (w.setLocks table).os.locks q f t n ↔
      Held w.os.locks q f t n ∨ (q = p ∧ f = fd ∧ t = type ∧ InRange start stop n) := by
  refine (held_acquire hacq).trans ⟨?_, ?_⟩
  · intro h
    rcases h with h | ⟨h, -⟩
    · exact Or.inr h
    · exact Or.inl h
  · intro h
    rcases h with h | h
    · refine Or.inr ⟨h, ?_⟩
      intro ⟨hq, hf, hn⟩
      subst hq hf
      exact hnone n hn t h
    · exact Or.inl h

/-- What a process owns it still owns with more locks. -/
theorem owns_lock {ℓ : Place} (h : w.Owns q ℓ) : (w.setLocks table).Owns q ℓ := by
  cases ℓ with
  | free => exact (held_lock hacq hnone).mpr (Or.inl h)
  | chain i => exact (held_lock hacq hnone).mpr (Or.inl h)
  | hand r => exact h

/-- To take a lock keeps the invariant. -/
theorem Inv.lock (hw : Inv P w) : Inv P (w.setLocks table) where
  files := ⟨hw.files.idx, hw.files.ok, hw.files.dat⟩
  placed := by
    have hp := hw.placed
    exact ⟨hp.store, hp.own, hp.once, hp.total, hp.len, hp.named, hp.pend, hp.cover⟩
  lists := ⟨hw.lists.free, hw.lists.chain, hw.lists.range⟩
  guarded := by
    refine ⟨?_, ?_, ?_⟩
    · -- a new exclusive lock is alone, and so is an old one that a new lock meets
      intro q₁ q₂ f t n h₁ h₂
      rcases (held_lock hacq hnone).mp h₁ with h₁ | ⟨rfl, rfl, ht, hn⟩
      · rcases (held_lock hacq hnone).mp h₂ with h₂ | ⟨rfl, rfl, -, hn⟩
        · exact hw.guarded.excl _ _ _ _ _ h₁ h₂
        · by_cases hq : q₁ = q₂
          · exact hq
          · exact absurd (exclusive_of_acquire hacq hq hn h₁).2 (by simp)
      · rcases (held_lock hacq hnone).mp h₂ with h₂ | ⟨hq, -⟩
        · by_cases hq : q₂ = q₁
          · exact hq.symm
          · have hrd := (exclusive_of_acquire hacq hq hn h₂).1
            rw [← ht] at hrd
            exact absurd hrd (by simp)
        · exact hq.symm
    · intro h g hg
      obtain ⟨q, hq₁, hq₂, hq₃⟩ := hw.guarded.gap h g hg
      exact ⟨q, owns_lock hacq hnone hq₁, owns_lock hacq hnone hq₂, hq₃⟩
    · intro hne
      obtain ⟨q, hq⟩ := hw.guarded.wiped hne
      exact ⟨q, owns_lock hacq hnone hq⟩
  legal := hw.legal
  low := hw.low
  wrote := hw.wrote
  map := fun hl k hno => hw.map hl k fun q hq => hno q (owns_lock hacq hnone hq)

/-- The step is one that the other processes rely on. -/
theorem Guar.lock (hw : Inv P w) : Guar P p call op w (w.setLocks table) where
  inv := Inv.lock hacq hnone hw
  locks := by
    intro q hq f t n
    refine (held_lock hacq hnone).trans ⟨fun h => h.resolve_right fun hp => hq hp.1, Or.inl⟩
  cells := fun _ _ => rfl
  gap := fun _ _ => rfl
  map := fun _ _ => rfl
  pend := fun _ _ => rfl
  lin := fun _ _ => rfl
  moved := fun _ _ => rfl
  tail := fun _ => rfl
  datend := fun _ => rfl
  shape := fun _ r hr => ⟨r, hr, .refl r⟩
  kept := fun _ _ r hr _ => ⟨r, hr, rfl⟩
  wrote := fun _ _ => id
  wiped := fun _ => rfl
  live := rfl
  still := fun _ => ⟨rfl, rfl, rfl, rfl, rfl⟩
  put := fun _ _ => Or.inl
  home := fun _ _ => rfl
  turn := .same rfl fun _ _ => ⟨rfl, rfl⟩
  step := Or.inl ⟨rfl, rfl⟩

end Lock

/-! ## Giving a lock back -/

/-- What has to be in order when process `p` gives back the range of the index file (or of
the data file) and the abstract map becomes `m`. -/
structure Releasable (P : List Byte → Prop) (p : Pid) (w : World) (fd : Fd) (start : Nat)
    (stop : Option Nat) (m : Map) : Prop where
  inv : Inv P w
  calm : ∀ h, w.Owns p (.chain h) → w.gap h = none
  clean : w.Owns p .free → w.wiped = none
  same : ∀ k, ¬ w.Owns p (World.chainOf k) → m k = w.map k
  upToDate : w.live → ∀ k, w.Owns p (World.chainOf k) → fd = .idxfd →
    InRange start stop (World.chainOf k).byte → w.view k = m k

section Release

variable {m : Map} {r : Option Ret} (hr : Releasable P p w fd start stop m)

/-- The locks on the bytes are gone, and no others. -/
theorem held_release {f : Fd} {t : LockType} {n : Nat} :
    Held (w.release (clip w.os.locks p fd start stop) p m r).os.locks q f t n ↔
      Held w.os.locks q f t n ∧ ¬ (q = p ∧ f = fd ∧ InRange start stop n) := held_clip

/-- The other processes own what they owned. -/
theorem owns_release_ne {ℓ : Place} (hq : q ≠ p) :
    (w.release (clip w.os.locks p fd start stop) p m r).Owns q ℓ ↔ w.Owns q ℓ := by
  have hiff : ∀ n, Held (w.release (clip w.os.locks p fd start stop) p m r).os.locks q .idxfd
      .wrlck n ↔ Held w.os.locks q .idxfd .wrlck n := by
    intro n
    exact held_release.trans ⟨And.left, fun h => ⟨h, fun hp => hq hp.1⟩⟩
  cases ℓ with
  | free => exact hiff _
  | chain i => exact hiff _
  | hand s => exact Iff.rfl

include hr

/-- To give back a lock keeps the invariant. -/
theorem Inv.release : Inv P (w.release (clip w.os.locks p fd start stop) p m r) where
  files := ⟨hr.inv.files.idx, hr.inv.files.ok, hr.inv.files.dat⟩
  placed := by
    have hp := hr.inv.placed
    exact ⟨hp.store, hp.own, hp.once, hp.total, hp.len, hp.named, hp.pend, hp.cover⟩
  lists := ⟨hr.inv.lists.free, hr.inv.lists.chain, hr.inv.lists.range⟩
  guarded := by
    refine ⟨?_, ?_, ?_⟩
    · intro q₁ q₂ f t n h₁ h₂
      exact hr.inv.guarded.excl _ _ _ _ _ (held_release.mp h₁).1 (held_release.mp h₂).1
    · intro h g hg
      change w.gap h = some g at hg
      obtain ⟨q, hq₁, hq₂, hq₃⟩ := hr.inv.guarded.gap h g hg
      -- a process that gives back its lock has left no gap behind
      have hq : q ≠ p := by
        intro hqp
        rw [hr.calm h (hqp ▸ hq₁)] at hg
        exact absurd hg (by simp)
      exact ⟨q, (owns_release_ne hq).mpr hq₁, (owns_release_ne hq).mpr hq₂, hq₃⟩
    · intro hne
      obtain ⟨q, hq⟩ := hr.inv.guarded.wiped hne
      have hqp : q ≠ p := fun hqp => hne (hr.clean (hqp ▸ hq))
      exact ⟨q, (owns_release_ne hqp).mpr hq⟩
  legal := hr.inv.legal
  low := hr.inv.low
  wrote := hr.inv.wrote
  map := by
    intro hl k hno
    show w.view k = m k
    by_cases hp : w.Owns p (World.chainOf k)
    · -- the process gives this chain back
      have hin : fd = .idxfd ∧ InRange start stop (World.chainOf k).byte := by
        by_contra hn
        exact hno p (held_release.mpr ⟨hp, fun h => hn ⟨h.2.1.symm, h.2.2⟩⟩)
      exact hr.upToDate hl k hp hin.1 hin.2
    · -- another chain: nothing has changed for it
      rw [hr.same k hp]
      refine hr.inv.map hl k fun q hq => ?_
      by_cases hqp : q = p
      · exact hp (hqp ▸ hq)
      · exact hno q ((owns_release_ne hqp).mpr hq)

/-- The step is one that the other processes rely on; the pair may take effect with it. -/
theorem Guar.release (hstep : (m = w.map ∧ r = w.lin p) ∨
    (w.lin p = none ∧ m = (call.spec w.map).1 ∧ r = some (call.spec w.map).2)) :
    Guar P p call op w (w.release (clip w.os.locks p fd start stop) p m r) where
  inv := Inv.release hr
  locks := by
    intro q hq f t n
    exact held_release.trans ⟨And.left, fun h => ⟨h, fun hp => hq hp.1⟩⟩
  cells := fun _ _ => rfl
  gap := fun _ _ => rfl
  map := hr.same
  pend := fun _ _ => rfl
  lin := fun _ hq => update_of_ne hq ..
  moved := fun _ _ => rfl
  tail := fun _ => rfl
  datend := fun _ => rfl
  shape := fun _ r hr => ⟨r, hr, .refl r⟩
  kept := fun _ _ r hr _ => ⟨r, hr, rfl⟩
  wrote := fun _ _ => id
  wiped := fun _ => rfl
  live := rfl
  still := fun _ => ⟨rfl, rfl, rfl, rfl, rfl⟩
  put := fun _ _ => Or.inl
  home := fun _ _ => rfl
  turn := .same rfl fun _ _ => ⟨rfl, rfl⟩
  step := by
    rcases hstep with ⟨hm, hl⟩ | ⟨hn, hm, hl⟩
    · exact Or.inl ⟨hm, (update_self ..).trans hl⟩
    · exact Or.inr ⟨hn, hm, (update_self ..).trans hl⟩

end Release

end LearningNotes.Db
