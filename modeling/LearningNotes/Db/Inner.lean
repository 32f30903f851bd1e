import LearningNotes.Db.WriteRules

/-!
# Locks in the middle of a call

While a call has its chain, it takes a second lock and gives it back: the lock of the free
list, of the end of the index file, or of the data file. `Has` goes through both steps
(`wpM_lockInner`, `wpM_unlockInner`); `HasFree` adds what is known in between about the
free list.
-/

namespace LearningNotes.Db

open RangeLock (Held InRange clip acquire)

variable {P : List Byte → Prop} {p : Pid} {E : Env P p} {call : Call} {H : Fatal → World → Prop}
  {db : DB} {w w' : World} {key : List Byte} {t : LockType} {S : Fd → Nat → Prop}
  {old : Option (List Byte)} {size : Nat × Nat} {u : Part} {fd : Fd} {off len : Nat}

/-- The locks `S`, and one more range. -/
def locking (S : Fd → Nat → Prop) (fd : Fd) (off len : Nat) : Fd → Nat → Prop :=
  fun f n => S f n ∨ (f = fd ∧ InRange off (lockStop off len) n)

/-- A range that has no lock of a chain. -/
def OffChains (fd : Fd) (off len : Nat) : Prop :=
  ∀ i, i < NHASH_DEF → ¬ (fd = .idxfd ∧ InRange off (lockStop off len) (Place.chain i).byte)

/-- A lock is granted, and what is known of the record stays. -/
theorem Has.lock {table : List (RangeLock Pid Fd)} (h : Has E key t S old size u w)
    (hacq : acquire w.os.locks p fd .wrlck off (lockStop off len) = some table)
    (hnone : ∀ n, InRange off (lockStop off len) n → ∀ t', ¬ Held w.os.locks p fd t' n) :
    Has E key t (locking S fd off len) old size u (w.setLocks table) := by
  refine ⟨Inv.lock hacq hnone h.inv, (held_lock hacq hnone).mpr (Or.inl h.held), ?_, h.cells, h.gap,
    h.hand, h.pend, h.moved, h.others, h.old, h.lin, h.alone⟩
  intro f t' n hh
  rcases (held_lock hacq hnone).mp hh with hh | ⟨-, hf, -, hn⟩
  · exact Or.inl (h.locks _ _ _ hh)
  · exact Or.inr ⟨hf, hn⟩

/-- A second lock. -/
theorem wpM_lockInner {Q : Unit → DB → World → Prop} (h : Has E key t S old size u w)
    (hS : ∀ n, InRange off (lockStop off len) n → ¬ S fd n)
    (hq : ∀ w₁ table, E.rel w w₁ →
      acquire w₁.os.locks p fd .wrlck off (lockStop off len) = some table →
      (∀ n, InRange off (lockStop off len) n → Held (w₁.setLocks table).os.locks p fd .wrlck n) →
      Has E key t (locking S fd off len) old size u (w₁.setLocks table) →
      Q () db (w₁.setLocks table)) :
    wpM (rules E call) p (sys (.lock fd .wrlck off len)) Q H db w := by
  have hnone : ∀ n, InRange off (lockStop off len) n → ∀ t', ¬ Held w.os.locks p fd t' n :=
    fun n hn t' hh => hS n hn (h.locks _ _ _ hh)
  refine wpM_lockRange hnone fun w₁ table hw₁ hacq hnone₁ => ?_
  refine hq w₁ table hw₁ hacq (fun n hn => ?_) ((h.rel hw₁).lock hacq hnone₁)
  exact (held_lock hacq hnone₁).mpr (Or.inr ⟨rfl, rfl, rfl, hn⟩)

/-- The second lock is given back, and the abstract map stays as it is. -/
theorem wpM_unlockInner {Q : Unit → DB → World → Prop}
    (h : Has E key t (locking S fd off len) old size u w) (hgap : u.gap = none)
    (hone : OneChain key (locking S fd off len)) (hoff : OffChains fd off len)
    (hclean : ∀ w₁, E.rel w w₁ → w₁.Owns p .free → w₁.wiped = none)
    (hq : ∀ w₁ w', E.rel w w₁ → w'.cells = w₁.cells → w'.wrote = w₁.wrote →
      Has E key t S old size u w' → Q () db w') :
    wpM (rules E call) p (sys (.unlock fd off len)) Q H db w := by
  refine wpM_release (fun w₁ => w₁.map) (fun w₁ => w₁.lin p) fun w₁ hw₁ => ?_
  have h₁ := h.rel hw₁
  have hrel : Releasable P p w₁ fd off (lockStop off len) w₁.map :=
    ⟨h₁.inv, h₁.calm hgap hone, hclean w₁ hw₁, fun _ _ => rfl,
      fun _ k _ hf hin => absurd ⟨hf, hin⟩ (hoff _ (dbHash_lt k))⟩
  refine ⟨hrel, Or.inl ⟨rfl, rfl⟩, hq w₁ _ hw₁ rfl rfl ?_⟩
  refine ⟨Inv.release hrel, ?_, ?_, h₁.cells, h₁.gap, h₁.hand, h₁.pend, h₁.moved, h₁.others, h₁.old, ?_,
    h₁.alone⟩
  · exact held_release.mpr ⟨h₁.held, fun hin => hoff _ (dbHash_lt key) ⟨hin.2.1.symm, hin.2.2⟩⟩
  · intro f t' n hh
    obtain ⟨hh, hnot⟩ := held_release.mp hh
    exact (h₁.locks _ _ _ hh).resolve_right fun hn => hnot ⟨rfl, hn⟩
  · exact (Function.update_self ..).trans h₁.lin

/-! ## The lock of the free list -/

/-- The lock of a chain and the lock of the free list. -/
def onFree (key : List Byte) : Fd → Nat → Prop := locking (onChain key) .idxfd FREE_OFF 1

/-- Of the chains only the one of the key is locked. -/
theorem oneChain_onFree (key : List Byte) : OneChain key (onFree key) := by
  intro i hi
  rcases hi with hi | ⟨-, hn⟩
  · exact Or.inl (byte_chain_inj hi.2)
  · have hb := inRange_byte.mp hn
    simp only [Place.byte, FREE_OFF, PTR_SZ, HASH_OFF] at hb
    omega

/-- The lock of the free list is apart from those of the chains. -/
theorem offChains_free : OffChains .idxfd FREE_OFF 1 := by
  intro i _ h
  have hb := inRange_byte.mp h.2
  simp only [Place.byte, FREE_OFF, PTR_SZ, HASH_OFF] at hb
  omega

/-- The lock of a chain is not that of the free list. -/
theorem byte_pos (key : List Byte) : 0 < (World.chainOf key).byte := by
  simp only [Place.byte, PTR_SZ, HASH_OFF]
  omega

/-- The locks of the chains are in front of the records. -/
theorem byte_lt_recs (key : List Byte) : (World.chainOf key).byte < recsOff := by
  have hlt := dbHash_lt key
  simp only [Place.byte, recsOff, NHASH_DEF, PTR_SZ, HASH_OFF] at hlt ⊢
  omega

/-- Who works on a chain does not append. -/
theorem noGrow_onChain (key : List Byte) : NoGrow (onChain key) := by
  refine ⟨fun hs => ?_, fun hs => absurd hs.1 (by decide)⟩
  exact absurd hs.2 (Nat.ne_of_gt (byte_lt_recs key))

/-- Who works on the free list does not append. -/
theorem noGrow_onFree (key : List Byte) : NoGrow (onFree key) := by
  refine ⟨fun h => ?_, fun h => ?_⟩
  · rcases h with h | ⟨-, hn⟩
    · exact (noGrow_onChain key).tail h
    · exact absurd (inRange_byte.mp hn) (by decide)
  · rcases h with h | h
    · exact (noGrow_onChain key).dat h
    · exact absurd h.1 (by decide)

/-- `Has` with the lock of the free list, which has the cells `f`. -/
structure HasFree (E : Env P p) (key : List Byte) (old : Option (List Byte)) (size : Nat × Nat)
    (u : Part) (f : List Cell) (z : Option Nat) (w : World) : Prop where
  has : Has E key .wrlck (onFree key) old size u w
  owns : w.Owns p .free
  free : w.cells .free = f
  wiped : w.wiped = z

variable {f : List Cell} {z : Option Nat}

/-- What the others do leaves it so. -/
theorem HasFree.rel (h : HasFree E key old size u f z w) (hr : E.rel w w') :
    HasFree E key old size u f z w' := by
  have hrely := E.rely hr
  exact ⟨h.has.rel hr, hrely.holds.mpr h.owns, (hrely.cells _ h.owns.sees).trans h.free,
    (hrely.wiped h.owns.sees).trans h.wiped⟩

/-- With no record half way there is nothing to hide. -/
theorem HasFree.calm (h : HasFree E key old size u f z w) (hgap : u.gap = none) : Calm p w :=
  h.has.calm hgap (oneChain_onFree key)

/-- The other chains are none of the process's business. -/
theorem HasFree.calm_ne (h : HasFree E key old size u f z w) {i : Nat}
    (hi : i ≠ dbHash NHASH_DEF key) (ho : w.Owns p (.chain i)) : w.gap i = none := by
  rcases h.has.locks _ _ _ ho with hn | ⟨-, hn⟩
  · exact absurd (byte_chain_inj hn.2) hi
  · have hb := inRange_byte.mp hn
    simp only [FREE_OFF, PTR_SZ, HASH_OFF] at hb
    omega

/-- The head of the free list. -/
theorem HasFree.thread (h : HasFree E key old size u f z w) :
    w.x.get .free = some (start f) ∧ Seg 0 link (start f) f 0 := by
  obtain ⟨a, ha, hseg⟩ := h.has.inv.lists.free.thread
  rw [h.free] at hseg
  have hstart : a = start f := hseg.start
  subst hstart
  exact ⟨ha, hseg⟩

/-- A write under the lock of the free list. -/
theorem HasFree.write {u' : Part} {f' : List Cell} {z' : Option Nat} {op : Op}
    (h : HasFree E key old size u f z w) (hg : Guar P p call op w w')
    (hlocks : w'.os.locks = w.os.locks) (hmap : w'.map = w.map) (hlin : w'.lin = w.lin)
    (hcells : w'.cells (World.chainOf key) = u'.cells)
    (hgap : w'.gap (dbHash NHASH_DEF key) = u'.gap) (hhand : w'.cells (.hand p) = u'.hand)
    (hpend : w'.pend p = u'.pend) (hmoved : w'.moved p = u'.moved) (hfree : w'.cells .free = f') (hwiped : w'.wiped = z')
    (hlook : ∀ k, k ≠ key → lookup k u'.cells = lookup k u.cells) :
    HasFree E key old size u' f' z' w' := by
  have hsize := (noGrow_onFree key).same_size h.has.locks hg
  exact ⟨h.has.write hg hsize.trans hlocks hmap hlin hcells hgap hhand hpend hmoved hlook,
    (Owns.congr hlocks).mpr h.owns, hfree, hwiped⟩

/-- The lock of the free list is taken. -/
theorem wpM_lockFree {Q : Unit → DB → World → Prop} (h : Has E key .wrlck (onChain key) old size u w)
    (hq : ∀ w', HasFree E key old size u (w'.cells .free) none w' → Q () db w') :
    wpM (rules E call) p (sys (.lock .idxfd .wrlck FREE_OFF 1)) Q H db w := by
  refine wpM_lockInner h ?_ fun w₁ table hw₁ hacq hheld h₂ => ?_
  · intro n hn hs
    have hb := byte_pos key
    rw [← hs.2, inRange_byte.mp hn] at hb
    exact absurd hb (by decide)
  · refine hq _ ⟨h₂, hheld _ (inRange_byte.mpr rfl), rfl, ?_⟩
    -- data is blanked under this lock only, and nobody else had it
    show w₁.wiped = none
    have h₁ := h.rel hw₁
    by_contra hne
    obtain ⟨q, ho⟩ := h₁.inv.guarded.wiped hne
    by_cases hqp : q = p
    · exact not_owns_free h₁.locks (hqp ▸ ho)
    · have hrd := RangeLock.exclusive_of_acquire hacq hqp (inRange_byte.mpr rfl) ho
      exact absurd hrd.1 (by decide)

/-- The lock of the free list is given back. -/
theorem wpM_unlockFree {Q : Unit → DB → World → Prop} (h : HasFree E key old size u f none w)
    (hgap : u.gap = none)
    (hq : ∀ w', Has E key .wrlck (onChain key) old size u w' → Q () db w') :
    wpM (rules E call) p (unLock .idxfd FREE_OFF 1) Q H db w :=
  wpM_unlockInner h.has hgap (oneChain_onFree key) offChains_free
    (fun _ hw₁ _ => (h.rel hw₁).wiped) fun _ w' _ _ _ h' => hq w' h'

end LearningNotes.Db
