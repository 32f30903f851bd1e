import LearningNotes.Db.Scan
import LearningNotes.Db.Store

/-!
# What a call leaves behind

One precondition for the three calls that work on the map, whichever paths they take:
`wpM_call`. A call ends in one of two ways. It returns, and then the process is idle and its
result is the one of the specification (`Returns`). Or a check ends the process, in a state
that the others can live with once its locks are gone (`Leaves`, `Inv.exit`).

The checks that can do this are of two kinds. The limits (`Fatal.IsLimit`) depend on the call
and the lengths of the files (`Call.Fits`). The other one is the check of `_db_readidx` for
too many separators, which only a key with a separator can fail.
-/

namespace LearningNotes.Db

open RangeLock (Held releaseAll held_releaseAll)

variable {P : List Byte → Prop} {p q : Pid} {E : Env P p} {c call : Call} {op : Op}
  {H : Fatal → World → Prop} {db : DB} {w w' w₁ w₂ w₃ : World} {key : List Byte} {t : LockType}
  {old : Option (List Byte)} {size : Nat × Nat} {u : Part} {ret : Ret}

/-- The check of a limit: of the length of the data, the length of an index record, or an
offset. -/
def Fatal.IsLimit (e : Fatal) : Prop :=
  e = .storeInvalidLength ∨ e = .writeidxInvalidLength ∨ e = .writeptrInvalidPtr

/-- A fetch, a delete, or a store of a key that satisfies `P`. -/
def Call.OnMap (P : List Byte → Prop) : Call → Prop
  | .store key _ _ => P key.val
  | .fetch _ | .delete _ => True
  | _ => False

/-- The call stays within the limits, if it finds the files as they are. -/
def Call.Fits (os : OS) : Call → Prop
  | .store key data _ =>
    (DATLEN_MIN ≤ data.val.length + 1 ∧ data.val.length + 1 ≤ DATLEN_MAX) ∧
      RoomFor key.val data os.idx.length os.dat.length
  | _ => True

/-! ## The end of a process -/

/-- A process may end here. If it has not changed its chain, the chain agrees with the map. -/
structure Leaves (P : List Byte → Prop) (p : Pid) (w : World) : Prop where
  inv : Inv P w
  calm : ∀ h, w.Owns p (.chain h) → w.gap h = none
  clean : w.Owns p .free → w.wiped = none
  lin : w.lin p = none
  same : w.moved p = false → w.live → ∀ k, w.Owns p (World.chainOf k) → w.view k = w.map k

theorem Leaves.rely (h : Leaves P p w) (hr : Rely P p w w') : Leaves P p w' where
  inv := hr.inv h.inv
  calm := by
    intro i ho
    have ho' : w.Owns p (.chain i) := hr.holds.mp ho
    rw [hr.gap i ho'.sees]
    exact h.calm i ho'
  clean := by
    intro ho
    have ho' : w.Owns p .free := hr.holds.mp ho
    rw [hr.wiped ho'.sees]
    exact h.clean ho'
  lin := hr.lin.trans h.lin
  same := by
    intro hm hl k ho
    have ho' : w.Owns p (World.chainOf k) := hr.holds.mp ho
    rw [hr.map k ho'.sees, World.view, hr.cells _ ho'.sees]
    exact h.same (hr.moved ▸ hm) (hr.live hl) k ho'

/-- An idle process may end. -/
theorem Ready.leaves (h : Ready P p w) : Leaves P p w where
  inv := h.inv
  calm := fun _ ho => absurd (h.locks _ _ _ ho) id
  clean := fun ho => absurd (h.locks _ _ _ ho) id
  lin := h.lin
  same := fun _ _ _ ho => absurd (h.locks _ _ _ ho) id

/-- A process that has only the lock of its chain may end. -/
theorem Has.leaves (h : Has E key t (onChain key) old size u w) (hgap : u.gap = none)
    (hsame : u.moved = false → lookup key u.cells = old) : Leaves P p w where
  inv := h.inv
  calm := h.calm hgap (oneChain_onChain key)
  clean := fun ho => absurd ho (not_owns_free h.locks)
  lin := h.lin
  same := by
    intro hm hl k ho
    have hch : World.chainOf k = World.chainOf key :=
      congrArg Place.chain (byte_chain_inj (h.locks _ _ _ ho).2)
    rw [World.view, hch, h.cells]
    by_cases hk : k = key
    · rw [hk, h.old hl]
      exact hsame (h.moved ▸ hm)
    · exact h.others hl k hk hch

/-- The process `p` is gone. -/
def World.exit (w : World) (p : Pid) (live : Prop) : World :=
  { w with os := { w.os with locks := releaseAll w.os.locks p }, live := live }

theorem owns_exit {live : Prop} {ℓ : Place} (hℓ : ∀ r, ℓ ≠ .hand r) :
    (w.exit p live).Owns q ℓ ↔ w.Owns q ℓ ∧ q ≠ p := by
  cases ℓ with
  | free => exact held_releaseAll
  | chain h => exact held_releaseAll
  | hand r => exact absurd rfl (hℓ r)

/-- A process that ends leaves the invariant to the others. The map is right as long as no
process ends behind a change of its chain. -/
theorem Inv.exit (h : Leaves P p w) {live : Prop} (hlive : live → w.live ∧ w.moved p = false) :
    Inv P (w.exit p live) where
  files := ⟨h.inv.files.idx, h.inv.files.ok, h.inv.files.dat⟩
  placed := by
    have hp := h.inv.placed
    exact ⟨hp.store, hp.own, hp.once, hp.total, hp.len, hp.named, hp.pend, hp.cover⟩
  lists := ⟨h.inv.lists.free, h.inv.lists.chain, h.inv.lists.range⟩
  guarded := by
    refine ⟨?_, ?_, ?_⟩
    · intro q₁ q₂ f t n h₁ h₂
      exact h.inv.guarded.excl _ _ _ _ _ (held_releaseAll.mp h₁).1 (held_releaseAll.mp h₂).1
    · intro i g hg
      obtain ⟨q, hq₁, hq₂, hq₃⟩ := h.inv.guarded.gap i g hg
      have hqp : q ≠ p := by
        intro hqp
        have hnone := h.calm i (hqp ▸ hq₁)
        rw [show w.gap i = some g from hg] at hnone
        exact absurd hnone (by simp)
      exact ⟨q, (owns_exit (by simp)).mpr ⟨hq₁, hqp⟩, (owns_exit (by simp)).mpr ⟨hq₂, hqp⟩, hq₃⟩
    · intro hne
      obtain ⟨q, hq⟩ := h.inv.guarded.wiped hne
      have hqp : q ≠ p := fun hqp => hne (h.clean (hqp ▸ hq))
      exact ⟨q, (owns_exit (by simp)).mpr ⟨hq, hqp⟩⟩
  legal := h.inv.legal
  low := h.inv.low
  wrote := h.inv.wrote
  map := by
    intro hl k hno
    obtain ⟨hl, hm⟩ := hlive hl
    show w.view k = w.map k
    by_cases hp : w.Owns p (World.chainOf k)
    · exact h.same hm hl k hp
    · refine h.inv.map hl k fun q hq => ?_
      by_cases hqp : q = p
      · exact hp (hqp ▸ hq)
      · exact hno q ((owns_exit (by simp)).mpr ⟨hq, hqp⟩)

/-- The others do not see that `p` ends. -/
theorem Leaves.rely_exit (h : Leaves P p w) {live : Prop} (hlive : live → w.live ∧ w.moved p = false)
    (hqp : q ≠ p) : Rely P q w (w.exit p live) where
  inv := fun _ => Inv.exit h hlive
  locks := fun _ _ _ => held_releaseAll.trans (and_iff_left hqp)
  cells := fun _ _ => rfl
  gap := fun _ _ => rfl
  map := fun _ _ => rfl
  pend := rfl
  lin := rfl
  moved := rfl
  tail := fun _ => rfl
  datend := fun _ => rfl
  shape := fun _ r hr => ⟨r, hr, .refl r⟩
  kept := fun _ _ r hr _ => ⟨r, hr, rfl⟩
  wrote := fun _ _ => id
  wiped := fun _ => rfl
  live := fun hl => (hlive hl).1

/-- Process `p` begins a call. -/
def World.begin (w : World) (p : Pid) : World :=
  { w with lin := Function.update w.lin p none, moved := Function.update w.moved p false }

theorem Inv.begin (h : Inv P w) (p : Pid) : Inv P (w.begin p) where
  files := ⟨h.files.idx, h.files.ok, h.files.dat⟩
  placed := by
    have hp := h.placed
    exact ⟨hp.store, hp.own, hp.once, hp.total, hp.len, hp.named, hp.pend, hp.cover⟩
  lists := ⟨h.lists.free, h.lists.chain, h.lists.range⟩
  guarded := ⟨h.guarded.excl, h.guarded.gap, h.guarded.wiped⟩
  legal := h.legal
  low := h.low
  wrote := h.wrote
  map := h.map

/-- The others do not see that `p` begins a call. -/
theorem rely_begin (w : World) (hqp : q ≠ p) : Rely P q w (w.begin p) where
  inv := fun hi => hi.begin p
  locks := fun _ _ _ => Iff.rfl
  cells := fun _ _ => rfl
  gap := fun _ _ => rfl
  map := fun _ _ => rfl
  pend := rfl
  lin := Function.update_of_ne hqp ..
  moved := Function.update_of_ne hqp ..
  tail := fun _ => rfl
  datend := fun _ => rfl
  shape := fun _ r hr => ⟨r, hr, .refl r⟩
  kept := fun _ _ r hr _ => ⟨r, hr, rfl⟩
  wrote := fun _ _ => id
  wiped := fun _ => rfl
  live := id

theorem Idle.ready (h : Idle P p w) : Ready P p (w.begin p) :=
  ⟨⟨h.inv.begin p, h.locks, h.hand, h.pend⟩, Function.update_self .., Function.update_self ..⟩

/-! ## The calls -/

/-- The call `c` of process `p` has returned `ret`. A call that makes no system call at all
returns what it returns whatever the map is. -/
structure Returns (P : List Byte → Prop) (p : Pid) (c : Call) (ret : Ret) (w : World) : Prop where
  idle : Idle P p w
  lin : w.live → w.lin p = some ret ∨ (w.lin p = none ∧ ∀ m, c.spec m = (m, ret))

theorem Returns.rely (h : Returns P p c ret w) (hr : Rely P p w w') : Returns P p c ret w' :=
  ⟨h.idle.rely hr, fun hl => hr.lin.symm ▸ h.lin (hr.live hl)⟩

theorem Done.returns (h : Done P p ret w) : Returns P p c ret w :=
  ⟨h.idle, fun hl => Or.inl (h.lin hl)⟩

/-- Why a check has ended the process: call `c`, which found the files of `w`, does not keep
to the limits, or there is a key with a separator. -/
def Why (E : Env P p) (c : Call) (w : World) (e : Fatal) (w' : World) : Prop :=
  (e.IsLimit ∧ (E.Alone → ¬ c.Fits w.os)) ∨
    (e = .readidxTooManySeps ∧ ∃ o r, w'.x.recAt o = some r ∧ SEP ∈ r.key)

/-- The length of the index file. -/
theorem Inv.length_idx (h : Inv P w) : w.os.idx.length = w.x.size := by
  rw [h.files.idx, h.files.ok.length_bytes]

/-- Where a lookup that meets a key with a separator leaves the process. -/
theorem Has.leaves_bad {k : List Byte} (h : Has E k t (onChain k) old size u w')
    (hu : u = .whole (w.cells (World.chainOf k))) (hold : old = w.view k)
    (hs : ∃ e ∈ u.cells, SEP ∈ e.2.key) :
    Leaves P p w' ∧ ∃ o r, w'.x.recAt o = some r ∧ SEP ∈ r.key := by
  subst hu
  obtain ⟨e, he, hsep⟩ := hs
  exact ⟨h.leaves rfl fun _ => hold.symm, e.1, e.2.toRec, h.inv.placed.recAt (h.cells ▸ he), hsep⟩

/-- How a check may end a process in `db_store`, which found the database in the world `w`. -/
inductive StoreStop (E : Env P p) (w : World) (k : List Byte) (data : CString) (flag : Int)
    (w' : World) : Fatal → Prop where
  | length (hlen : ¬ (DATLEN_MIN ≤ data.val.length + 1 ∧ data.val.length + 1 ≤ DATLEN_MAX))
      (hw : w' = w) : StoreStop E w k data flag w' .storeInvalidLength
  | sep (hcells : w'.cells (World.chainOf k) = w.cells (World.chainOf k))
      (hs : ∃ e ∈ w.cells (World.chainOf k), SEP ∈ e.2.key)
      (hrec : ∃ o r, w'.x.recAt o = some r ∧ SEP ∈ r.key) :
      StoreStop E w k data flag w' .readidxTooManySeps
  | room {e : Fatal} (b : Bool) (he : e.IsLimit)
      (hdat : DATLEN_MIN ≤ data.val.length + 1 ∧ data.val.length + 1 ≤ DATLEN_MAX)
      (hroom : E.Alone → ¬ RoomFor k data w.x.size w.os.dat.length)
      (hat : StopsAt w k data flag (w'.cells (World.chainOf k)) b) : StoreStop E w k data flag w' e

/-- `db_store` with a legal flag, and where it leaves the process if a check ends it. -/
theorem wpM_storeEnds {k d : CString} {flag : Int} {Q : Int → DB → World → Prop}
    (hready : Ready P p w) (hdb : Opened db) (hP : P k.val) (hflag : LegalFlag flag)
    (hq : ∀ w₀ db' w', E.rel w w₀ → Opened db' →
      Done P p (.rc (storeRc (w₀.view k.val) flag)) w' →
      (E.Alone → flag ≠ DB_INSERT → Resizes (w₀.view k.val) d →
        RoomFor k.val d w₀.x.size w₀.os.dat.length) →
      (storeRc (w₀.view k.val) flag ≠ 0 →
        w'.cells (World.chainOf k.val) = w₀.cells (World.chainOf k.val)) →
      Q (storeRc (w₀.view k.val) flag) db' w')
    (hstop : ∀ w₀ e w', E.rel w w₀ → Leaves P p w' → StoreStop E w₀ k.val d flag w' e → H e w') :
    wpM (rules E (.store k d flag)) p (dbStore k d flag) Q H db w := by
  refine wpM_store hready hdb hP hflag hq ?_ ?_ ?_
  · intro hlen
    exact hstop w _ w (E.refl w) hready.leaves (.length hlen rfl)
  · intro w₀ w' u hw₀ hu h hs
    obtain ⟨hl, hrec⟩ := h.leaves_bad hu rfl hs
    subst hu
    exact hstop w₀ _ w' hw₀ hl (.sep h.cells hs hrec)
  · intro w₀ ch b e w' hw₀ hdat hs hat
    obtain ⟨size, hand, pend, hhas⟩ := hs.has
    have hcells : w'.cells (World.chainOf k.val) = ch := hhas.cells
    refine hstop w₀ e w' hw₀ (hhas.leaves rfl fun hb => ?_) (.room b (Or.inr hs.check) hdat hs.noRoom ?_)
    · change b = false at hb
      subst hb
      obtain ⟨-, rfl⟩ := hat
      rfl
    · rw [hcells]
      exact hat

/-- A flag that is not legal is refused at once. -/
theorem wpM_storeFlag {k d : CString} {flag : Int} {Q : Int → DB → World → Prop}
    (hflag : ¬ LegalFlag flag) (hq : Q (-1) db w) :
    wpM (rules E (.store k d flag)) p (dbStore k d flag) Q H db w := by
  have hbad : flag ≠ DB_INSERT ∧ flag ≠ DB_REPLACE ∧ flag ≠ DB_STORE := by
    unfold LegalFlag at hflag
    rw [not_or, not_or] at hflag
    exact hflag
  unfold dbStore
  rw [if_pos hbad, wpM_pure]
  exact hq

/-- **The calls on the map.** -/
theorem wpM_call {Q : Ret → DB → World → Prop} (hready : Ready P p w) (hdb : Opened db)
    (hc : c.OnMap P)
    (hq : ∀ r db' w', Opened db' → Returns P p c r w' → Q r db' w')
    (hstop : ∀ e w', Leaves P p w' → Why E c w e w' → H e w') :
    wpM (rules E c) p c.prog Q H db w := by
  have hbad : ∀ (k : List Byte) (t : LockType) w₀ w' u, E.rel w w₀ →
      u = .whole (w₀.cells (World.chainOf k)) →
      Has E k t (onChain k) (w₀.view k) (w₀.x.size, w₀.os.dat.length) u w' →
      (∃ e ∈ u.cells, SEP ∈ e.2.key) → H .readidxTooManySeps w' := by
    intro k t w₀ w' u _ hu h hs
    obtain ⟨hl, hrec⟩ := h.leaves_bad hu rfl hs
    exact hstop _ w' hl (Or.inr ⟨rfl, hrec⟩)
  cases c with
  | fetch k =>
    unfold Call.prog
    simp only [wpM_bind, wpM_pure]
    exact wpM_fetch hready hdb (fun _ db' w' _ hdb' _ hd => hq _ db' w' hdb' hd.returns) (hbad k.val _)
  | delete k =>
    unfold Call.prog
    simp only [wpM_bind, wpM_pure]
    exact wpM_delete hready hdb (fun _ db' w' _ hdb' hd => hq _ db' w' hdb' hd.returns) (hbad k.val _)
  | store k d flag =>
    unfold Call.prog
    simp only [wpM_bind, wpM_pure]
    by_cases hflag : LegalFlag flag
    · refine wpM_storeEnds hready hdb hc hflag
        (fun _ db' w' _ hdb' hd _ _ => hq _ db' w' hdb' hd.returns) ?_
      intro w₀ e w' hw₀ hl hs
      refine hstop e w' hl ?_
      cases hs with
      | length hlen _ => exact Or.inl ⟨Or.inl rfl, fun _ hfits => hlen hfits.1⟩
      | sep _ _ hrec => exact Or.inr ⟨rfl, hrec⟩
      | room b he _ hroom _ =>
        refine Or.inl ⟨he, fun ha hfits => ?_⟩
        have heq := ha _ _ hw₀
        subst heq
        -- alone, the database is as it was at the start of the call
        have hfit := hfits.2
        rw [hready.inv.length_idx] at hfit
        exact hroom ha hfit
    · refine wpM_storeFlag hflag (hq _ db w hdb ⟨hready.toIdle, fun _ => Or.inr ⟨hready.lin, fun m => ?_⟩⟩)
      show (if storeRc (m k.val) flag = 0 then _ else m, Ret.rc (storeRc (m k.val) flag)) = _
      -- a flag that is not legal is refused before any lock
      have hrc : storeRc (m k.val) flag = -1 := if_pos hflag
      rw [hrc, if_neg (by decide)]
  | «open» creat trunc => exact absurd hc id
  | rewind => exact absurd hc id
  | nextrec => exact absurd hc id

/-! ## What a whole call does -/

/-- What the operations of call `c` of process `p` have done together. -/
structure Ran (P : List Byte → Prop) (p : Pid) (c : Call) (w w' : World) : Prop where
  inv : Inv P w'
  hands : ∀ q, q ≠ p → w'.cells (.hand q) = w.cells (.hand q) ∧ w'.pend q = w.pend q
  live : w'.live = w.live
  shape : ∀ o r, w.x.recAt o = some r → ∃ r', w'.x.recAt o = some r' ∧ r.Same r'
  gap : ∀ h, (∀ k, c.key? = some k → dbHash NHASH_DEF k ≠ h) → w'.gap h = w.gap h
  home : ∀ i, (∀ k, c.key? = some k → dbHash NHASH_DEF k ≠ i) →
    w'.cells (.chain i) = w.cells (.chain i)
  rest : ∀ key, c.key? = some key → SEP ∉ key → ∀ k, k ≠ key →
    walk k (w'.cells (World.chainOf key)) = walk k (w.cells (World.chainOf key))
  order : ∀ key, c.key? = some key → w'.moved p = false →
    w.moved p = false ∧ w'.order key = w.order key
  shut : ∀ key, c.key? = some key → w'.moved p = true →
    w'.gap (dbHash NHASH_DEF key) = none ∨
      (w.moved p = true ∧ w'.gap (dbHash NHASH_DEF key) = w.gap (dbHash NHASH_DEF key))
  still : c.Reads → Unwritten w w'
  step : (w'.map = w.map ∧ w'.lin p = w.lin p) ∨
    (w.lin p = none ∧ w'.map = (c.spec w.map).1 ∧ w'.lin p = some (c.spec w.map).2)

theorem Ran.refl (h : Inv P w) : Ran P p c w w :=
  ⟨h, fun _ _ => ⟨rfl, rfl⟩, rfl, fun _ r hr => ⟨r, hr, .refl r⟩, fun _ _ => rfl, fun _ _ => rfl,
    fun _ _ _ _ _ => rfl,
    fun _ _ hm => ⟨hm, rfl⟩, fun _ _ hm => Or.inr ⟨hm, rfl⟩, fun _ => .refl w, Or.inl ⟨rfl, rfl⟩⟩

theorem Guar.ran (h : Guar P p c op w w') : Ran P p c w w' where
  inv := h.inv
  hands := fun q hq => ⟨h.cells _ fun ho => hq (Eq.symm ho), h.pend q hq⟩
  live := h.live
  shape := h.shape
  gap := fun i hi => h.gap i (Or.inr hi)
  home := h.home
  rest := h.turn.rest
  order := h.turn.order
  shut := h.turn.shut
  still := h.still
  step := h.step

theorem Ran.trans (h₁ : Ran P p c w₁ w₂) (h₂ : Ran P p c w₂ w₃) : Ran P p c w₁ w₃ where
  inv := h₂.inv
  hands := fun q hq => ⟨(h₂.hands q hq).1.trans (h₁.hands q hq).1, (h₂.hands q hq).2.trans (h₁.hands q hq).2⟩
  live := h₂.live.trans h₁.live
  shape := by
    intro o r hr
    obtain ⟨r₂, hr₂, hs₂⟩ := h₁.shape o r hr
    obtain ⟨r₃, hr₃, hs₃⟩ := h₂.shape o r₂ hr₂
    exact ⟨r₃, hr₃, hs₂.trans hs₃⟩
  gap := fun i hi => (h₂.gap i hi).trans (h₁.gap i hi)
  home := fun i hi => (h₂.home i hi).trans (h₁.home i hi)
  rest := fun key hk hs k hne => (h₂.rest key hk hs k hne).trans (h₁.rest key hk hs k hne)
  order := by
    intro key hk hm
    obtain ⟨hm₂, ho₂⟩ := h₂.order key hk hm
    obtain ⟨hm₁, ho₁⟩ := h₁.order key hk hm₂
    exact ⟨hm₁, ho₂.trans ho₁⟩
  shut := by
    intro key hk hm
    rcases h₂.shut key hk hm with hnone | ⟨hm₂, hg₂⟩
    · exact Or.inl hnone
    · rcases h₁.shut key hk hm₂ with hnone | ⟨hm₁, hg₁⟩
      · exact Or.inl (hg₂.trans hnone)
      · exact Or.inr ⟨hm₁, hg₂.trans hg₁⟩
  still := fun hr => (h₁.still hr).trans (h₂.still hr)
  step := by
    rcases h₁.step with ⟨hm₁, hl₁⟩ | ⟨hn₁, hm₁, hl₁⟩
    · rcases h₂.step with ⟨hm₂, hl₂⟩ | ⟨hn₂, hm₂, hl₂⟩
      · exact Or.inl ⟨hm₂.trans hm₁, hl₂.trans hl₁⟩
      · rw [hm₁] at hm₂ hl₂
        exact Or.inr ⟨hl₁ ▸ hn₂, hm₂, hl₂⟩
    · -- the call has taken effect and does not do so again
      rcases h₂.step with ⟨hm₂, hl₂⟩ | ⟨hn₂, -, -⟩
      · exact Or.inr ⟨hn₁, hm₂.trans hm₁, hl₂.trans hl₁⟩
      · rw [hl₁] at hn₂
        exact absurd hn₂ (by simp)

end LearningNotes.Db
