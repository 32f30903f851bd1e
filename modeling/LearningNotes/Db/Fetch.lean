import LearningNotes.Db.Find

/-!
# The end of a call, and `db_fetch`

A call takes effect when it gives back the lock of its chain: at that moment the abstract
map moves on as the call's specification says, and the chain is in line with it
(`wpM_finish`). `Done` is what is left to the caller: nothing is held, and as long as no
process has been stopped half way, the result is the one of the specification.
-/

namespace LearningNotes.Db

open RangeLock (Held InRange clip)

variable {P : List Byte → Prop} {p : Pid} {E : Env P p} {call : Call} {H : Fatal → World → Prop}
  {db : DB} {w : World} {key : List Byte} {t : LockType} {S : Fd → Nat → Prop}
  {old : Option (List Byte)} {size : Nat × Nat} {u : Part}

/-- A call of process `p` has returned `ret`. -/
structure Done (P : List Byte → Prop) (p : Pid) (ret : Ret) (w : World) : Prop where
  idle : Idle P p w
  lin : w.live → w.lin p = some ret

/-- Giving a lock back, with a new map. -/
theorem wpM_release {fd : Fd} {off len : Nat} {Q : Unit → DB → World → Prop}
    (m : World → Map) (r : World → Option Ret)
    (h : ∀ w₁, E.rel w w₁ → Releasable P p w₁ fd off (lockStop off len) (m w₁) ∧
      ((m w₁ = w₁.map ∧ r w₁ = w₁.lin p) ∨ (w₁.lin p = none ∧ m w₁ = (call.spec w₁.map).1 ∧
        r w₁ = some (call.spec w₁.map).2)) ∧
      Q () db (w₁.release (clip w₁.os.locks p fd off (lockStop off len)) p (m w₁) (r w₁))) :
    wpM (rules E call) p (sys (.unlock fd off len)) Q H db w := by
  refine wpM_unlock fun w₁ hw₁ => ?_
  obtain ⟨hrel, hstep, hq⟩ := h w₁ hw₁
  exact ⟨_, rfl, fun _ => Guar.release hrel hstep, hq⟩

theorem not_owns_free (h : HoldsOnly p w (onChain key)) : ¬ w.Owns p .free := by
  intro ho
  have hb := (h _ _ _ ho).2
  simp only [Place.byte, FREE_OFF, PTR_SZ, HASH_OFF] at hb
  omega

/-- What the call does to the map, and the result it will have, from the old value of its
key. -/
structure Effect (call : Call) (key : List Byte) (t : LockType) (old : Option (List Byte))
    (ret : Ret) (new : Option (List Byte)) : Prop where
  onKey : call.key? = some key
  ret : ∀ m : Map, m key = old → (call.spec m).2 = ret
  new : ∀ m : Map, m key = old → (call.spec m).1 key = new
  reads : t = .rdlck → ∀ m : Map, (call.spec m).1 = m

/-- **The last step of a call**: its lock is given back and it takes effect. -/
theorem wpM_finish {Q : Unit → DB → World → Prop} {ret : Ret} (hdb : Handle key db)
    (h : Has E key t (onChain key) old size u w) (hu : u = ⟨u.cells, none, [], [], u.moved⟩)
    (heff : Effect call key t old ret (lookup key u.cells))
    (hq : ∀ w', Done P p ret w' → w'.cells (World.chainOf key) = u.cells → Q () db w') :
    wpM (rules E call) p (unLock .idxfd db.chainoff 1) Q H db w := by
  have hgap : u.gap = none := by rw [hu]
  have hoff : db.chainoff.toNat = (World.chainOf key).byte := by
    rw [hdb.chainoff]
    rfl
  unfold unLock
  rw [hoff]
  refine wpM_release (fun w₁ => (call.spec w₁.map).1) (fun w₁ => some (call.spec w₁.map).2)
    fun w₁ hw₁ => ?_
  have h₁ := h.rel hw₁
  have hrel : Releasable P p w₁ .idxfd (World.chainOf key).byte
      (lockStop (World.chainOf key).byte 1) (call.spec w₁.map).1 := by
    refine ⟨h₁.inv, h₁.calm hgap (oneChain_onChain key), ?_, ?_, ?_⟩
    · intro ho
      exact absurd ho (not_owns_free h₁.locks)
    · intro k hk
      by_cases hkey : k = key
      · -- no exclusive lock on the own chain: a reader
        have ht : t = .rdlck := by
          cases t with
          | rdlck => rfl
          | wrlck => exact absurd (hkey ▸ h₁.held) hk
        rw [heff.reads ht]
      · exact call.spec_ne _ fun hc => hkey (Option.some.inj (hc.symm.trans heff.onKey))
    · intro hl k hk _ hin
      -- the keys of the chain: the call has changed no other than its own
      have hch : World.chainOf k = World.chainOf key :=
        congrArg Place.chain (byte_chain_inj (inRange_byte.mp hin))
      by_cases hkey : k = key
      · subst hkey
        rw [heff.new _ (h₁.old hl), World.view, h₁.cells]
      · rw [World.view, hch, h₁.cells, h₁.others hl k hkey hch]
        exact (call.spec_ne _ fun hc => hkey (Option.some.inj (hc.symm.trans heff.onKey))).symm
  refine ⟨hrel, Or.inr ⟨h₁.lin, rfl, rfl⟩, hq _ ?_ h₁.cells⟩
  refine ⟨⟨Inv.release hrel, ?_, ?_, ?_⟩, ?_⟩
  · intro f t' n hh
    obtain ⟨hh, hnot⟩ := held_release.mp hh
    obtain ⟨hf, hn⟩ := h₁.locks _ _ _ hh
    exact hnot ⟨rfl, hf, inRange_byte.mpr hn⟩
  · show w₁.cells _ = _
    rw [h₁.hand, hu]
  · show w₁.pend p = _
    rw [h₁.pend, hu]
  · intro hl
    refine (Function.update_self ..).trans ?_
    rw [heff.ret _ (h₁.old hl)]

/-! ## `db_fetch` -/

/-- The block of a cell of the own chain. -/
theorem Has.block (h : Has E key t S old size u w) {e : Cell} (he : e ∈ u.cells) :
    blockAt w.y e.2.datoff = some e.2.data ∧ e.2.datlen = blockSize e.2.data :=
  ⟨h.inv.placed.block (h.cells ▸ he), h.inv.placed.len _ e (h.cells ▸ he)⟩

/-- The cells of its chain that a lookup of `key` reads. -/
def readCells (key : List Byte) : List Cell → List Cell
  | [] => []
  | e :: c => if e.2.key = key then [e] else e :: readCells key c

theorem readCells_absent {c : List Cell} (h : key ∉ c.map (·.2.key)) : readCells key c = c := by
  induction c with
  | nil => rfl
  | cons e c ih =>
    rw [List.map_cons, List.mem_cons, not_or] at h
    rw [readCells, if_neg (fun he => h.1 he.symm), ih h.2]

theorem readCells_found {c₁ c₂ : List Cell} {o : Nat} {it : Item} (h : key ∉ c₁.map (·.2.key))
    (hk : it.key = key) : readCells key (c₁ ++ (o, it) :: c₂) = c₁ ++ [(o, it)] := by
  induction c₁ with
  | nil => exact if_pos hk
  | cons e c₁ ih =>
    rw [List.map_cons, List.mem_cons, not_or] at h
    rw [List.cons_append, readCells, if_neg (fun he => h.1 he.symm), ih h.2, List.cons_append]

/-- Where a lookup of `key` along the chain `c` leaves the file offset. -/
def readStop (key : List Byte) (c : List Cell) : Nat :=
  endPos ((World.chainOf key).byte + PTR_SZ) (readCells key c)

/-- `db_fetch` returns what the chain says when the lock is granted. -/
theorem wpM_fetch {k : CString} {Q : Option (List Byte) → DB → World → Prop} (hidle : Ready P p w)
    (hdb : Opened db)
    (hq : ∀ w₀ db' w', E.rel w w₀ → Opened db' →
      db'.idxpos = readStop k.val (w₀.cells (World.chainOf k.val)) →
      Done P p (.data (w₀.view k.val)) w' → Q (w₀.view k.val) db' w')
    (hbad : ∀ w₀ w' u, E.rel w w₀ → u = .whole (w₀.cells (World.chainOf k.val)) →
      Has E k.val .rdlck (onChain k.val) (w₀.view k.val) (w₀.x.size, w₀.os.dat.length) u w' →
      (∃ e ∈ u.cells, SEP ∈ e.2.key) → H .readidxTooManySeps w') :
    wpM (rules E (.fetch k)) p (dbFetch k) Q H db w := by
  have heff : ∀ old : Option (List Byte), Effect (.fetch k) k.val .rdlck old (.data old) old :=
    fun old => ⟨rfl, fun m hm => by rw [← hm]; rfl, fun m hm => hm, fun _ _ => rfl⟩
  unfold dbFetch
  rw [wpM_bind]
  refine wpM_findAndLock hidle hdb rfl ?_ ?_ hbad
  · intro w₀ db' w' u hw₀ hu h hn
    have hview : w₀.view k.val = lookup k.val u.cells := by rw [hu]; rfl
    have he : Effect (.fetch k) k.val .rdlck (w₀.view k.val) (.data (w₀.view k.val))
        (lookup k.val u.cells) := by
      rw [← hview]
      exact heff _
    -- the walk has come to the end of the chain
    have hnone : w₀.view k.val = none := hview.trans (lookup_eq_none hn.absent)
    dsimp only
    rw [wpM_ite, if_pos (by decide)]
    simp only [wpM_pure, wpM_bind, wpM_get]
    refine wpM_finish hn.handle h (by rw [hu]; rfl) he ?_
    intro w'' hd _
    rw [hnone] at hd
    have hwalk : db'.idxpos = readStop k.val u.cells := by
      rw [readStop, readCells_absent hn.absent]
      exact hn.idxpos
    rw [hu] at hwalk
    have := hq w₀ db' w'' hw₀ hn.handle.toOpened hwalk (hnone ▸ hd)
    rwa [hnone] at this
  · intro w₀ c₁ o it c₂ db' w' u hw₀ hu h hf
    have hview : w₀.view k.val = lookup k.val u.cells := by rw [hu]; rfl
    have he : Effect (.fetch k) k.val .rdlck (w₀.view k.val) (.data (w₀.view k.val))
        (lookup k.val u.cells) := by
      rw [← hview]
      exact heff _
    have hsome : w₀.view k.val = some it.data.val := by
      rw [hview, hf.split, lookup_found hf.absent hf.same]
    dsimp only
    rw [wpM_ite, if_neg (by decide)]
    simp only [wpM_map, wpM_bind, wpM_get]
    -- the record has been found: its data is read under the same lock
    refine wpM_readdat hf.loaded.datoff fun w₁ hw₁ => ?_
    have h₁ := h.rel hw₁
    obtain ⟨hb, hlen⟩ := h₁.block (mem_of_split hf.split)
    refine ⟨h₁.inv.files, it.data, hb, hf.loaded.datlen.trans hlen, ?_⟩
    have hh : Handle k.val { db' with datbuf := it.data.val, datpos := it.datoff + blockSize it.data } :=
      ⟨⟨hf.handle.nhash, hf.handle.hashoff⟩, hf.handle.chainoff⟩
    refine wpM_finish hh h₁ (by rw [hu]; rfl) he ?_
    intro w'' hd _
    have hwalk : db'.idxpos = readStop k.val u.cells := by
      rw [readStop, hf.split, readCells_found hf.absent hf.same, endPos_concat]
      exact hf.loaded.idxpos
    rw [hu] at hwalk
    have := hq w₀ _ w'' hw₀ hh.toOpened hwalk hd
    rwa [hsome] at this

end LearningNotes.Db
