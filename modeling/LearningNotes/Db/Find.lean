import LearningNotes.Db.Locks
import LearningNotes.Db.Moves
import LearningNotes.Db.Reads
import Mathlib.Data.List.Perm.Subperm

/-!
# Finding a record under the lock of its chain

`Has` is what a process knows while it holds the lock of a chain: the cells of the chain,
what it has in its hand, and how the chain compares with the abstract map. Nothing of it
changes while others run (`Has.rel`), so it is carried from one system call to the next
and only the process's own writes change it.

`wpM_findLoop` walks along the cells that are left; `wpM_findAndLock` is
`_db_find_and_lock` as a whole. A chain with a separator in its first key ends the
process before anything is written.
-/

namespace LearningNotes.Db

open RangeLock (Held)

variable {P : List Byte → Prop} {p : Pid} {E : Env P p} {call : Call} {H : Fatal → World → Prop}
  {db : DB} {w w' : World} {key : List Byte} {t : LockType} {S : Fd → Nat → Prop}

/-! ## What a process knows -/

/-- The part of the world a call works on: its chain, and what is in the hand. -/
structure Part where
  cells : List Cell
  gap : Option Gap
  hand : List Cell
  pend : List (Nat × CString)
  moved : Bool

/-- A chain at rest, and nothing in the hand. -/
def Part.whole (c : List Cell) : Part := ⟨c, none, [], [], false⟩

/-- The same, after the call has set a pointer of the chain. -/
def Part.rest (c : List Cell) : Part := ⟨c, none, [], [], true⟩

/-- What process `p` knows while it holds the lock of the chain of `key`. Nobody has told
the others yet what becomes of `key`, which was `old` in the abstract map. `size` are the
lengths of the two files, for a process that runs alone. -/
structure Has (E : Env P p) (key : List Byte) (t : LockType) (S : Fd → Nat → Prop)
    (old : Option (List Byte)) (size : Nat × Nat) (u : Part) (w : World) : Prop where
  inv : Inv P w
  held : w.Holds p t (World.chainOf key)
  locks : HoldsOnly p w S
  cells : w.cells (World.chainOf key) = u.cells
  gap : w.gap (dbHash NHASH_DEF key) = u.gap
  hand : w.cells (.hand p) = u.hand
  pend : w.pend p = u.pend
  moved : w.moved p = u.moved
  others : w.live → ∀ k, k ≠ key → World.chainOf k = World.chainOf key →
    lookup k u.cells = w.map k
  old : w.live → w.map key = old
  lin : w.lin p = none
  alone : E.Alone → (w.x.size, w.os.dat.length) = size

variable {old : Option (List Byte)} {size : Nat × Nat} {u : Part}

/-- What the others do does not matter. -/
theorem Has.rel (h : Has E key t S old size u w) (hr : E.rel w w') :
    Has E key t S old size u w' := by
  have hrely := E.rely hr
  have hsees : w.Sees p (World.chainOf key) := ⟨t, h.held⟩
  have hhand : w.Sees p (.hand p) := ⟨t, rfl⟩
  refine ⟨hrely.inv h.inv, hrely.holds.mpr h.held, h.locks.rely hrely, ?_, ?_, ?_, ?_, ?_, ?_, ?_, ?_, ?_⟩
  · exact (hrely.cells _ hsees).trans h.cells
  · exact (hrely.gap _ hsees).trans h.gap
  · exact (hrely.cells _ hhand).trans h.hand
  · exact hrely.pend.trans h.pend
  · exact hrely.moved.trans h.moved
  · intro hl k hk hch
    rw [hrely.map k (hch ▸ hsees)]
    exact h.others (hrely.live hl) k hk hch
  · intro hl
    rw [hrely.map key hsees]
    exact h.old (hrely.live hl)
  · exact hrely.lin.trans h.lin
  · intro ha
    rw [ha _ _ hr]
    exact h.alone ha

/-- A process with no call in progress. -/
structure Idle (P : List Byte → Prop) (p : Pid) (w : World) : Prop where
  inv : Inv P w
  locks : HoldsOnly p w fun _ _ => False
  hand : w.cells (.hand p) = []
  pend : w.pend p = []

/-- A process about to make a call: nothing is known of the result yet. -/
structure Ready (P : List Byte → Prop) (p : Pid) (w : World) : Prop extends Idle P p w where
  lin : w.lin p = none
  moved : w.moved p = false

theorem Idle.rely (h : Idle P p w) (hr : Rely P p w w') : Idle P p w' :=
  ⟨hr.inv h.inv, h.locks.rely hr, (hr.cells (.hand p) ⟨.wrlck, rfl⟩).trans h.hand,
    hr.pend.trans h.pend⟩

theorem Ready.rely (h : Ready P p w) (hr : Rely P p w w') : Ready P p w' :=
  ⟨h.toIdle.rely hr, hr.lin.trans h.lin, hr.moved.trans h.moved⟩

/-- The lock of the chain of `key`. -/
def onChain (key : List Byte) : Fd → Nat → Prop :=
  fun f n => f = .idxfd ∧ n = (World.chainOf key).byte

theorem dbHash_lt (key : List Byte) : dbHash NHASH_DEF key < NHASH_DEF :=
  Nat.mod_lt _ (by decide)

/-- The lock bytes of different lists differ. -/
theorem byte_chain_inj {h i : Nat} (hb : (Place.chain h).byte = (Place.chain i).byte) : h = i := by
  simp only [Place.byte, PTR_SZ, HASH_OFF] at hb
  omega

/-- The locks `S` are of the chain of `key` and of no other chain that may be open: an open
chain goes with the lock of the free list. -/
def OneChain (key : List Byte) (S : Fd → Nat → Prop) : Prop :=
  ∀ i, S .idxfd (Place.chain i).byte → i = dbHash NHASH_DEF key ∨ ¬ S .idxfd FREE_OFF

theorem oneChain_onChain (key : List Byte) : OneChain key (onChain key) :=
  fun _ hi => Or.inl (byte_chain_inj hi.2)

/-- A process that has closed its chain has no open one. -/
theorem Has.calm (h : Has E key t S old size u w) (hgap : u.gap = none) (hS : OneChain key S) :
    ∀ i, w.Owns p (.chain i) → w.gap i = none := by
  intro i ho
  rcases hS i (h.locks _ _ _ ho) with rfl | hfree
  · rw [h.gap, hgap]
  · cases hg : w.gap i with
    | none => rfl
    | some g =>
      obtain ⟨q, hq, hqfree, -⟩ := h.inv.guarded.gap i g hg
      have hqp : q = p := h.inv.excl hq ho.sees
      exact absurd (h.locks _ _ _ (hqp ▸ hqfree)) hfree

/-- The offset of the first cell, or `0`. -/
def start (c : List Cell) : Nat := (c.head?.map Prod.fst).getD 0

/-- The head of the chain, as the index file has it. -/
theorem Has.thread (h : Has E key t S old size u w) (hgap : u.gap = none) :
    w.x.get (.chain (dbHash NHASH_DEF key)) = some (start u.cells) ∧
      Seg 0 link (start u.cells) u.cells 0 := by
  have hthread := (h.inv.lists.chain _ (dbHash_lt key)).thread
  rw [h.gap, hgap, h.cells] at hthread
  obtain ⟨a, ha, hseg⟩ := hthread
  have hstart : a = start u.cells := hseg.start
  subst hstart
  exact ⟨ha, hseg⟩

theorem Has.chainOk (h : Has E key t S old size u w) :
    ChainOk P (dbHash NHASH_DEF key) (w.x.get (.chain (dbHash NHASH_DEF key))) u.cells u.gap := by
  have hc := h.inv.lists.chain _ (dbHash_lt key)
  rwa [h.gap, h.cells] at hc

/-- Every offset on a list fits a pointer. -/
theorem offset_le {a : Nat} {c : List Cell} (ha : a ≤ PTR_MAX) (hseg : Seg 0 link a c 0)
    (hptr : ∀ e ∈ c, e.2.ptr ≤ PTR_MAX) : ∀ e ∈ c, e.1 ≤ PTR_MAX := by
  induction c generalizing a with
  | nil => intro e he; exact absurd he List.not_mem_nil
  | cons e c ih =>
    obtain ⟨o, it⟩ := e
    obtain ⟨rfl, -, hc⟩ := hseg
    intro e he
    rcases List.mem_cons.mp he with rfl | he
    · exact ha
    · exact ih (hptr (a, it) (List.mem_cons_self ..)) hc
        (fun e he => hptr e (List.mem_cons_of_mem _ he)) e he

/-- A list is shorter than the loops are allowed to run. -/
theorem length_lt_fuel {a : Nat} {c : List Cell} (ha : a ≤ PTR_MAX) (hseg : Seg 0 link a c 0)
    (hptr : ∀ e ∈ c, e.2.ptr ≤ PTR_MAX) (hnd : (c.map Prod.fst).Nodup) : c.length < loopFuel := by
  have hsub : c.map Prod.fst ⊆ List.range' 1 PTR_MAX := by
    intro o ho
    obtain ⟨e, he, rfl⟩ := List.mem_map.mp ho
    have hle := offset_le ha hseg hptr e he
    have hne := hseg.ne_nil e he
    rw [List.mem_range'_1]
    omega
  have hlen := (hnd.subperm hsub).length_le
  rw [List.length_map, List.length_range'] at hlen
  exact Nat.lt_succ_of_le hlen

theorem Inv.ptr_le {ℓ : Place} (hw : Inv P w) : ∀ e ∈ w.cells ℓ, e.2.ptr ≤ PTR_MAX := fun _ he =>
  (hw.files.ok.recAt (hw.placed.recAt he)).ptr

theorem Has.length_lt (h : Has E key t S old size u w) (hgap : u.gap = none) :
    u.cells.length < loopFuel := by
  obtain ⟨hget, hseg⟩ := h.thread hgap
  have hle := (Index.get_split h.inv.files.ok hget).1
  refine length_lt_fuel hle hseg ?_ ?_
  · intro e he
    exact h.inv.ptr_le e (h.cells ▸ he)
  · exact h.cells ▸ h.inv.placed.once _

/-- A cell of the chain sits at an offset that fits a pointer. -/
theorem Has.offset_le (h : Has E key t S old size u w) (hgap : u.gap = none) :
    ∀ e ∈ u.cells, e.1 ≤ PTR_MAX := by
  obtain ⟨hget, hseg⟩ := h.thread hgap
  exact Db.offset_le (Index.get_split h.inv.files.ok hget).1 hseg fun e he =>
    h.inv.ptr_le e (h.cells ▸ he)

/-! ## Taking the lock of a chain -/

/-- A lock in a range where the process holds nothing yet. -/
theorem wpM_lockRange {fd : Fd} {off len : Nat} {Q : Unit → DB → World → Prop}
    (hnone : ∀ n, RangeLock.InRange off (lockStop off len) n → ∀ t', ¬ Held w.os.locks p fd t' n)
    (h : ∀ w₁ table, E.rel w w₁ →
      RangeLock.acquire w₁.os.locks p fd t off (lockStop off len) = some table →
      (∀ n, RangeLock.InRange off (lockStop off len) n → ∀ t', ¬ Held w₁.os.locks p fd t' n) →
      Q () db (w₁.setLocks table)) :
    wpM (rules E call) p (sys (.lock fd t off len)) Q H db w := by
  refine wpM_lock fun w₁ table hw₁ hacq => ?_
  have hnone₁ : ∀ n, RangeLock.InRange off (lockStop off len) n → ∀ t',
      ¬ Held w₁.os.locks p fd t' n := by
    intro n hn t' hh
    exact hnone n hn t' (((E.rely hw₁).locks fd t' n).mp hh)
  exact ⟨w₁.setLocks table, rfl, fun hinv => Guar.lock hacq hnone₁ hinv, h w₁ table hw₁ hacq hnone₁⟩

theorem inRange_byte {b n : Nat} : RangeLock.InRange b (lockStop b 1) n ↔ n = b := by
  unfold RangeLock.InRange lockStop
  rw [if_neg (by decide), below_some]
  omega

/-- While a lock on the chain is granted, nobody else holds it exclusively. -/
theorem not_owns_of_acquire {table : List (RangeLock Pid Fd)} (hidle : Idle P p w)
    (hacq : RangeLock.acquire w.os.locks p .idxfd t (World.chainOf key).byte
      (lockStop (World.chainOf key).byte 1) = some table) (q : Pid) :
    ¬ w.Owns q (World.chainOf key) := by
  intro ho
  by_cases hq : q = p
  · exact hidle.locks _ _ _ (hq ▸ ho)
  · have hn := RangeLock.exclusive_of_acquire hacq hq (inRange_byte.mpr rfl) ho
    exact absurd hn.2 (by simp)

/-- What is known when the lock is granted. -/
theorem Has.of_lock {table : List (RangeLock Pid Fd)} (hidle : Ready P p w)
    (hacq : RangeLock.acquire w.os.locks p .idxfd t (World.chainOf key).byte
      (lockStop (World.chainOf key).byte 1) = some table) :
    Has E key t (onChain key) (w.view key) (w.x.size, w.os.dat.length)
      (.whole (w.cells (World.chainOf key))) (w.setLocks table) := by
  have hnone : ∀ n, RangeLock.InRange (World.chainOf key).byte
      (lockStop (World.chainOf key).byte 1) n → ∀ t', ¬ Held w.os.locks p .idxfd t' n :=
    fun n _ t' hh => hidle.locks _ _ _ hh
  have hfree := not_owns_of_acquire hidle.toIdle hacq
  refine ⟨Inv.lock hacq hnone hidle.inv, ?_, ?_, rfl, ?_, hidle.hand, hidle.pend, hidle.moved, ?_, ?_, hidle.lin,
    fun _ => rfl⟩
  · exact (held_lock hacq hnone).mpr (Or.inr ⟨rfl, rfl, rfl, inRange_byte.mpr rfl⟩)
  · intro f t' n hh
    rcases (held_lock hacq hnone).mp hh with hh | ⟨-, hf, -, hn⟩
    · exact (hidle.locks _ _ _ hh).elim
    · exact ⟨hf, inRange_byte.mp hn⟩
  · cases hg : w.gap (dbHash NHASH_DEF key) with
    | none => exact hg
    | some g =>
      obtain ⟨q, hq, -⟩ := hidle.inv.guarded.gap _ g hg
      exact absurd hq (hfree q)
  · intro hl k _ hch
    refine Eq.trans ?_ (hidle.inv.map hl k fun q hq => hfree q (hch ▸ hq))
    rw [World.view, hch]
    rfl
  · intro hl
    exact (hidle.inv.map hl key hfree).symm

/-! ## Walking along the chain -/

/-- The handle of an open database. -/
structure Opened (db : DB) : Prop where
  nhash : db.nhash = NHASH_DEF
  hashoff : db.hashoff = HASH_OFF

/-- The handle while a call works on `key`. -/
structure Handle (key : List Byte) (db : DB) : Prop extends Opened db where
  chainoff : db.chainoff = (World.chainOf key).byte

/-- The fields that `_db_readidx` fills are those of the record. -/
structure Loaded (db : DB) (o : Nat) (r : Rec) : Prop where
  idxbuf : db.idxbuf = r.key
  idxoff : db.idxoff = o
  datoff : db.datoff = r.datoff
  datlen : db.datlen = r.datlen
  ptrval : db.ptrval = r.ptr
  idxpos : db.idxpos = o + r.size

theorem Loaded.of_load (db : DB) (o : Nat) (r : Rec) : Loaded (db.load o r.ptr r) o r :=
  ⟨rfl, rfl, rfl, rfl, rfl, rfl⟩

/-- The file offset behind the last record of a walk that started at `pos`. -/
def endPos (pos : Nat) (c : List Cell) : Nat :=
  match c.getLast? with
  | none => pos
  | some e => e.1 + e.2.toRec.size

@[simp] theorem endPos_nil (pos : Nat) : endPos pos [] = pos := rfl

@[simp] theorem endPos_concat (pos : Nat) (c : List Cell) (e : Cell) :
    endPos pos (c ++ [e]) = e.1 + e.2.toRec.size := by
  unfold endPos
  rw [List.getLast?_concat]

/-- The chain does not have the key. -/
structure NotFound (key : List Byte) (c : List Cell) (db : DB) : Prop where
  handle : Handle key db
  absent : key ∉ c.map (·.2.key)
  clean : ∀ e ∈ c, SEP ∉ e.2.key
  idxpos : db.idxpos = endPos ((World.chainOf key).byte + PTR_SZ) c

/-- The chain has the key, in the cell at `o` behind the cells `c₁`. -/
structure Found (key : List Byte) (c c₁ : List Cell) (o : Nat) (it : Item) (c₂ : List Cell)
    (db : DB) : Prop where
  handle : Handle key db
  split : c = c₁ ++ (o, it) :: c₂
  same : it.key = key
  absent : key ∉ c₁.map (·.2.key)
  clean : ∀ e ∈ c₁ ++ [(o, it)], SEP ∉ e.2.key
  loaded : Loaded db o it.toRec
  ptroff : db.ptroff = (endSlot (.chain (dbHash NHASH_DEF key)) c₁).off

/-- A walk ends where the key was found. -/
theorem Found.walk {c c₁ c₂ : List Cell} {o : Nat} {it : Item} (hf : Found key c c₁ o it c₂ db) :
    Db.walk key c = .ok (some it.data.val) := by
  have hsep : SEP ∉ it.key := hf.clean (o, it) (List.mem_append_right _ (List.mem_singleton_self _))
  rw [hf.split, walk_skip (fun e he => hf.clean e (List.mem_append_left _ he)) hf.absent, Db.walk,
    if_neg hsep, if_pos hf.same]

/-- While `I` holds, the cells `c` are a list, whatever the others do. -/
structure Walks (E : Env P p) (c : List Cell) (I : World → Prop) : Prop where
  rel : ∀ w w', E.rel w w' → I w → I w'
  files : ∀ w, I w → Files w
  recAt : ∀ w, I w → ∀ e ∈ c, w.x.recAt e.1 = some e.2.toRec
  seg : Seg 0 link (start c) c 0

variable {c : List Cell} {I : World → Prop}

/-- A process walks along the chain it has. -/
theorem Has.walks (h : Has E key t S old size u w) (hgap : u.gap = none) :
    Walks E u.cells (Has E key t S old size u) where
  rel := fun _ _ hr h => h.rel hr
  files := fun _ h => h.inv.files
  recAt := fun _ h _ he => h.inv.placed.recAt (h.cells ▸ he)
  seg := (h.thread hgap).2

/-- A cell of the list is read as it is. -/
theorem Walks.reads {Q : Int → DB → World → Prop} (hI : Walks E c I) (h : I w) {o : Nat}
    {it : Item} (hmem : (o, it) ∈ c)
    (hgood : ∀ w₁, I w₁ → SEP ∉ it.key → Q it.ptr (db.load o it.ptr it.toRec) w₁)
    (hbad : ∀ w₁, I w₁ → SEP ∈ it.key → H .readidxTooManySeps w₁) : ReadsAt E H Q db o w := by
  refine ⟨it.toRec, hI.recAt w h _ hmem, fun w₂ hw₂ => ?_⟩
  have h₂ := hI.rel w w₂ hw₂ h
  exact ⟨hI.files w₂ h₂, it.toRec, hI.recAt w₂ h₂ _ hmem, rfl, hgood w₂ h₂, hbad w₂ h₂⟩

/-- The loop of `_db_find_and_lock`, with the cells `c₁` behind it and `c₂` to go. -/
theorem wpM_findLoop {Q : Int → DB → World → Prop} (hI : Walks E c I)
    (hnone : ∀ db' w', I w' → NotFound key c db' → Q 0 db' w')
    (hfound : ∀ c₁ o it c₂ db' w', I w' → Found key c c₁ o it c₂ db' → Q o db' w')
    (hbad : ∀ w' c₁ o it c₂, I w' → c = c₁ ++ (o, it) :: c₂ → key ∉ c₁.map (·.2.key) →
      (∀ e ∈ c₁, SEP ∉ e.2.key) → SEP ∈ it.key → H .readidxTooManySeps w') (c₂ : List Cell) :
    ∀ {c₁ : List Cell} {fuel : Nat} {db : DB} {w : World}, I w →
      c = c₁ ++ c₂ → c₂.length < fuel → Handle key db → key ∉ c₁.map (·.2.key) →
      (∀ e ∈ c₁, SEP ∉ e.2.key) →
      db.ptroff = (endSlot (.chain (dbHash NHASH_DEF key)) c₁).off →
      db.idxpos = endPos ((World.chainOf key).byte + PTR_SZ) c₁ →
      wpM (rules E call) p (findLoop key fuel (start c₂)) Q H db w := by
  induction c₂ with
  | nil =>
    intro c₁ fuel db w h hc hfuel hh habs hclean _ hpos
    obtain ⟨fuel, rfl⟩ := Nat.exists_eq_succ_of_ne_zero (Nat.ne_of_gt hfuel)
    rw [List.append_nil] at hc
    unfold findLoop
    rw [show ((start [] : Nat) : Int) = 0 from rfl, if_pos rfl]
    exact hnone db w h ⟨hh, hc ▸ habs, hc ▸ hclean, hc ▸ hpos⟩
  | cons e c₂ ih =>
    obtain ⟨o, it⟩ := e
    intro c₁ fuel db w h hc hfuel hh habs hclean hptroff hpos
    obtain ⟨fuel, rfl⟩ := Nat.exists_eq_succ_of_ne_zero (Nat.ne_of_gt (Nat.zero_lt_of_lt hfuel))
    have hmem : (o, it) ∈ c := mem_of_split hc
    have hseg := hI.seg
    have ho : o ≠ 0 := hseg.ne_nil _ hmem
    have hnext : it.ptr = start c₂ := by
      rw [hc] at hseg
      -- the pointer of the record leads to the rest of the chain
      obtain ⟨k, -, -, -, hseg₂⟩ := seg_append.mp hseg
      exact hseg₂.start
    have hne : ¬ (o : Int) = 0 := by omega
    rw [show start ((o, it) :: c₂) = o from rfl]
    unfold findLoop
    rw [if_neg hne, wpM_bind]
    refine wpM_readidx (Or.inl ⟨rfl, ho⟩) fun w₁ hw₁ => ?_
    have h₁ := hI.rel w w₁ hw₁ h
    refine ⟨hI.files w₁ h₁, Or.inl (hI.reads h₁ hmem ?_ ?_)⟩
    · intro w₂ h₂ hsep
      have hclean' : ∀ e ∈ c₁ ++ [(o, it)], SEP ∉ e.2.key := by
        intro e he
        rcases List.mem_append.mp he with he | he
        · exact hclean e he
        · exact List.mem_singleton.mp he ▸ hsep
      simp only [wpM_bind, wpM_get, wpM_ite]
      by_cases hkey : it.key = key
      · rw [if_pos (show (db.load o it.ptr it.toRec).idxbuf = key from hkey)]
        exact hfound c₁ o it c₂ _ w₂ h₂ ⟨⟨⟨hh.nhash, hh.hashoff⟩, hh.chainoff⟩, hc, hkey, habs,
          hclean', .of_load _ _ _, hptroff⟩
      · rw [if_neg (show ¬ (db.load o it.ptr it.toRec).idxbuf = key from hkey), wpM_modify, hnext]
        refine @ih (c₁ ++ [(o, it)]) fuel _ w₂ h₂ ?_ ?_ ⟨⟨hh.nhash, hh.hashoff⟩, hh.chainoff⟩ ?_
          hclean' ?_ ?_
        · rw [hc, List.append_assoc, List.singleton_append]
        · rw [List.length_cons] at hfuel
          omega
        · rw [List.map_append, List.mem_append, not_or]
          refine ⟨habs, ?_⟩
          simpa using fun h => hkey h.symm
        · rw [endSlot_concat]
          rfl
        · rw [endPos_concat]
          rfl
    · intro w₂ h₂ hsep
      exact hbad w₂ c₁ o it c₂ h₂ hc habs hclean hsep

/-- `_db_find_and_lock`. -/
theorem wpM_findAndLock {Q : Int → DB → World → Prop} {writelock : Bool} (hidle : Ready P p w)
    (hdb : Opened db)
    (ht : t = if writelock then .wrlck else .rdlck)
    (hnone : ∀ w₀ db' w' u, E.rel w w₀ → u = .whole (w₀.cells (World.chainOf key)) →
      Has E key t (onChain key) (w₀.view key) (w₀.x.size, w₀.os.dat.length) u w' →
      NotFound key u.cells db' → Q (-1) db' w')
    (hfound : ∀ w₀ c₁ o it c₂ db' w' u, E.rel w w₀ → u = .whole (w₀.cells (World.chainOf key)) →
      Has E key t (onChain key) (w₀.view key) (w₀.x.size, w₀.os.dat.length) u w' →
      Found key u.cells c₁ o it c₂ db' → Q 0 db' w')
    (hbad : ∀ w₀ w' u, E.rel w w₀ → u = .whole (w₀.cells (World.chainOf key)) →
      Has E key t (onChain key) (w₀.view key) (w₀.x.size, w₀.os.dat.length) u w' →
      (∃ e ∈ u.cells, SEP ∈ e.2.key) → H .readidxTooManySeps w') :
    wpM (rules E call) p (dbFindAndLock key writelock) Q H db w := by
  have hoff : (dbHash db.nhash key : Int) * PTR_SZ + db.hashoff =
      ((Slot.chain (dbHash NHASH_DEF key)).off : Nat) := by
    rw [hdb.nhash, hdb.hashoff]
    simp only [Slot.off]
    push_cast
    rfl
  -- both branches of the lock are followed by the same walk
  have hwalk : ∀ db₁ w₀ table, Handle key db₁ →
      db₁.ptroff = ((Slot.chain (dbHash NHASH_DEF key)).off : Nat) → E.rel w w₀ →
      RangeLock.acquire w₀.os.locks p .idxfd t (World.chainOf key).byte
        (lockStop (World.chainOf key).byte 1) = some table →
      wpM (rules E call) p (do
        let offset ← dbReadptr ((Slot.chain (dbHash NHASH_DEF key)).off : Nat)
        let offset ← findLoop key loopFuel offset
        pure (if offset = 0 then -1 else 0)) Q H db₁ (w₀.setLocks table) := by
    intro db₁ w₀ table hh hptroff hw₀ hacq
    have hrely := E.rely hw₀
    have h₀ : Has E key t (onChain key) (w₀.view key) (w₀.x.size, w₀.os.dat.length)
        (.whole (w₀.cells (World.chainOf key))) (w₀.setLocks table) :=
      .of_lock (hidle.rely hrely) hacq
    simp only [wpM_bind, wpM_pure]
    refine wpM_readptr fun w₁ hw₁ => ?_
    have h₁ := h₀.rel hw₁
    refine ⟨h₁.inv.files, start (w₀.cells (World.chainOf key)), (h₁.thread rfl).1, ?_⟩
    have hsplit : (Part.whole (w₀.cells (World.chainOf key))).cells =
        [] ++ w₀.cells (World.chainOf key) := rfl
    refine wpM_findLoop (h₁.walks rfl) ?_ ?_ ?_ _ h₁ hsplit (h₁.length_lt rfl)
      ⟨⟨hh.nhash, hh.hashoff⟩, hh.chainoff⟩ (by simp) (by simp) hptroff rfl
    · intro db' w' h' hn
      exact hnone w₀ db' w' _ hw₀ rfl h' hn
    · intro c₁ o it c₂ db' w' h' hf
      have ho := (h'.thread rfl).2.ne_nil _ (mem_of_split hf.split)
      have hne : ¬ (o : Int) = 0 := fun h => ho (Int.ofNat_eq_zero.mp h)
      rw [if_neg hne]
      exact hfound w₀ c₁ o it c₂ db' w' _ hw₀ rfl h' hf
    · intro w' c₁ o it c₂ h' hc _ _ hs
      exact hbad w₀ w' _ hw₀ rfl h' ⟨_, mem_of_split hc, hs⟩
  unfold dbFindAndLock
  simp only [wpM_bind, wpM_get, wpM_modify, hoff]
  have hfree : ∀ n, RangeLock.InRange (World.chainOf key).byte
      (lockStop (World.chainOf key).byte 1) n → ∀ t', ¬ Held w.os.locks p .idxfd t' n :=
    fun n _ t' hh => hidle.locks _ _ _ hh
  cases writelock with
  | true =>
    subst ht
    rw [if_pos rfl, wpM_bind]
    exact wpM_lockRange hfree fun w₀ table hw₀ hacq _ =>
      hwalk _ w₀ table ⟨⟨hdb.nhash, hdb.hashoff⟩, rfl⟩ rfl hw₀ hacq
  | false =>
    subst ht
    rw [if_neg (by simp), wpM_bind]
    exact wpM_lockRange hfree fun w₀ table hw₀ hacq _ =>
      hwalk _ w₀ table ⟨⟨hdb.nhash, hdb.hashoff⟩, rfl⟩ rfl hw₀ hacq

end LearningNotes.Db
