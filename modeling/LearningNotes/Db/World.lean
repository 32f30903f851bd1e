import LearningNotes.Db.Format
import LearningNotes.Db.Spec
import LearningNotes.Db.Wp
import LearningNotes.Lib.Linked

/-!
# The state of the database, and who may change what

A `World` is the state of the machine together with the ghost part that the proofs
need: the two files parsed (`x`, `y`), the cells of every list in chain order
(`cells`), where each record is (`own`), who names each block of data (`named`), and
the abstract map with the result each process's call will have (`map`, `lin`).

`Inv` is the invariant of this state. It holds between any two operations of any
processes, so it has to allow for calls that are half done, and does so in three
ways:
- a record that is in no list is in the hand of a process (`Place.hand`), and a block
  that no record names yet is pending (`pend`);
- while a record is unlinked, a chain has a `Gap`: the front of the chain leads to the
  record, not to the back of the chain;
- while a record is deleted, its data may be blank although its key is not (`wiped`).

A process may change a list if it holds the exclusive lock on it (`Owns`), and what it
`Sees` nobody else changes. `Guar` is what every operation of a process promises to the
others, `Rely` what the process gets from the others' promises (`Guar.rely`). The
abstract map agrees with every chain that nobody has locked exclusively; a process
brings it up to date when it gives the lock back.
-/

namespace LearningNotes.Db

open RangeLock (Held)

/-- All bytes are blanks: the key of a deleted record. -/
def Blank (k : List Byte) : Prop := ∀ b ∈ k, b = SPACE

instance (k : List Byte) : Decidable (Blank k) := inferInstanceAs (Decidable (∀ b ∈ k, _))

/-! ## Cells -/

/-- Where a record is. -/
inductive Place where
  | free
  | chain (h : Nat)
  | hand (p : Pid)
  deriving DecidableEq

/-- A record and the data it names. -/
structure Item extends Rec where
  data : CString

abbrev Cell := Nat × Item

/-- The chain pointer of a cell. -/
abbrev link (it : Item) : Nat := it.ptr

/-- The data under a key. -/
def lookup (k : List Byte) (c : List Cell) : Option (List Byte) :=
  (c.find? (·.2.key = k)).map (·.2.data.val)

section Lookup

variable {k : List Byte} {c c₁ c₂ : List Cell} {o : Nat} {it : Item}

theorem lookup_append (k : List Byte) (c₁ c₂ : List Cell) :
    lookup k (c₁ ++ c₂) = (lookup k c₁).or (lookup k c₂) := by
  unfold lookup
  rw [List.find?_append]
  cases c₁.find? (·.2.key = k) with
  | none => rfl
  | some e => rfl

theorem lookup_cons (k : List Byte) (o : Nat) (it : Item) (c : List Cell) :
    lookup k ((o, it) :: c) = if it.key = k then some it.data.val else lookup k c := by
  unfold lookup
  rw [List.find?_cons]
  by_cases hk : it.key = k
  · rw [if_pos hk]
    simp [hk]
  · rw [if_neg hk]
    simp [hk]

/-- A cell with another key is passed over. -/
theorem lookup_middle (h : it.key ≠ k) : lookup k (c₁ ++ (o, it) :: c₂) = lookup k (c₁ ++ c₂) := by
  rw [lookup_append, lookup_append, lookup_cons, if_neg h]

/-- Absent from the keys, absent from the list. -/
theorem lookup_eq_none (h : k ∉ c.map (·.2.key)) : lookup k c = none := by
  unfold lookup
  rw [Option.map_eq_none_iff, List.find?_eq_none]
  intro e he
  simp only [decide_eq_true_eq]
  intro hk
  exact h (List.mem_map.mpr ⟨e, he, hk⟩)

/-- A key that occurs once is found where it occurs. -/
theorem lookup_found (h : k ∉ c₁.map (·.2.key)) (hk : it.key = k) :
    lookup k (c₁ ++ (o, it) :: c₂) = some it.data.val := by
  rw [lookup_append, lookup_eq_none h, lookup_cons, if_pos hk, Option.none_or]

/-- What a lookup of `k` along the cells ends with: the loop of `_db_find_and_lock` does not
get past a key with a separator. -/
def walk (k : List Byte) : List Cell → Except Fatal (Option (List Byte))
  | [] => .ok none
  | (_, it) :: c =>
    if SEP ∈ it.key then .error .readidxTooManySeps
    else if it.key = k then .ok (some it.data.val)
    else walk k c

theorem walk_cons_ne (h : it.key ≠ k) (hs : SEP ∉ it.key) : walk k ((o, it) :: c) = walk k c := by
  rw [walk, if_neg hs, if_neg h]

/-- A cell with another key is passed over. -/
theorem walk_middle (h : it.key ≠ k) (hs : SEP ∉ it.key) :
    walk k (c₁ ++ (o, it) :: c₂) = walk k (c₁ ++ c₂) := by
  induction c₁ with
  | nil => exact walk_cons_ne h hs
  | cons e c₁ ih =>
    obtain ⟨o', it'⟩ := e
    show walk k ((o', it') :: (c₁ ++ (o, it) :: c₂)) = walk k ((o', it') :: (c₁ ++ c₂))
    rw [walk, walk, ih]

/-- The walk stops in front of `c₂`, or goes on there. -/
theorem walk_append (k : List Byte) (c₁ c₂ : List Cell) : walk k (c₁ ++ c₂) =
    match walk k c₁ with
    | .ok none => walk k c₂
    | r => r := by
  induction c₁ with
  | nil => rfl
  | cons e c₁ ih =>
    obtain ⟨o, it⟩ := e
    show walk k ((o, it) :: (c₁ ++ c₂)) = _
    rw [walk, walk, ih]
    by_cases hs : SEP ∈ it.key
    · rw [if_pos hs, if_pos hs]
    · rw [if_neg hs, if_neg hs]
      by_cases hk : it.key = k
      · rw [if_pos hk, if_pos hk]
      · rw [if_neg hk, if_neg hk]

/-- Without separators the walk is a lookup. -/
theorem walk_of_clean (h : ∀ e ∈ c, SEP ∉ e.2.key) : walk k c = .ok (lookup k c) := by
  induction c with
  | nil => rfl
  | cons e c ih =>
    obtain ⟨o, it⟩ := e
    have hs : SEP ∉ it.key := h (o, it) (List.mem_cons_self ..)
    have hc := ih fun e he => h e (List.mem_cons_of_mem _ he)
    rw [walk, if_neg hs, hc, lookup_cons]
    by_cases hk : it.key = k
    · rw [if_pos hk, if_pos hk]
    · rw [if_neg hk, if_neg hk]

/-- What a walk finds is what is there. -/
theorem lookup_of_walk {v : Option (List Byte)} (h : walk k c = .ok v) : lookup k c = v := by
  induction c with
  | nil =>
    cases h
    rfl
  | cons e c ih =>
    obtain ⟨o, it⟩ := e
    rw [walk] at h
    rw [lookup_cons]
    by_cases hs : SEP ∈ it.key
    · rw [if_pos hs] at h
      exact absurd h (by simp)
    · rw [if_neg hs] at h
      by_cases hk : it.key = k
      · rw [if_pos hk] at h ⊢
        cases h
        rfl
      · rw [if_neg hk] at h ⊢
        exact ih h

/-- Cells with other keys are passed over. -/
theorem walk_skip (hs : ∀ e ∈ c₁, SEP ∉ e.2.key) (h : k ∉ c₁.map (·.2.key)) :
    walk k (c₁ ++ c₂) = walk k c₂ := by
  rw [walk_append, walk_of_clean hs, lookup_eq_none h]

end Lookup

/-- A chain while one of its records is unlinked: the cells of `front` lead to `dst`,
the rest is reached from `src`. From `dst` one gets to `stray`, deleted records. -/
structure Gap where
  front : List Cell
  dst : Nat
  src : Nat
  back : List Cell
  stray : List Cell

/-- The cells are reached from the pointer `head`. -/
def Threaded (head : Option Nat) (c : List Cell) : Option Gap → Prop
  | none => ∃ a, head = some a ∧ Seg 0 link a c 0
  | some g => c = g.front ++ g.back ∧ Seg 0 link g.src g.back 0 ∧
      Seg 0 link g.dst g.stray 0 ∧ (∀ e ∈ g.stray, Blank e.2.key) ∧
      ∃ a, head = some a ∧ Seg 0 link a g.front g.dst

/-! ## The world -/

/-- Who uses a block of data. -/
inductive User where
  | record (o : Nat)
  | proc (p : Pid)
  deriving DecidableEq

structure World where
  os : OS
  x : Index
  y : List CString
  cells : Place → List Cell
  own : Nat → Place
  named : Nat → User
  pend : Pid → List (Nat × CString)
  gap : Nat → Option Gap
  wiped : Option Nat
  wrote : List Byte → List Byte → Prop
  live : Prop
  map : Map
  lin : Pid → Option Ret
  moved : Pid → Bool

namespace World

variable (w : World)

/-- The record at an offset, with its data. -/
def item (o : Nat) : Option Item :=
  (w.x.recAt o).bind fun r => (blockAt w.y r.datoff).map fun d => { r with data := d }

/-- The hash chain of a key. -/
@[reducible] def chainOf (k : List Byte) : Place := .chain (dbHash NHASH_DEF k)

/-- What the chains say about a key. -/
def view (k : List Byte) : Option (List Byte) := lookup k (w.cells (chainOf k))

/-- Process `p` holds the lock of a list. What is in its hand is its own. -/
def Holds (p : Pid) (t : LockType) : Place → Prop
  | .free => Held w.os.locks p .idxfd t FREE_OFF
  | .chain h => Held w.os.locks p .idxfd t (h * PTR_SZ + HASH_OFF)
  | .hand q => p = q

/-- `p` may change the list. -/
def Owns (p : Pid) (ℓ : Place) : Prop := w.Holds p .wrlck ℓ

/-- Nobody but `p` may change the list. -/
def Sees (p : Pid) (ℓ : Place) : Prop := ∃ t, w.Holds p t ℓ

/-- `p` may add a record at the end of the index file. -/
def OwnsTail (p : Pid) : Prop := Held w.os.locks p .idxfd .wrlck recsOff

/-- `p` may add a block at the end of the data file. -/
def OwnsDat (p : Pid) : Prop := Held w.os.locks p .datfd .wrlck 0

end World

/-! ## The invariant -/

/-- The files are what their parsed forms say. -/
structure Files (w : World) : Prop where
  idx : w.os.idx = w.x.bytes
  ok : w.x.Ok
  dat : w.os.dat = datBytes w.y

/-- Every record is in one place, and every block of data has one user. -/
structure Placed (w : World) : Prop where
  store : ∀ ℓ, InStore w.item (w.cells ℓ)
  own : ∀ ℓ, ∀ e ∈ w.cells ℓ, w.own e.1 = ℓ
  once : ∀ ℓ, ((w.cells ℓ).map Prod.fst).Nodup
  total : ∀ o r, w.x.recAt o = some r → o ∈ (w.cells (w.own o)).map Prod.fst
  len : ∀ ℓ, ∀ e ∈ w.cells ℓ, e.2.datlen = blockSize e.2.data
  named : ∀ ℓ, ∀ e ∈ w.cells ℓ, w.named e.2.datoff = .record e.1
  pend : ∀ p, ∀ b ∈ w.pend p, blockAt w.y b.1 = some b.2 ∧ w.named b.1 = .proc p
  cover : ∀ d s, blockAt w.y d = some s → match w.named d with
    | .record o => ∃ r, w.x.recAt o = some r ∧ r.datoff = d
    | .proc p => d ∈ (w.pend p).map Prod.fst

/-- A hash chain. A key with a separator can only be in front: nobody gets past it. -/
structure ChainOk (P : List Byte → Prop) (h : Nat) (head : Option Nat) (c : List Cell)
    (g : Option Gap) : Prop where
  thread : Threaded head c g
  hash : ∀ e ∈ c, dbHash NHASH_DEF e.2.key = h
  keys : (c.map (·.2.key)).Nodup
  legal : ∀ e ∈ c, P e.2.key
  clean : ∀ e ∈ c.tail, SEP ∉ e.2.key

/-- The free list. -/
structure FreeOk (head : Option Nat) (c : List Cell) : Prop where
  thread : Threaded head c none
  blank : ∀ e ∈ c, Blank e.2.key

/-- The lists of the index file. -/
structure Lists (P : List Byte → Prop) (w : World) : Prop where
  free : FreeOk (w.x.get .free) (w.cells .free)
  chain : ∀ h, h < NHASH_DEF → ChainOk P h (w.x.get (.chain h)) (w.cells (.chain h)) (w.gap h)
  range : ∀ h, NHASH_DEF ≤ h → w.cells (.chain h) = []

/-- What the locks protect. -/
structure Guarded (w : World) : Prop where
  excl : ∀ p q f t n, Held w.os.locks p f .wrlck n → Held w.os.locks q f t n → p = q
  gap : ∀ h g, w.gap h = some g → ∃ p, w.Owns p (.chain h) ∧ w.Owns p .free ∧
    (g.stray = w.cells .free ∨ ∃ e ∈ w.cells (.hand p), g.stray = e :: w.cells .free)
  wiped : w.wiped ≠ none → ∃ p, w.Owns p .free

/-- **The invariant**, over keys that satisfy `P`. -/
structure Inv (P : List Byte → Prop) (w : World) : Prop where
  files : Files w
  placed : Placed w
  lists : Lists P w
  guarded : Guarded w
  legal : ∀ o r, w.x.recAt o = some r → Blank r.key ∨ P r.key
  low : ∀ o r, w.x.recAt o = some r → Blank r.key → o ≤ PTR_MAX ∨ P r.key
  wrote : ∀ o it, w.item o = some it → ¬ Blank it.key →
    w.wrote it.key it.data.val ∨ w.wiped = some o
  map : w.live → ∀ k, (∀ p, ¬ w.Owns p (World.chainOf k)) → w.view k = w.map k

/-! ## Rely and guarantee -/

/-- The record keeps its place, its size and its data. -/
def Rec.Same (r r' : Rec) : Prop :=
  r'.key.length = r.key.length ∧ r'.datoff = r.datoff ∧ r'.datlen = r.datlen

/-- What process `p` may rely on while others run. -/
structure Rely (P : List Byte → Prop) (p : Pid) (w w' : World) : Prop where
  inv : Inv P w → Inv P w'
  locks : ∀ f t n, Held w'.os.locks p f t n ↔ Held w.os.locks p f t n
  cells : ∀ ℓ, w.Sees p ℓ → w'.cells ℓ = w.cells ℓ
  gap : ∀ h, w.Sees p (.chain h) → w'.gap h = w.gap h
  map : ∀ k, w.Sees p (World.chainOf k) → w'.map k = w.map k
  pend : w'.pend p = w.pend p
  lin : w'.lin p = w.lin p
  moved : w'.moved p = w.moved p
  tail : w.OwnsTail p → w'.x.size = w.x.size
  datend : w.OwnsDat p → w'.os.dat.length = w.os.dat.length
  shape : ∀ o r, w.x.recAt o = some r → ∃ r', w'.x.recAt o = some r' ∧ r.Same r'
  kept : w.Sees p .free → ∀ o r, w.x.recAt o = some r → ¬ Blank r.key →
    ∃ r', w'.x.recAt o = some r' ∧ r'.key = r.key
  wrote : ∀ k d, w.wrote k d → w'.wrote k d
  wiped : w.Sees p .free → w'.wiped = w.wiped
  live : w'.live → w.live

/-- Where a record is, and its key. -/
def label (e : Cell) : Nat × List Byte := (e.1, e.2.key)

/-- The records of a chain in their order, with the one that is just being unlinked. -/
def World.order (w : World) (key : List Byte) : List (Nat × List Byte) :=
  match w.gap (dbHash NHASH_DEF key) with
  | none => (w.cells (World.chainOf key)).map label
  | some g => g.front.map label ++ (g.dst, key) :: g.back.map label

/-- What operation `o` of process `p`, in call `c`, does to the chain of the call's own key. The
other keys of the chain keep their data. Until a pointer makes the chain another one (`moved`)
they keep their order too, and after that the chain has no gap. -/
structure Turn (p : Pid) (c : Call) (o : Op) (w w' : World) : Prop where
  rest : ∀ key, c.key? = some key → SEP ∉ key → ∀ k, k ≠ key →
    walk k (w'.cells (World.chainOf key)) = walk k (w.cells (World.chainOf key))
  sets : w'.moved p = true → w.moved p = true ∨ o.SetsPtr
  order : ∀ key, c.key? = some key → w'.moved p = false →
    w.moved p = false ∧ w'.order key = w.order key
  shut : ∀ key, c.key? = some key → w'.moved p = true →
    w'.gap (dbHash NHASH_DEF key) = none ∨
      (w.moved p = true ∧ w'.gap (dbHash NHASH_DEF key) = w.gap (dbHash NHASH_DEF key))

/-- The files and the lists are as they were. -/
structure Unwritten (w w' : World) : Prop where
  idx : w'.os.idx = w.os.idx
  dat : w'.os.dat = w.os.dat
  x : w'.x = w.x
  y : w'.y = w.y
  cells : w'.cells = w.cells

/-- What operation `o` of process `p`, in call `c`, promises. -/
structure Guar (P : List Byte → Prop) (p : Pid) (c : Call) (o : Op) (w w' : World) : Prop where
  inv : Inv P w'
  locks : ∀ q, q ≠ p → ∀ f t n, Held w'.os.locks q f t n ↔ Held w.os.locks q f t n
  cells : ∀ ℓ, ¬ w.Owns p ℓ → w'.cells ℓ = w.cells ℓ
  gap : ∀ h, ¬ w.Owns p (.chain h) ∨ (∀ k, c.key? = some k → dbHash NHASH_DEF k ≠ h) →
    w'.gap h = w.gap h
  map : ∀ k, ¬ w.Owns p (World.chainOf k) → w'.map k = w.map k
  pend : ∀ q, q ≠ p → w'.pend q = w.pend q
  lin : ∀ q, q ≠ p → w'.lin q = w.lin q
  moved : ∀ q, q ≠ p → w'.moved q = w.moved q
  tail : ¬ w.OwnsTail p → w'.x.size = w.x.size
  datend : ¬ w.OwnsDat p → w'.os.dat.length = w.os.dat.length
  shape : ∀ o r, w.x.recAt o = some r → ∃ r', w'.x.recAt o = some r' ∧ r.Same r'
  kept : ¬ w.Owns p .free → ∀ o r, w.x.recAt o = some r → ¬ Blank r.key →
    ∃ r', w'.x.recAt o = some r' ∧ r'.key = r.key
  wrote : ∀ k d, w.wrote k d → w'.wrote k d
  wiped : ¬ w.Owns p .free → w'.wiped = w.wiped
  live : w'.live = w.live
  still : c.Reads → Unwritten w w'
  put : ∀ k d, w'.wrote k d → w.wrote k d ∨ (o.PutsData d ∧ c.Puts k d)
  home : ∀ i, (∀ k, c.key? = some k → dbHash NHASH_DEF k ≠ i) →
    w'.cells (.chain i) = w.cells (.chain i)
  turn : Turn p c o w w'
  step : (w'.map = w.map ∧ w'.lin p = w.lin p) ∨
    (w.lin p = none ∧ w'.map = (c.spec w.map).1 ∧ w'.lin p = some (c.spec w.map).2)

variable {P : List Byte → Prop} {p q : Pid} {w w₁ w₂ w₃ : World} {c : Call} {o : Op}

theorem Unwritten.refl (w : World) : Unwritten w w := ⟨rfl, rfl, rfl, rfl, rfl⟩

theorem Unwritten.trans (h : Unwritten w₁ w₂) (h' : Unwritten w₂ w₃) : Unwritten w₁ w₃ :=
  ⟨h'.idx.trans h.idx, h'.dat.trans h.dat, h'.x.trans h.x, h'.y.trans h.y, h'.cells.trans h.cells⟩

theorem Rec.Same.refl (r : Rec) : r.Same r := ⟨rfl, rfl, rfl⟩

theorem Rec.Same.trans {r₁ r₂ r₃ : Rec} (h : r₁.Same r₂) (h' : r₂.Same r₃) : r₁.Same r₃ :=
  ⟨h'.1.trans h.1, h'.2.1.trans h.2.1, h'.2.2.trans h.2.2⟩

/-- Two processes never hold a list exclusively and at all. -/
theorem Inv.excl (hw : Inv P w) {ℓ : Place} (ho : w.Owns p ℓ) (hs : w.Sees q ℓ) : p = q := by
  obtain ⟨t, hs⟩ := hs
  cases ℓ with
  | free => exact hw.guarded.excl _ _ _ _ _ ho hs
  | chain h => exact hw.guarded.excl _ _ _ _ _ ho hs
  | hand r => exact Eq.trans ho (Eq.symm hs)

theorem World.Owns.sees {ℓ : Place} (h : w.Owns p ℓ) : w.Sees p ℓ := ⟨_, h⟩

theorem holds_congr (h : ∀ f t n, Held w₂.os.locks p f t n ↔ Held w₁.os.locks p f t n)
    (t : LockType) (ℓ : Place) : w₂.Holds p t ℓ ↔ w₁.Holds p t ℓ := by
  cases ℓ with
  | free => exact h _ _ _
  | chain i => exact h _ _ _
  | hand q => exact Iff.rfl

theorem Rely.holds (h : Rely P p w₁ w₂) {t : LockType} {ℓ : Place} :
    w₂.Holds p t ℓ ↔ w₁.Holds p t ℓ := holds_congr h.locks t ℓ

theorem Rely.sees (h : Rely P p w₁ w₂) {ℓ : Place} (hs : w₁.Sees p ℓ) : w₂.Sees p ℓ := by
  obtain ⟨t, ht⟩ := hs
  exact ⟨t, h.holds.mpr ht⟩

theorem Rely.refl (w : World) : Rely P p w w where
  inv := id
  locks := fun _ _ _ => Iff.rfl
  cells := fun _ _ => rfl
  gap := fun _ _ => rfl
  map := fun _ _ => rfl
  pend := rfl
  lin := rfl
  moved := rfl
  tail := fun _ => rfl
  datend := fun _ => rfl
  shape := fun _ r hr => ⟨r, hr, .refl r⟩
  kept := fun _ _ r hr _ => ⟨r, hr, rfl⟩
  wrote := fun _ _ => id
  wiped := fun _ => rfl
  live := id

theorem Rely.trans (h : Rely P p w₁ w₂) (h' : Rely P p w₂ w₃) : Rely P p w₁ w₃ where
  inv := fun hw => h'.inv (h.inv hw)
  locks := fun f t n => (h'.locks f t n).trans (h.locks f t n)
  cells := fun ℓ hs => (h'.cells ℓ (h.sees hs)).trans (h.cells ℓ hs)
  gap := fun i hs => (h'.gap i (h.sees hs)).trans (h.gap i hs)
  map := fun k hs => (h'.map k (h.sees hs)).trans (h.map k hs)
  pend := h'.pend.trans h.pend
  lin := h'.lin.trans h.lin
  moved := h'.moved.trans h.moved
  tail := fun ht => (h'.tail ((h.locks _ _ _).mpr ht)).trans (h.tail ht)
  datend := fun ht => (h'.datend ((h.locks _ _ _).mpr ht)).trans (h.datend ht)
  shape := by
    intro o r hr
    obtain ⟨r₂, hr₂, hs₂⟩ := h.shape o r hr
    obtain ⟨r₃, hr₃, hs₃⟩ := h'.shape o r₂ hr₂
    exact ⟨r₃, hr₃, hs₂.trans hs₃⟩
  kept := by
    intro hs o r hr hk
    obtain ⟨r₂, hr₂, hk₂⟩ := h.kept hs o r hr hk
    obtain ⟨r₃, hr₃, hk₃⟩ := h'.kept (h.sees hs) o r₂ hr₂ (hk₂ ▸ hk)
    exact ⟨r₃, hr₃, hk₃.trans hk₂⟩
  wrote := fun k d hw => h'.wrote k d (h.wrote k d hw)
  wiped := fun hs => (h'.wiped (h.sees hs)).trans (h.wiped hs)
  live := fun hl => h.live (h'.live hl)

/-- A step elsewhere does nothing to the chain. -/
theorem Turn.same (hmoved : w₂.moved p = w₁.moved p) (hchain : ∀ key, c.key? = some key →
    w₂.cells (World.chainOf key) = w₁.cells (World.chainOf key) ∧
      w₂.gap (dbHash NHASH_DEF key) = w₁.gap (dbHash NHASH_DEF key)) : Turn p c o w₁ w₂ where
  rest := fun key hkey _ k _ => by rw [(hchain key hkey).1]
  sets := fun h => Or.inl (hmoved ▸ h)
  order := by
    intro key hkey h
    obtain ⟨hc, hg⟩ := hchain key hkey
    refine ⟨hmoved ▸ h, ?_⟩
    unfold World.order
    rw [hc, hg]
  shut := fun key hkey h => Or.inr ⟨hmoved ▸ h, (hchain key hkey).2⟩

/-- Doing nothing keeps every promise. -/
theorem Guar.refl (hw : Inv P w) : Guar P p c o w w where
  inv := hw
  locks := fun _ _ _ _ _ => Iff.rfl
  cells := fun _ _ => rfl
  gap := fun _ _ => rfl
  map := fun _ _ => rfl
  pend := fun _ _ => rfl
  lin := fun _ _ => rfl
  moved := fun _ _ => rfl
  tail := fun _ => rfl
  datend := fun _ => rfl
  shape := fun _ r hr => ⟨r, hr, .refl r⟩
  kept := fun _ _ r hr _ => ⟨r, hr, rfl⟩
  wrote := fun _ _ => id
  wiped := fun _ => rfl
  live := rfl
  still := fun _ => .refl w
  put := fun _ _ => Or.inl
  home := fun _ _ => rfl
  turn := .same rfl fun _ _ => ⟨rfl, rfl⟩
  step := Or.inl ⟨rfl, rfl⟩

/-- **One process's promise is what every other process relies on.** -/
theorem Guar.rely (hw : Inv P w₁) (h : Guar P p c o w₁ w₂) (hqp : q ≠ p) : Rely P q w₁ w₂ where
  inv := fun _ => h.inv
  locks := h.locks q hqp
  cells := fun ℓ hs => h.cells ℓ fun ho => hqp (hw.excl ho hs).symm
  gap := fun i hs => h.gap i (Or.inl fun ho => hqp (hw.excl ho hs).symm)
  map := fun k hs => h.map k fun ho => hqp (hw.excl ho hs).symm
  pend := h.pend q hqp
  lin := h.lin q hqp
  moved := h.moved q hqp
  tail := fun ht => h.tail fun ho => hqp (hw.guarded.excl _ _ _ _ _ ho ht).symm
  datend := fun ht => h.datend fun ho => hqp (hw.guarded.excl _ _ _ _ _ ho ht).symm
  shape := h.shape
  kept := fun hs => h.kept fun ho => hqp (hw.excl ho hs).symm
  wrote := h.wrote
  wiped := fun hs => h.wiped fun ho => hqp (hw.excl ho hs).symm
  live := fun hl => h.live ▸ hl

/-! ## The rules -/

/-- The others, as process `p` sees them. -/
structure Env (P : List Byte → Prop) (p : Pid) where
  rel : World → World → Prop
  refl : ∀ w, rel w w
  trans : ∀ {w₁ w₂ w₃}, rel w₁ w₂ → rel w₂ w₃ → rel w₁ w₃
  rely : ∀ {w₁ w₂}, rel w₁ w₂ → Rely P p w₁ w₂

/-- Any number of other processes that keep their promises. -/
def Env.others (P : List Byte → Prop) (p : Pid) : Env P p :=
  ⟨Rely P p, Rely.refl, Rely.trans, id⟩

/-- Nobody else. -/
def Env.nobody (P : List Byte → Prop) (p : Pid) : Env P p :=
  ⟨Eq, fun _ => rfl, Eq.trans, fun h => h ▸ Rely.refl _⟩

/-- Nothing happens between two operations of the process. -/
def Env.Alone (E : Env P p) : Prop := ∀ w w', E.rel w w' → w' = w

/-- The rules for call `c` of process `p`. -/
def rules (E : Env P p) (c : Call) : Prog.Rules Op OS World where
  erase := World.os
  rely := E.rel
  guar := fun o w w' => Inv P w → Guar P p c o w w'

theorem rules_lawful (E : Env P p) (c : Call) : (rules E c).Lawful :=
  ⟨E.refl, E.trans, fun _ _ hw => Guar.refl hw⟩

end LearningNotes.Db
