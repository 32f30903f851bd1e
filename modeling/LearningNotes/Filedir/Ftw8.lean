import LearningNotes.Lib.Bytes
import LearningNotes.Lib.CInt
import LearningNotes.Lib.CString
import LearningNotes.Lib.Visit

/-!
# `ftw8.c`

`dopath` goes down a directory tree with one path in one buffer: it appends "/" and the name of
an entry, calls itself, and cuts the path off again.

`dopath_clear` is what a call does as long as every directory can be opened: it calls `func` for
the `visits` of the tree in their order, stops at the first return that is not 0, and leaves the
string in the buffer as it was.

Mirroring notes:
- A `Node` is what `lstat` and `opendir` find at a path; the entries are in the order of `readdir`,
  with "." and ".." among them or not.
- The length of the buffer is `pathlen`. A store outside of it has no result, nor has a path whose
  length does not fit the `int n`. `malloc` and `realloc` leave any bytes in new memory (`junk`);
  when they fail the program ends, which is left out.
- `closedir` changes nothing that is read later.
-/

namespace LearningNotes.Ftw8

@[simp, reducible] def NAME_MAX : Nat := 255
@[simp, reducible] def PATH_MAX : Nat := 4096

@[reducible] def SLASH : UInt8 := '/'.toUInt8
@[reducible] def DOT : UInt8 := '.'.toUInt8

/-- `FTW_F`, `FTW_D`, `FTW_DNR`, `FTW_NS` -/
inductive Flag where
  | F
  | D
  | DNR
  | NS
  deriving DecidableEq

/-- A name in a directory: at most `NAME_MAX` bytes, none of them zero. -/
abbrev Name := { s : List UInt8 // (0 : UInt8) ∉ s ∧ s.length ≤ NAME_MAX }

variable {S σ : Type}

/-- What is found at a path; `st` is what `lstat` fills in. -/
inductive Node (S : Type) where
  /-- `lstat` fails -/
  | nostat
  | file (st : S)
  /-- a directory `opendir` fails for -/
  | noopen (st : S)
  | dir (st : S) (entries : List (Name × Node S))

/-- What `func` is called with; there is no `stat` when `lstat` failed. -/
structure Visit (S : Type) where
  path : List UInt8
  stat : Option S
  flag : Flag
  deriving DecidableEq

/-- The two names that are ignored. -/
def isDots (name : Name) : Bool := name.1 = [DOT] || name.1 = [DOT, DOT]

/-! ## The buffer -/

/-- The bytes `new` at index `i`. -/
def store (b : List UInt8) (i : Nat) (new : List UInt8) : Option (List UInt8) :=
  if i + new.length ≤ b.length then some (overwrite 0 b i new) else none

theorem store_middle (pre : List UInt8) {old new : List UInt8} (post : List UInt8)
    (h : new.length = old.length) :
    store (pre ++ (old ++ post)) pre.length new = some (pre ++ (new ++ post)) := by
  unfold store
  rw [if_pos, overwrite_middle 0 h]
  rw [List.length_append, List.length_append]
  omega

/-- The buffer ends somewhere behind what is stored. -/
theorem store_tail (pre : List UInt8) {tail new : List UInt8} (h : new.length ≤ tail.length) :
    store (pre ++ tail) pre.length new = some (pre ++ (new ++ tail.drop new.length)) := by
  have htake : new.length = (tail.take new.length).length := by
    rw [List.length_take, Nat.min_eq_left h]
  have hstore := store_middle pre (tail.drop new.length) htake
  rwa [List.take_append_drop] at hstore

variable (junk : Nat → Nat → UInt8)

/-- `realloc(b, size)`, and `malloc(size)` when there is nothing in `b`. -/
def realloc (b : List UInt8) (size : Nat) : List UInt8 :=
  b ++ (List.range (size - b.length)).map (junk size)

theorem length_realloc {b : List UInt8} {size : Nat} (h : b.length ≤ size) :
    (realloc junk b size).length = size := by
  unfold realloc
  rw [List.length_append, List.length_map, List.length_range]
  omega

/-- `n = strlen(fullpath)` to `fullpath[n] = 0`: the buffer and `n`. -/
def enter (b : List UInt8) : Option (List UInt8 × Nat) :=
  if INT_MAX < (cstr b).length + NAME_MAX + 2 then none
  else
    let n := (cstr b).length
    let b := if b.length < n + NAME_MAX + 2 then realloc junk b (b.length * 2) else b
    (store b n [SLASH]).bind fun b => (store b (n + 1) [0]).map fun b => (b, n + 1)

/-! ## `dopath` -/

variable (func : Visit S → σ → Int × σ)

mutual

/-- `dopath`: what it returns, the buffer, and what `func` has become. -/
def dopath : Node S → List UInt8 → σ → Option (Int × List UInt8 × σ)
  | .nostat, b, v =>
    let r := func ⟨cstr b, none, .NS⟩ v
    some (r.1, b, r.2)
  | .file st, b, v =>
    let r := func ⟨cstr b, some st, .F⟩ v
    some (r.1, b, r.2)
  | .noopen st, b, v =>
    let r := func ⟨cstr b, some st, .D⟩ v
    if r.1 ≠ 0 then some (r.1, b, r.2)
    else
      (enter junk b).map fun e =>
        -- the slash is still there
        let r := func ⟨cstr e.1, some st, .DNR⟩ r.2
        (r.1, e.1, r.2)
  | .dir st entries, b, v =>
    let r := func ⟨cstr b, some st, .D⟩ v
    if r.1 ≠ 0 then some (r.1, b, r.2)
    else
      (enter junk b).bind fun e =>
        (readLoop entries e.2 e.1 r.2).bind fun r =>
          (store r.2.1 (e.2 - 1) [0]).map fun b => (r.1, b, r.2.2)

/-- The loop over `readdir`; `ret` is 0 at the head of it. -/
def readLoop : List (Name × Node S) → Nat → List UInt8 → σ → Option (Int × List UInt8 × σ)
  | [], _, b, v => some (0, b, v)
  | (name, child) :: entries, n, b, v =>
    if isDots name then readLoop entries n b v
    else
      (store b n (name.1 ++ [0])).bind fun b =>
        (dopath child b v).bind fun r =>
          if r.1 ≠ 0 then some r else readLoop entries n r.2.1 r.2.2

end

/-! ## What is visited -/

mutual

/-- The calls for a tree at `path`, a directory before what is in it. -/
def visits : Node S → List UInt8 → List (Visit S)
  | .nostat, path => [⟨path, none, .NS⟩]
  | .file st, path => [⟨path, some st, .F⟩]
  | .noopen st, path => [⟨path, some st, .D⟩, ⟨path, some st, .DNR⟩]
  | .dir st entries, path => ⟨path, some st, .D⟩ :: entryVisits entries path

/-- The calls for the entries of the directory at `path`. -/
def entryVisits : List (Name × Node S) → List UInt8 → List (Visit S)
  | [], _ => []
  | (name, child) :: entries, path =>
    if isDots name then entryVisits entries path
    else visits child (path ++ SLASH :: name.1) ++ entryVisits entries path

end

/-- A directory whose path does not fit the `int` it is measured with. -/
def TooLong (x : Visit S) : Prop := x.flag = .D ∧ INT_MAX < x.path.length + NAME_MAX + 2

instance (x : Visit S) : Decidable (TooLong x) := inferInstanceAs (Decidable (_ ∧ _))

/-- No directory that cannot be opened is reached before `func` returns something else than 0, and
none that is too long. -/
def Clear : List (Visit S) → σ → Prop
  | [], _ => True
  | x :: xs, v => x.flag ≠ .DNR ∧ ((func x v).1 ≠ 0 ∨ ¬ TooLong x ∧ Clear xs (func x v).2)

theorem clear_append (xs ys : List (Visit S)) (v : σ) :
    Clear func (xs ++ ys) v ↔
      Clear func xs v ∧
        ((callAll func xs v).1 ≠ 0 ∨ Clear func ys (callAll func xs v).2) := by
  induction xs generalizing v with
  | nil => simp [Clear, callAll]
  | cons x xs ih =>
    rw [List.cons_append, Clear, Clear, callAll]
    by_cases h : (func x v).1 ≠ 0
    · rw [if_pos h]
      simp [h]
    · rw [if_neg h, ih]
      simp only [h, false_or]
      constructor
      · rintro ⟨hflag, hlong, hxs, hys⟩
        exact ⟨⟨hflag, hlong, hxs⟩, hys⟩
      · rintro ⟨⟨hflag, hlong, hxs⟩, hys⟩
        exact ⟨hflag, hlong, hxs, hys⟩

/-! ## The buffer on the way down and up -/

/-- The string in the buffer is `path`. -/
structure Holds (b path : List UInt8) : Prop where
  bytes : ∃ rest, b = path ++ 0 :: rest
  zero : (0 : UInt8) ∉ path
  long : PATH_MAX ≤ b.length

theorem Holds.cstr {b path : List UInt8} (h : Holds b path) : cstr b = path := by
  obtain ⟨rest, rfl⟩ := h.bytes
  exact cstr_append h.zero rest

/-- The buffer has `path` and a slash, and there is room for a name. -/
structure Open (b path : List UInt8) : Prop where
  bytes : ∃ tail, b = path ++ SLASH :: tail
  zero : (0 : UInt8) ∉ path
  room : path.length + NAME_MAX + 2 ≤ b.length
  long : PATH_MAX ≤ b.length

/-- A longer buffer has the same string. -/
theorem Holds.realloc {b path : List UInt8} (h : Holds b path) {size : Nat} (hle : b.length ≤ size) :
    Holds (realloc junk b size) path := by
  obtain ⟨rest, hb⟩ := h.bytes
  refine ⟨⟨rest ++ (List.range (size - b.length)).map (junk size), ?_⟩, h.zero, ?_⟩
  · unfold Ftw8.realloc
    conv => lhs; rw [hb]
    rw [List.append_assoc, List.cons_append, ← hb]
  · rw [length_realloc junk hle]
    exact Nat.le_trans h.long hle

/-- A buffer that is too short for one more name is long enough when it is doubled. -/
theorem Holds.room {b path : List UInt8} (h : Holds b path) :
    ∃ b', (if b.length < path.length + NAME_MAX + 2 then Ftw8.realloc junk b (b.length * 2) else b) = b' ∧
      Holds b' path ∧ path.length + NAME_MAX + 2 ≤ b'.length ∧ b.length ≤ b'.length := by
  obtain ⟨rest, hb⟩ := h.bytes
  have hlen : b.length = path.length + (rest.length + 1) := by
    rw [hb, List.length_append, List.length_cons]
  have hmin := h.long
  simp only [PATH_MAX, NAME_MAX] at hmin ⊢
  by_cases hshort : b.length < path.length + 255 + 2
  · rw [if_pos hshort]
    have htwice : (Ftw8.realloc junk b (b.length * 2)).length = b.length * 2 := by
      apply length_realloc
      omega
    exact ⟨_, rfl, h.realloc junk (by omega), by omega, by omega⟩
  · rw [if_neg hshort]
    exact ⟨b, rfl, h, by omega, Nat.le_refl _⟩

theorem enter_some {b path : List UInt8} (h : Holds b path)
    (hlong : path.length + NAME_MAX + 2 ≤ INT_MAX) :
    ∃ b', enter junk b = some (b', path.length + 1) ∧ Open b' path ∧
      LearningNotes.cstr b' = path ++ [SLASH] ∧ b.length ≤ b'.length := by
  obtain ⟨b₁, hgrow, hb₁, hroom, hle⟩ := h.room junk
  -- there is room for the slash and for the 0 behind it
  have hmin := hb₁.long
  obtain ⟨rest, rfl⟩ := hb₁.bytes
  obtain ⟨c, rest', rfl⟩ : ∃ c rest', rest = c :: rest' := by
    cases rest with
    | nil =>
      rw [List.length_append, List.length_singleton] at hroom
      simp only [NAME_MAX] at hroom
      omega
    | cons c rest' => exact ⟨c, rest', rfl⟩
  have hslash : store (path ++ (0 :: c :: rest')) path.length [SLASH] =
      some (path ++ ([SLASH] ++ c :: rest')) :=
    @store_middle path [0] [SLASH] (c :: rest') rfl
  have hzero : store (path ++ ([SLASH] ++ c :: rest')) (path.length + 1) [0] =
      some ((path ++ [SLASH]) ++ ([0] ++ rest')) := by
    rw [← List.append_assoc]
    have hstore := @store_middle (path ++ [SLASH]) [c] [0] rest' rfl
    rw [List.length_append] at hstore
    exact hstore
  have hsame : ((path ++ [SLASH]) ++ ([0] ++ rest')).length = (path ++ 0 :: c :: rest').length := by
    simp only [List.length_append, List.length_cons, List.length_nil]
    omega
  refine ⟨(path ++ [SLASH]) ++ ([0] ++ rest'), ?_, ⟨⟨0 :: rest', by simp⟩, h.zero, ?_, ?_⟩, ?_, ?_⟩
  · unfold enter
    rw [h.cstr, if_neg (Nat.not_lt_of_le hlong)]
    simp only [hgrow, hslash, hzero, Option.bind_some, Option.map_some]
  · rw [hsame]
    exact hroom
  · rw [hsame]
    exact hmin
  · refine cstr_append ?_ rest'
    -- neither the path nor the slash has a 0
    intro hmem
    rcases List.mem_append.mp hmem with hp | hs
    · exact h.zero hp
    · exact absurd hs (by decide)
  · rw [hsame]
    exact hle

/-- The name of an entry is stored behind the slash. -/
theorem Open.name {b path : List UInt8} (h : Open b path) (name : Name) :
    ∃ b', store b (path.length + 1) (name.1 ++ [0]) = some b' ∧
      Holds b' (path ++ SLASH :: name.1) ∧ b'.length = b.length := by
  obtain ⟨tail, hb⟩ := h.bytes
  obtain ⟨hname, hlen⟩ := name.2
  have hroom := h.room
  have hb' : b = (path ++ [SLASH]) ++ tail := by rw [hb, List.append_assoc]; rfl
  have htail : b.length = path.length + 1 + tail.length := by
    rw [hb', List.length_append, List.length_append, List.length_singleton]
  have hfit : (name.1 ++ [0]).length ≤ tail.length := by
    rw [List.length_append, List.length_singleton]
    simp only [NAME_MAX] at hroom hlen
    omega
  have hstore := store_tail (path ++ [SLASH]) hfit
  rw [List.length_append, List.length_singleton, ← hb'] at hstore
  have hsame : ((path ++ [SLASH]) ++ ((name.1 ++ [0]) ++ tail.drop (name.1 ++ [0]).length) :
      List UInt8).length = b.length := by
    rw [htail]
    simp only [List.length_append, List.length_singleton, List.length_drop] at hfit ⊢
    omega
  refine ⟨_, hstore, ⟨⟨tail.drop (name.1 ++ [0]).length, ?_⟩, ?_, ?_⟩, hsame⟩
  · simp
  · intro hmem
    rcases List.mem_append.mp hmem with hp | hs
    · exact h.zero hp
    · rcases List.mem_cons.mp hs with he | hn
      · exact absurd he (by decide)
      · exact hname hn
  · rw [hsame]
    exact h.long

/-- What a call for an entry leaves is ready for the next one. -/
theorem Holds.opened {b b' path name : List UInt8} (h : Holds b' (path ++ SLASH :: name))
    (ho : Open b path) (hle : b.length ≤ b'.length) : Open b' path := by
  obtain ⟨rest, hb⟩ := h.bytes
  refine ⟨⟨name ++ 0 :: rest, ?_⟩, ho.zero, Nat.le_trans ho.room hle, h.long⟩
  rw [hb, List.append_assoc]
  rfl

/-- `fullpath[n-1] = 0` -/
theorem Open.closed {b path : List UInt8} (h : Open b path) :
    ∃ b', store b path.length [0] = some b' ∧ Holds b' path ∧ b'.length = b.length := by
  obtain ⟨tail, hb⟩ := h.bytes
  have hstore : store b path.length [0] = some (path ++ ([0] ++ tail)) := by
    rw [hb]
    exact @store_middle path [SLASH] [0] tail rfl
  have hsame : (path ++ ([0] ++ tail)).length = b.length := by
    rw [hb]
    simp only [List.length_append, List.length_cons, List.length_nil]
    omega
  refine ⟨_, hstore, ⟨⟨tail, rfl⟩, h.zero, ?_⟩, hsame⟩
  rw [hsame]
  exact h.long

/-! ## A call that stays clear -/

mutual

/-- As long as all is clear, `func` is called for the visits, and the string is put back. -/
theorem dopath_clear : ∀ (node : Node S) {b path : List UInt8} (v : σ), Holds b path →
    Clear func (visits node path) v →
    ∃ b', dopath junk func node b v = some ((callAll func (visits node path) v).1, b',
        (callAll func (visits node path) v).2) ∧
      Holds b' path ∧ b.length ≤ b'.length
  | .nostat, b, path, v, hb, _ => by
    refine ⟨b, ?_, hb, Nat.le_refl _⟩
    rw [dopath, visits, hb.cstr, callAll, callAll]
    by_cases h : (func ⟨path, none, .NS⟩ v).1 ≠ 0
    · rw [if_pos h]
    · rw [if_neg h]
      simp [not_not.mp h]
  | .file st, b, path, v, hb, _ => by
    refine ⟨b, ?_, hb, Nat.le_refl _⟩
    rw [dopath, visits, hb.cstr, callAll, callAll]
    by_cases h : (func ⟨path, some st, .F⟩ v).1 ≠ 0
    · rw [if_pos h]
    · rw [if_neg h]
      simp [not_not.mp h]
  | .noopen st, b, path, v, hb, hclear => by
    rw [visits, Clear, Clear] at hclear
    obtain ⟨-, hstop | ⟨-, hdnr, -⟩⟩ := hclear
    · refine ⟨b, ?_, hb, Nat.le_refl _⟩
      rw [dopath, visits, hb.cstr, callAll, if_pos hstop]
      simp only [if_pos hstop]
    · exact absurd rfl hdnr
  | .dir st entries, b, path, v, hb, hclear => by
    rw [visits, Clear] at hclear
    obtain ⟨-, hstop | ⟨hlong, hclear⟩⟩ := hclear
    · refine ⟨b, ?_, hb, Nat.le_refl _⟩
      rw [dopath, visits, hb.cstr, callAll, if_pos hstop]
      simp only [if_pos hstop]
    · by_cases hstop : (func ⟨path, some st, .D⟩ v).1 ≠ 0
      · refine ⟨b, ?_, hb, Nat.le_refl _⟩
        rw [dopath, visits, hb.cstr, callAll, if_pos hstop]
        simp only [if_pos hstop]
      · have hfits : path.length + NAME_MAX + 2 ≤ INT_MAX := by
          have hnot : ¬ INT_MAX < path.length + NAME_MAX + 2 := fun hl => hlong ⟨rfl, hl⟩
          omega
        obtain ⟨b₁, henter, ho₁, -, hle₁⟩ := enter_some junk hb hfits
        obtain ⟨b₂, hloop, ho₂, hle₂⟩ := readLoop_clear entries _ ho₁ hclear
        obtain ⟨b₃, hstore, hb₃, hlen₃⟩ := ho₂.closed
        refine ⟨b₃, ?_, hb₃, by omega⟩
        rw [dopath, visits, hb.cstr, callAll, if_neg hstop]
        simp only [if_neg hstop, henter, Option.bind_some, hloop, Nat.add_sub_cancel, hstore,
          Option.map_some]

theorem readLoop_clear : ∀ (entries : List (Name × Node S)) {b path : List UInt8} (v : σ),
    Open b path → Clear func (entryVisits entries path) v →
    ∃ b', readLoop junk func entries (path.length + 1) b v =
        some ((callAll func (entryVisits entries path) v).1, b',
          (callAll func (entryVisits entries path) v).2) ∧
      Open b' path ∧ b.length ≤ b'.length
  | [], b, path, v, ho, _ => ⟨b, rfl, ho, Nat.le_refl _⟩
  | (name, child) :: entries, b, path, v, ho, hclear => by
    rw [entryVisits] at hclear ⊢
    rw [readLoop]
    by_cases hdots : isDots name = true
    · rw [if_pos hdots] at hclear ⊢
      rw [if_pos hdots]
      exact readLoop_clear entries v ho hclear
    · rw [if_neg hdots] at hclear ⊢
      rw [if_neg hdots]
      obtain ⟨hchild, hrest⟩ := (clear_append func _ _ v).mp hclear
      obtain ⟨b₁, hname, hb₁, hlen₁⟩ := ho.name name
      obtain ⟨b₂, hcall, hb₂, hle₂⟩ := dopath_clear child v hb₁ hchild
      have ho₂ := hb₂.opened ho (by omega)
      rw [callAll_append]
      simp only [hname, Option.bind_some, hcall]
      by_cases hstop : (callAll func (visits child (path ++ SLASH :: name.1)) v).1 ≠ 0
      · rw [if_pos hstop, if_pos hstop]
        exact ⟨b₂, rfl, ho₂, by omega⟩
      · rw [if_neg hstop, if_neg hstop]
        obtain ⟨b₃, hloop, ho₃, hle₃⟩ :=
          readLoop_clear entries _ ho₂ (hrest.resolve_left hstop)
        exact ⟨b₃, hloop, ho₃, by omega⟩

end

end LearningNotes.Ftw8
