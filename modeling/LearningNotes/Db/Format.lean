import LearningNotes.Db.Source
import LearningNotes.Lib.Layout

/-!
# The index file as a table of records

`Index` is the parsed index file: the free-list pointer, the hash table, and the
records in file order. `Index.bytes` is the file it stands for. An index *is* the
file, so a record is addressed by its byte offset (`Index.recAt`), and a pointer
field by the place it sits in (`Slot`): in front of the hash table, in the hash
table, or at the start of a record.

The bridge to the bytes are two splittings, `recAt_split` and `get_split`: whatever
sits at an offset is a middle piece of the file, and replacing it in the index
replaces that piece and nothing else. With `slice_middle` and `overwrite_middle`
this makes reads and writes of the file reads and writes of the index; after that
only `recAt_*` and `get_*` are needed.
-/

namespace LearningNotes.Db

/-! ## Records -/

/-- An index record: chain pointer, key, and where the data is. -/
structure Rec where
  ptr : Nat
  key : List Byte
  datoff : Nat
  datlen : Nat
  deriving DecidableEq

/-- A pointer field. -/
def ptrText (v : Nat) : List Byte := padLeft PTR_SZ (decimal v)

namespace Rec

/-- The record behind its two length-prefix fields. -/
def text (r : Rec) : List Byte :=
  r.key ++ [SEP] ++ decimal r.datoff ++ [SEP] ++ decimal r.datlen ++ [NEWLINE]

/-- The length field. -/
def lenText (r : Rec) : List Byte := padLeft IDXLEN_SZ (decimal r.text.length)

def bytes (r : Rec) : List Byte := ptrText r.ptr ++ (r.lenText ++ r.text)

/-- The number of bytes of a record. -/
def size (r : Rec) : Nat := PTR_SZ + IDXLEN_SZ + r.text.length

/-- The record passes the checks of `_db_writeidx`. -/
structure Ok (r : Rec) : Prop where
  nul : (0 : Byte) ∉ r.key
  ptr : r.ptr ≤ PTR_MAX
  lo : IDXLEN_MIN ≤ r.text.length
  hi : r.text.length ≤ IDXLEN_MAX
  datlo : DATLEN_MIN ≤ r.datlen
  dathi : r.datlen ≤ DATLEN_MAX

/-- The pointer is not part of the text. -/
@[simp] theorem text_ptr (r : Rec) (v : Nat) : { r with ptr := v }.text = r.text := rfl

/-- Nor of the length. -/
@[simp] theorem size_ptr (r : Rec) (v : Nat) : { r with ptr := v }.size = r.size := rfl

/-- No record is empty. -/
theorem size_pos (r : Rec) : 0 < r.size := by
  simp only [size, PTR_SZ]
  omega

/-- A record with another pointer. -/
theorem Ok.setPtr {r : Rec} (h : r.Ok) {v : Nat} (hv : v ≤ PTR_MAX) : { r with ptr := v }.Ok :=
  ⟨h.nul, hv, h.lo, h.hi, h.datlo, h.dathi⟩

/-- The key, the two numbers, the separators and the newline. -/
theorem length_text (r : Rec) : r.text.length =
    r.key.length + (decimal r.datoff).length + (decimal r.datlen).length + 3 := by
  simp only [text, List.length_append, List.length_singleton]
  omega

end Rec

/-- A pointer has its width. -/
theorem length_ptrText {v : Nat} (h : v ≤ PTR_MAX) : (ptrText v).length = PTR_SZ :=
  length_padLeft (length_decimal_le (by decide) (Nat.lt_of_le_of_lt h (by decide)))

/-- A length has its width. -/
theorem Rec.length_lenText {r : Rec} (h : r.text.length ≤ IDXLEN_MAX) :
    r.lenText.length = IDXLEN_SZ :=
  length_padLeft (length_decimal_le (by decide) (Nat.lt_of_le_of_lt h (by decide)))

/-- So has the length of a record. -/
theorem Rec.Ok.length_lenText {r : Rec} (h : r.Ok) : r.lenText.length = IDXLEN_SZ :=
  Rec.length_lenText h.hi

/-- The text that `_db_writeidx` builds is a record. -/
theorem bytes_writeidx (r : Rec) : padLeft PTR_SZ (decimal r.ptr) ++
    padLeft IDXLEN_SZ (decimal r.text.length) ++ r.text = r.bytes := by
  unfold Rec.bytes Rec.lenText ptrText
  rw [List.append_assoc]

/-- The bytes of a record. -/
theorem Rec.Ok.length_bytes {r : Rec} (h : r.Ok) : r.bytes.length = r.size := by
  unfold Rec.bytes Rec.size
  rw [List.length_append, List.length_append, length_ptrText h.ptr, h.length_lenText,
    Nat.add_assoc]

/-! ## The index -/

/-- The parsed index file. -/
structure Index where
  free : Nat
  table : List Nat
  recs : List Rec

/-- Where a pointer field sits. -/
inductive Slot where
  | free
  | chain (h : Nat)
  | link (o : Nat)
  deriving DecidableEq

/-- The offset of a pointer field. -/
@[simp] def Slot.off : Slot → Nat
  | .free => FREE_OFF
  | .chain h => h * PTR_SZ + HASH_OFF
  | .link o => o

/-- The offset of the first record. -/
@[simp, reducible] def recsOff : Nat := (NHASH_DEF + 1) * PTR_SZ + 1

namespace Index

def bytes (x : Index) : List Byte :=
  ptrText x.free ++ (x.table.flatMap ptrText ++ (NEWLINE :: x.recs.flatMap Rec.bytes))

/-- The record at a byte offset. -/
def recAt (x : Index) (o : Nat) : Option Rec := entryAt Rec.size recsOff x.recs o

/-- The pointer in a slot. -/
def get (x : Index) : Slot → Option Nat
  | .free => some x.free
  | .chain h => x.table[h]?
  | .link o => (x.recAt o).map Rec.ptr

/-- Change the pointer in a slot. -/
def put (x : Index) (c : Slot) (v : Nat) : Index :=
  match c with
  | .free => { x with free := v }
  | .chain h => { x with table := x.table.set h v }
  | .link o => { x with recs := setEntry Rec.size ({ · with ptr := v }) recsOff x.recs o }

/-- Replace the record at an offset. -/
def setRec (x : Index) (o : Nat) (r : Rec) : Index :=
  { x with recs := setEntry Rec.size (fun _ => r) recsOff x.recs o }

/-- Add a record at the end. -/
def append (x : Index) (r : Rec) : Index := { x with recs := x.recs ++ [r] }

/-- The length of the file. -/
def size (x : Index) : Nat := recsOff + extent Rec.size x.recs

/-- Every field of the file fits its place. -/
structure Ok (x : Index) : Prop where
  free : x.free ≤ PTR_MAX
  len : x.table.length = NHASH_DEF
  table : ∀ v ∈ x.table, v ≤ PTR_MAX
  recs : ∀ r ∈ x.recs, r.Ok

/-- The index of a new database. -/
def empty : Index := ⟨0, List.replicate NHASH_DEF 0, []⟩

/-- The new index file is all right. -/
theorem empty_ok : empty.Ok :=
  ⟨Nat.zero_le _, List.length_replicate, fun v hv => by rw [List.eq_of_mem_replicate hv]; omega,
    fun r hr => absurd hr List.not_mem_nil⟩

/-- It is what `db_open` writes. -/
theorem bytes_empty : empty.bytes = emptyTable := by decide +kernel

/-! ### What reads and writes see -/

/-- The bytes of a row of pointers. -/
theorem length_flatMap_ptrText {vs : List Nat} (h : ∀ v ∈ vs, v ≤ PTR_MAX) :
    (vs.flatMap ptrText).length = vs.length * PTR_SZ := by
  induction vs with
  | nil => rfl
  | cons v vs ih =>
    rw [List.flatMap_cons, List.length_append, length_ptrText (h v (List.mem_cons_self ..)),
      ih fun w hw => h w (List.mem_cons_of_mem _ hw), List.length_cons, Nat.succ_mul,
      Nat.add_comm]

variable {x : Index} {o : Nat} {r : Rec}

/-- The bytes of the index file. -/
theorem Ok.length_bytes (hx : x.Ok) : x.bytes.length = x.size := by
  unfold bytes size
  rw [List.length_append, List.length_append, List.length_cons, length_ptrText hx.free,
    length_flatMap_ptrText hx.table, length_flatMap_extent fun r hr => (hx.recs r hr).length_bytes, hx.len]
  simp only [recsOff, NHASH_DEF, PTR_SZ]
  omega

/-- A record is a middle piece of the file. -/
theorem recAt_split (hx : x.Ok) (h : x.recAt o = some r) :
    ∃ pre post, x.bytes = pre ++ (r.bytes ++ post) ∧ pre.length = o ∧ r ∈ x.recs ∧
      ∀ f, ({ x with recs := setEntry Rec.size f recsOff x.recs o } : Index).bytes
        = pre ++ ((f r).bytes ++ post) := by
  obtain ⟨rs₁, rs₂, hrs, ho, hset⟩ := entryAt_split Rec.size_pos h
  refine ⟨ptrText x.free ++ (x.table.flatMap ptrText ++ (NEWLINE :: rs₁.flatMap Rec.bytes)),
    rs₂.flatMap Rec.bytes, ?_, ?_, ?_, ?_⟩
  · unfold bytes
    rw [hrs]
    simp only [List.flatMap_append, List.flatMap_cons, List.append_assoc, List.cons_append]
  · have h₁ : ∀ r ∈ rs₁, r.Ok := by
      intro r' hr'
      exact hx.recs r' (hrs ▸ List.mem_append_left _ hr')
    rw [List.length_append, List.length_append, List.length_cons, length_ptrText hx.free,
      length_flatMap_ptrText hx.table, length_flatMap_extent fun r hr => (h₁ r hr).length_bytes, hx.len, ho]
    simp only [recsOff, NHASH_DEF, PTR_SZ]
    omega
  · rw [hrs]
    exact List.mem_append_right _ (List.mem_cons_self ..)
  · intro f
    unfold bytes
    simp only [hset, List.flatMap_append, List.flatMap_cons, List.append_assoc,
      List.cons_append]

/-- Every record is all right. -/
theorem Ok.recAt (hx : x.Ok) (h : x.recAt o = some r) : r.Ok := by
  obtain ⟨-, -, -, -, hmem, -⟩ := recAt_split hx h
  exact hx.recs r hmem

/-- A pointer field is a middle piece of the file. -/
theorem get_split (hx : x.Ok) {c : Slot} {v : Nat} (h : x.get c = some v) :
    v ≤ PTR_MAX ∧ ∃ pre post, x.bytes = pre ++ (ptrText v ++ post) ∧ pre.length = c.off ∧
      ∀ v', (x.put c v').bytes = pre ++ (ptrText v' ++ post) := by
  cases c with
  | free =>
    cases h
    exact ⟨hx.free, [], _, rfl, rfl, fun v' => rfl⟩
  | chain i =>
    obtain ⟨hi, hv⟩ := List.getElem?_eq_some_iff.mp h
    have hmem : v ∈ x.table := hv ▸ List.getElem_mem hi
    -- the fields in front of it all have the width of a pointer
    have hsplit : x.table = x.table.take i ++ v :: x.table.drop (i + 1) := by
      rw [← hv, List.getElem_cons_drop, List.take_append_drop]
    have htake : (x.table.take i).length = i := by rw [List.length_take]; omega
    refine ⟨hx.table v hmem, ptrText x.free ++ (x.table.take i).flatMap ptrText,
      (x.table.drop (i + 1)).flatMap ptrText ++ (NEWLINE :: x.recs.flatMap Rec.bytes),
      ?_, ?_, ?_⟩
    · unfold bytes
      conv_lhs => rw [hsplit]
      simp only [List.flatMap_append, List.flatMap_cons, List.append_assoc]
    · rw [List.length_append, length_ptrText hx.free, length_flatMap_ptrText fun w hw =>
        hx.table w (List.mem_of_mem_take hw), htake]
      simp only [Slot.off, HASH_OFF, PTR_SZ]
      omega
    · intro v'
      have hset : x.table.set i v' = x.table.take i ++ v' :: x.table.drop (i + 1) :=
        List.set_eq_take_append_cons_drop.trans (if_pos hi)
      simp only [put, bytes, hset, List.flatMap_append, List.flatMap_cons, List.append_assoc]
  | link o =>
    obtain ⟨r, hr, hv⟩ := Option.map_eq_some_iff.mp h
    obtain ⟨pre, post, hb, hlen, hmem, hupd⟩ := recAt_split hx hr
    refine ⟨hv ▸ (hx.recs r hmem).ptr, pre, r.lenText ++ r.text ++ post, ?_, hlen, ?_⟩
    · rw [hb, Rec.bytes, hv]
      simp only [List.append_assoc]
    · intro v'
      show ({ x with recs := setEntry Rec.size _ recsOff x.recs o } : Index).bytes = _
      rw [hupd]
      unfold Rec.bytes
      simp only [List.append_assoc]
      rfl

/-- Reading a pointer field. -/
theorem slice_get (hx : x.Ok) {c : Slot} {v : Nat} (h : x.get c = some v) :
    slice x.bytes c.off PTR_SZ = ptrText v := by
  obtain ⟨hv, pre, post, hb, hlen, -⟩ := get_split hx h
  rw [hb, ← hlen, ← length_ptrText hv, slice_middle]

/-- Writing a pointer field. -/
theorem overwrite_put (hx : x.Ok) {c : Slot} {v v' : Nat} (h : x.get c = some v)
    (hv' : v' ≤ PTR_MAX) : overwrite 0 x.bytes c.off (ptrText v') = (x.put c v').bytes := by
  obtain ⟨hv, pre, post, hb, hlen, hput⟩ := get_split hx h
  rw [hput, hb, ← hlen, overwrite_middle]
  rw [length_ptrText hv, length_ptrText hv']

/-- Reading the two prefix fields of a record. -/
theorem slice_head (hx : x.Ok) (h : x.recAt o = some r) :
    slice x.bytes o (PTR_SZ + IDXLEN_SZ) = ptrText r.ptr ++ r.lenText := by
  obtain ⟨pre, post, hb, hlen, hmem, -⟩ := recAt_split hx h
  have hr := hx.recs r hmem
  have hn : PTR_SZ + IDXLEN_SZ = (ptrText r.ptr ++ r.lenText).length := by
    rw [List.length_append, length_ptrText hr.ptr, hr.length_lenText]
  rw [hb, ← hlen, hn, Rec.bytes, ← List.append_assoc (ptrText r.ptr),
    List.append_assoc (ptrText r.ptr ++ r.lenText), slice_middle]

/-- Reading the rest of a record. -/
theorem slice_text (hx : x.Ok) (h : x.recAt o = some r) :
    slice x.bytes (o + (PTR_SZ + IDXLEN_SZ)) r.text.length = r.text := by
  obtain ⟨pre, post, hb, hlen, hmem, -⟩ := recAt_split hx h
  have hr := hx.recs r hmem
  have hn : o + (PTR_SZ + IDXLEN_SZ) = (pre ++ (ptrText r.ptr ++ r.lenText)).length := by
    rw [List.length_append, List.length_append, length_ptrText hr.ptr, hr.length_lenText, hlen]
  have hbytes : x.bytes = (pre ++ (ptrText r.ptr ++ r.lenText)) ++ (r.text ++ post) := by
    rw [hb, Rec.bytes]
    simp only [List.append_assoc]
  rw [hbytes, hn, slice_middle]

/-- Reading a whole record. -/
theorem slice_recAt (hx : x.Ok) (h : x.recAt o = some r) : slice x.bytes o r.size = r.bytes := by
  obtain ⟨pre, post, hb, hlen, hmem, -⟩ := recAt_split hx h
  rw [hb, ← hlen, ← (hx.recs r hmem).length_bytes, slice_middle]

/-- Writing a record over one of the same size. -/
theorem overwrite_setRec (hx : x.Ok) (h : x.recAt o = some r) {r' : Rec} (hr' : r'.Ok)
    (hsize : r'.size = r.size) : overwrite 0 x.bytes o r'.bytes = (x.setRec o r').bytes := by
  obtain ⟨pre, post, hb, hlen, hmem, hupd⟩ := recAt_split hx h
  rw [setRec, hupd, hb, ← hlen, overwrite_middle]
  rw [hr'.length_bytes, (hx.recs r hmem).length_bytes, hsize]

/-- Writing a record at the end of the file. -/
theorem overwrite_append (x : Index) (r : Rec) :
    overwrite 0 x.bytes x.bytes.length r.bytes = (x.append r).bytes := by
  rw [overwrite_end]
  unfold append bytes
  simp only [List.flatMap_append, List.flatMap_cons, List.flatMap_nil, List.append_nil,
    List.append_assoc, List.cons_append]

/-! ### What an edit changes -/

/-- A record is changed where it is. -/
theorem Ok.setEntry (hx : x.Ok) (h : x.recAt o = some r) {f : Rec → Rec} (hr : (f r).Ok) :
    ({ x with recs := LearningNotes.setEntry Rec.size f recsOff x.recs o } : Index).Ok := by
  obtain ⟨rs₁, rs₂, hrs, -, hset⟩ := entryAt_split Rec.size_pos h
  refine ⟨hx.free, hx.len, hx.table, fun r' hr' => ?_⟩
  rcases List.mem_append.mp (hset f ▸ hr' : r' ∈ rs₁ ++ f r :: rs₂) with h₁ | h₁
  · exact hx.recs r' (hrs ▸ List.mem_append_left _ h₁)
  · rcases List.mem_cons.mp h₁ with rfl | h₁
    · exact hr
    · exact hx.recs r' (hrs ▸ List.mem_append_right _ (List.mem_cons_of_mem _ h₁))

/-- Changing a pointer changes the pointer of the record it belongs to. -/
theorem recAt_put {c : Slot} {v v' o' : Nat} (h : x.get c = some v) : (x.put c v').recAt o' =
    if c = .link o' then (x.recAt o').map ({ · with ptr := v' }) else x.recAt o' := by
  cases c with
  | free => rfl
  | chain i => rfl
  | link o =>
    obtain ⟨r, hr, -⟩ := Option.map_eq_some_iff.mp h
    have hat : (x.put (.link o) v').recAt o' =
        if o' = o then some { r with ptr := v' } else x.recAt o' :=
      @entryAt_setEntry Rec Rec.size ({ · with ptr := v' }) x.recs recsOff o o' r hr rfl
    rw [hat]
    by_cases ho : o' = o
    · subst ho
      rw [if_pos rfl, if_pos rfl, hr]
      rfl
    · rw [if_neg ho, if_neg fun h => ho (by cases h; rfl)]

/-- A pointer that is overwritten, and the others. -/
theorem get_put {c c' : Slot} {v v' : Nat} (h : x.get c = some v) :
    (x.put c v').get c' = if c' = c then some v' else x.get c' := by
  cases c' with
  | link o' =>
    show ((x.put c v').recAt o').map Rec.ptr = _
    rw [recAt_put h]
    by_cases hc : c = .link o'
    · subst hc
      rw [if_pos rfl, if_pos rfl]
      obtain ⟨r, hr, -⟩ := Option.map_eq_some_iff.mp h
      rw [hr]
      rfl
    · rw [if_neg hc, if_neg fun h => hc h.symm]
      rfl
  | free =>
    cases c with
    | free => rfl
    | chain i => rfl
    | link o => rfl
  | chain i' =>
    cases c with
    | free => rfl
    | link o => rfl
    | chain i =>
      show (x.table.set i v')[i']? = _
      obtain ⟨hi, -⟩ := List.getElem?_eq_some_iff.mp h
      rw [List.getElem?_set]
      by_cases hii : i = i'
      · subst hii
        rw [if_pos rfl, if_pos hi, if_pos rfl]
      · rw [if_neg hii, if_neg fun h => hii (by cases h; rfl)]
        rfl

/-- A pointer is overwritten. -/
theorem Ok.put (hx : x.Ok) {c : Slot} {v v' : Nat} (h : x.get c = some v) (hv : v' ≤ PTR_MAX) :
    (x.put c v').Ok := by
  cases c with
  | free => exact ⟨hv, hx.len, hx.table, hx.recs⟩
  | chain i =>
    refine ⟨hx.free, List.length_set.trans hx.len, fun w hw => ?_, hx.recs⟩
    rcases List.mem_or_eq_of_mem_set hw with hw | hw
    · exact hx.table w hw
    · exact hw ▸ hv
  | link o =>
    obtain ⟨r, hr, -⟩ := Option.map_eq_some_iff.mp h
    exact hx.setEntry hr ((hx.recAt hr).setPtr hv)

/-- A record is overwritten where it is. -/
theorem Ok.setRec (hx : x.Ok) (h : x.recAt o = some r) {r' : Rec} (hr' : r'.Ok) :
    (x.setRec o r').Ok := hx.setEntry h hr'

/-- Replacing a record. -/
theorem recAt_setRec (h : x.recAt o = some r) {r' : Rec} (hsize : r'.size = r.size) {o' : Nat} :
    (x.setRec o r').recAt o' = if o' = o then some r' else x.recAt o' :=
  entryAt_setEntry h hsize

/-- The pointers after a record is overwritten. -/
theorem get_setRec (h : x.recAt o = some r) {r' : Rec} (hsize : r'.size = r.size) {c : Slot} :
    (x.setRec o r').get c = if c = .link o then some r'.ptr else x.get c := by
  cases c with
  | free => rfl
  | chain i => rfl
  | link o' =>
    show ((x.setRec o r').recAt o').map Rec.ptr = _
    rw [recAt_setRec h hsize]
    by_cases ho : o' = o
    · rw [if_pos ho, if_pos (by rw [ho])]
      rfl
    · rw [if_neg ho, if_neg fun h => ho (by cases h; rfl)]
      rfl

/-- Writing a pointer field of a record is replacing the record. -/
theorem put_link (h : x.recAt o = some r) (v : Nat) :
    x.put (.link o) v = x.setRec o { r with ptr := v } := by
  have hset : LearningNotes.setEntry Rec.size ({ · with ptr := v }) recsOff x.recs o =
      LearningNotes.setEntry Rec.size (fun _ => { r with ptr := v }) recsOff x.recs o :=
    setEntry_congr Rec.size_pos h rfl
  exact congrArg (fun recs => { x with recs := recs }) hset

/-- The record in its place. -/
theorem setRec_self (h : x.recAt o = some r) : x.setRec o r = x := by
  unfold setRec
  rw [setEntry_self Rec.size_pos h rfl]

/-- The file does not grow. -/
theorem size_setRec (h : x.recAt o = some r) {r' : Rec} (hsize : r'.size = r.size) :
    (x.setRec o r').size = x.size := by
  have hextent := @extent_setEntry Rec Rec.size (fun _ => r') x.recs recsOff o r h hsize
  unfold size setRec
  rw [hextent]

/-- The file does not grow. -/
theorem size_put {c : Slot} {v v' : Nat} (h : x.get c = some v) : (x.put c v').size = x.size := by
  cases c with
  | free => rfl
  | chain i => rfl
  | link o =>
    obtain ⟨r, hr, -⟩ := Option.map_eq_some_iff.mp h
    rw [put_link hr, size_setRec hr (Rec.size_ptr r v')]

/-- The file grows by the record. -/
theorem size_append (x : Index) (r : Rec) : (x.append r).size = x.size + r.size := by
  unfold size append
  rw [extent_append, extent_cons, extent_nil]
  omega

/-- A record is appended. -/
theorem Ok.append (hx : x.Ok) (hr : r.Ok) : (x.append r).Ok := by
  refine ⟨hx.free, hx.len, hx.table, fun r' hr' => ?_⟩
  rcases List.mem_append.mp hr' with hr' | hr'
  · exact hx.recs r' hr'
  · exact List.mem_singleton.mp hr' ▸ hr

/-- A new record sits where the file ended. -/
theorem recAt_append {o' : Nat} :
    (x.append r).recAt o' = if o' = x.size then some r else x.recAt o' :=
  entryAt_concat Rec.size_pos

/-- There is no record at the end. -/
theorem recAt_size (x : Index) : x.recAt x.size = none := entryAt_end Rec.size_pos x.recs recsOff

end Index

/-! ### The file determines the index -/

/-- A pointer is known by its text. -/
theorem ptrText_inj {v v' : Nat} (h : ptrText v = ptrText v') : v = v' := by
  have hv := congrArg atol h
  unfold ptrText at hv
  rw [atol_padLeft_decimal, atol_padLeft_decimal] at hv
  omega

/-- A number is known by its text. -/
theorem decimal_inj {n n' : Nat} (h : decimal n = decimal n') : n = n' := by
  have hn := congrArg atol h
  rw [atol_decimal, atol_decimal] at hn
  omega

/-- The two separators behind the key are the last ones. -/
theorem Rec.text_inj {r r' : Rec} (h : r.text = r'.text) :
    r.key = r'.key ∧ r.datoff = r'.datoff ∧ r.datlen = r'.datlen := by
  have hsep : ∀ n, SEP ∉ decimal n := not_mem_decimal (by decide)
  unfold Rec.text at h
  have h₁ := (List.append_inj' h rfl).1
  rw [List.append_assoc, List.append_assoc (r'.key ++ _ ++ _), List.singleton_append,
    List.singleton_append] at h₁
  obtain ⟨h₂, hlen⟩ := split_last_inj (hsep _) (hsep _) h₁
  rw [List.append_assoc, List.append_assoc r'.key, List.singleton_append,
    List.singleton_append] at h₂
  obtain ⟨hkey, hoff⟩ := split_last_inj (hsep _) (hsep _) h₂
  exact ⟨hkey, decimal_inj hoff, decimal_inj hlen⟩

/-- The records are one behind the other: the first one, and the rest. -/
theorem Rec.bytes_append_inj {r r' : Rec} (hr : r.Ok) (hr' : r'.Ok) {b b' : List Byte}
    (h : r.bytes ++ b = r'.bytes ++ b') : r = r' ∧ b = b' := by
  unfold Rec.bytes at h
  simp only [List.append_assoc] at h
  obtain ⟨hptr, h₁⟩ := List.append_inj h ((length_ptrText hr.ptr).trans (length_ptrText hr'.ptr).symm)
  obtain ⟨hlen, h₂⟩ := List.append_inj h₁ (hr.length_lenText.trans hr'.length_lenText.symm)
  have hlen' : r.text.length = r'.text.length := by
    have hn := congrArg atol hlen
    unfold Rec.lenText at hn
    rw [atol_padLeft_decimal, atol_padLeft_decimal] at hn
    omega
  obtain ⟨htext, hb⟩ := List.append_inj h₂ hlen'
  obtain ⟨hkey, hoff, hdat⟩ := Rec.text_inj htext
  refine ⟨?_, hb⟩
  cases r
  cases r'
  simp only [Rec.mk.injEq]
  exact ⟨ptrText_inj hptr, hkey, hoff, hdat⟩

/-- Records are known by their bytes. -/
theorem recs_inj {rs rs' : List Rec} (h : ∀ r ∈ rs, r.Ok) (h' : ∀ r ∈ rs', r.Ok)
    (heq : rs.flatMap Rec.bytes = rs'.flatMap Rec.bytes) : rs = rs' := by
  have hne : ∀ (r : Rec) b, r.Ok → r.bytes ++ b ≠ [] := by
    intro r b hr hnil
    have hlen := congrArg List.length hnil
    have hpos := r.size_pos
    rw [List.length_append, hr.length_bytes, List.length_nil] at hlen
    omega
  induction rs generalizing rs' with
  | nil =>
    cases rs' with
    | nil => rfl
    | cons r' rs' => exact absurd heq.symm (hne r' _ (h' r' (List.mem_cons_self ..)))
  | cons r rs ih =>
    cases rs' with
    | nil => exact absurd heq (hne r _ (h r (List.mem_cons_self ..)))
    | cons r' rs' =>
      obtain ⟨hr, hrest⟩ := Rec.bytes_append_inj (h r (List.mem_cons_self ..))
        (h' r' (List.mem_cons_self ..)) heq
      rw [hr, ih (fun r hr => h r (List.mem_cons_of_mem _ hr))
        (fun r hr => h' r (List.mem_cons_of_mem _ hr)) hrest]

/-- A row of pointers is known by its bytes. -/
theorem table_inj {vs vs' : List Nat} (h : ∀ v ∈ vs, v ≤ PTR_MAX) (h' : ∀ v ∈ vs', v ≤ PTR_MAX)
    (hlen : vs.length = vs'.length) (heq : vs.flatMap ptrText = vs'.flatMap ptrText) : vs = vs' := by
  induction vs generalizing vs' with
  | nil => exact (List.length_eq_zero_iff.mp hlen.symm).symm
  | cons v vs ih =>
    cases vs' with
    | nil => exact absurd hlen (by simp)
    | cons v' vs' =>
      have hv := length_ptrText (h v (List.mem_cons_self ..))
      have hv' := length_ptrText (h' v' (List.mem_cons_self ..))
      obtain ⟨hptr, hrest⟩ := List.append_inj heq (hv.trans hv'.symm)
      rw [ptrText_inj hptr, ih (fun v hv => h v (List.mem_cons_of_mem _ hv))
        (fun v hv => h' v (List.mem_cons_of_mem _ hv)) (Nat.succ.inj hlen) hrest]

/-- **One file, one index.** -/
theorem Index.bytes_inj {x x' : Index} (hx : x.Ok) (hx' : x'.Ok) (h : x.bytes = x'.bytes) :
    x = x' := by
  unfold Index.bytes at h
  obtain ⟨hfree, h₁⟩ := List.append_inj h ((length_ptrText hx.free).trans (length_ptrText hx'.free).symm)
  have hlen : x.table.length = x'.table.length := hx.len.trans hx'.len.symm
  have htab : (x.table.flatMap ptrText).length = (x'.table.flatMap ptrText).length := by
    rw [length_flatMap_ptrText hx.table, length_flatMap_ptrText hx'.table, hlen]
  obtain ⟨htable, h₂⟩ := List.append_inj h₁ htab
  have hrecs := recs_inj hx.recs hx'.recs (List.cons.inj h₂).2
  cases x
  cases x'
  simp only [Index.mk.injEq]
  exact ⟨ptrText_inj hfree, table_inj hx.table hx'.table hlen htable, hrecs⟩

/-! ## The data file -/

/-- The bytes of a block of data. -/
def blockBytes (d : CString) : List Byte := d.val ++ [NEWLINE]

/-- The size of a block, `datlen` in the index. -/
def blockSize (d : CString) : Nat := d.val.length + 1

/-- The block at an offset of the data file. -/
def blockAt (y : List CString) (o : Nat) : Option CString := entryAt blockSize 0 y o

/-- Replace the block at an offset. -/
def setBlock (y : List CString) (o : Nat) (d : CString) : List CString :=
  setEntry blockSize (fun _ => d) 0 y o

/-- The data file of the blocks. -/
def datBytes (y : List CString) : List Byte := y.flatMap blockBytes

section Blocks

variable {y : List CString} {o : Nat} {d d' : CString}

/-- No block is empty. -/
theorem blockSize_pos (d : CString) : 0 < blockSize d := Nat.succ_pos _

/-- The data and the newline. -/
theorem length_blockBytes (d : CString) : (blockBytes d).length = blockSize d := by
  unfold blockBytes blockSize
  rw [List.length_append, List.length_singleton]

/-- The bytes of the data file. -/
theorem length_datBytes (y : List CString) : (datBytes y).length = extent blockSize y :=
  length_flatMap_extent fun d _ => length_blockBytes d

/-- Reading a block. -/
theorem slice_blockAt (h : blockAt y o = some d) :
    slice (datBytes y) o (blockSize d) = blockBytes d := by
  obtain ⟨pre, post, hb, ho, -⟩ := flatMap_split blockSize_pos h fun d _ => length_blockBytes d
  rw [Nat.zero_add] at ho
  rw [datBytes, hb, ← ho, ← length_blockBytes, slice_middle]

/-- Writing over a block of the same size. -/
theorem overwrite_setBlock (h : blockAt y o = some d) (hd : blockSize d' = blockSize d) :
    overwrite 0 (datBytes y) o (blockBytes d') = datBytes (setBlock y o d') := by
  obtain ⟨pre, post, hb, ho, hset⟩ :=
    flatMap_split blockSize_pos h fun d _ => length_blockBytes d
  rw [Nat.zero_add] at ho
  rw [datBytes, datBytes, setBlock, hset, hb, ← ho, overwrite_middle]
  rw [length_blockBytes, length_blockBytes, hd]

/-- A block that is overwritten, and the others. -/
theorem blockAt_setBlock (h : blockAt y o = some d) (hd : blockSize d' = blockSize d) {o' : Nat} :
    blockAt (setBlock y o d') o' = if o' = o then some d' else blockAt y o' :=
  entryAt_setEntry h hd

/-- The block in its place. -/
theorem setBlock_self (h : blockAt y o = some d) : setBlock y o d = y :=
  setEntry_self blockSize_pos h rfl

/-- The file does not grow. -/
theorem length_setBlock (h : blockAt y o = some d) (hd : blockSize d' = blockSize d) :
    (datBytes (setBlock y o d')).length = (datBytes y).length := by
  rw [length_datBytes, length_datBytes, setBlock, extent_setEntry h hd]

/-- Writing a block at the end. -/
theorem overwrite_block (y : List CString) (d : CString) :
    overwrite 0 (datBytes y) (datBytes y).length (blockBytes d) = datBytes (y ++ [d]) := by
  rw [overwrite_end, datBytes, datBytes, List.flatMap_append, List.flatMap_cons,
    List.flatMap_nil, List.append_nil]

/-- A new block sits where the file ended. -/
theorem blockAt_concat : blockAt (y ++ [d]) o =
    if o = (datBytes y).length then some d else blockAt y o := by
  rw [length_datBytes, blockAt, entryAt_concat blockSize_pos, Nat.zero_add]
  rfl

/-- There is no block at the end. -/
theorem blockAt_length (y : List CString) : blockAt y (datBytes y).length = none := by
  have h := entryAt_end blockSize_pos y 0
  rwa [Nat.zero_add, ← length_datBytes] at h

end Blocks

end LearningNotes.Db
