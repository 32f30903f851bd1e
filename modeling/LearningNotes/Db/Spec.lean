import LearningNotes.Db.Source

/-!
# What the database is for

The abstract database: a finite map from keys to data, and what each call does to it
and returns (`Call.spec`). This is the purpose of `db.c` in its own words, not a
translation; the theorems about runs compare the code with it.

`rewind`, `nextrec` and `open` are not part of it. They leave the map alone, and
what `nextrec` returns depends on the order of the records in the index file.
-/

namespace LearningNotes.Db

/-- The abstract database. -/
abbrev Map := List Byte → Option (List Byte)

/-- The empty database. -/
def Map.empty : Map := fun _ => none

/-- Change the map at one key. -/
def Map.set (m : Map) (key : List Byte) (v : Option (List Byte)) : Map :=
  fun k => if k = key then v else m k

@[simp] theorem Map.set_self (m : Map) (key : List Byte) (v : Option (List Byte)) :
    m.set key v key = v := if_pos rfl

theorem Map.set_ne (m : Map) {key k : List Byte} (v : Option (List Byte)) (h : k ≠ key) :
    m.set key v k = m k := if_neg h

/-- A legal third argument of `db_store`. -/
def LegalFlag (flag : Int) : Prop := flag = DB_INSERT ∨ flag = DB_REPLACE ∨ flag = DB_STORE

instance (flag : Int) : Decidable (LegalFlag flag) := inferInstanceAs (Decidable (_ ∨ _ ∨ _))

/-- What a store returns: `-1` for a bad flag or a replace of nothing, `1` for an
insert of a key that exists, `0` if the pair is stored. -/
def storeRc (old : Option (List Byte)) (flag : Int) : Int :=
  if ¬ LegalFlag flag then -1
  else match old with
    | none => if flag = DB_REPLACE then -1 else 0
    | some _ => if flag = DB_INSERT then 1 else 0

/-- The effect of a call on the map, and its result. -/
def Call.spec : Call → Map → Map × Ret
  | .fetch key, m => (m, .data (m key.val))
  | .store key data flag, m =>
    (if storeRc (m key.val) flag = 0 then m.set key.val (some data.val) else m,
      .rc (storeRc (m key.val) flag))
  | .delete key, m => (m.set key.val none, .rc (if m key.val = none then -1 else 0))
  | _, m => (m, .unit)

/-- The key a call works on. -/
def Call.key? : Call → Option (List Byte)
  | .fetch key => some key.val
  | .store key _ _ => some key.val
  | .delete key => some key.val
  | _ => none

/-- The call does not write to the files. -/
def Call.Reads : Call → Prop
  | .fetch _ | .rewind | .nextrec => True
  | _ => False

/-- A call changes the map at its own key only. -/
theorem Call.spec_ne (c : Call) (m : Map) {k : List Byte} (h : c.key? ≠ some k) :
    (c.spec m).1 k = m k := by
  cases c with
  | store key data flag =>
    show (if storeRc (m key.val) flag = 0 then m.set key.val (some data.val) else m) k = m k
    by_cases hrc : storeRc (m key.val) flag = 0
    · rw [if_pos hrc]
      exact m.set_ne _ fun hk => h (congrArg some hk.symm)
    · rw [if_neg hrc]
  | delete key => exact m.set_ne _ fun hk => h (congrArg some hk.symm)
  | _ => rfl

/-- The call is a `db_store` of this pair. -/
def Call.Puts (c : Call) (k d : List Byte) : Prop :=
  ∃ key data : CString, ∃ flag, c = .store key data flag ∧ key.val = k ∧ data.val = d

/-- The operation writes a pointer to the index file. -/
def Op.SetsPtr (o : Op) : Prop := ∃ off v, o = .write .idxfd off (padLeft PTR_SZ (decimal v))

/-- The operation writes this data, with its newline, to the data file. -/
def Op.PutsData (o : Op) (d : List Byte) : Prop := ∃ off, o = .write .datfd off (d ++ [NEWLINE])

end LearningNotes.Db
