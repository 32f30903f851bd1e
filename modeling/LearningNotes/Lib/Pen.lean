import LearningNotes.Lib.Bytes
import LearningNotes.Lib.CString

/-!
# A buffer that is filled through a pointer

`*cp++ = c`, `strcpy(cp, s)`, `cp += n`: the idioms with which C code puts a message together. A
`Pen` is the buffer with the pointer into it. The list grows with what is written, so that its
length says how far the writes reach, the zero bytes behind the strings included.

`Wrote o b` says that the bytes `b` stand from `o` up to the pointer, whatever else the buffer
holds; `Tight` says that at most one zero byte is behind the pointer.
-/

namespace LearningNotes

/-- A buffer, and the pointer that writes into it. -/
structure Pen where
  mem : List UInt8
  cp : Nat

variable {p : Pen} {o n : Nat} {b s : List UInt8} {c : UInt8}

namespace Pen

/-- An empty buffer. -/
def blank : Pen := ⟨[], 0⟩

/-- `*cp++ = c` -/
def put (p : Pen) (c : UInt8) : Pen := ⟨overwrite 0 p.mem p.cp [c], p.cp + 1⟩

/-- `strcpy(cp, s)` -/
def strcpy (p : Pen) (s : List UInt8) : Pen :=
  { p with mem := overwrite 0 p.mem p.cp (cstr s ++ [0]) }

/-- `cp += n` -/
def skip (p : Pen) (n : Nat) : Pen := { p with cp := p.cp + n }

/-- `strlen(cp)` -/
def strlen (p : Pen) : Nat := (cstr (p.mem.drop p.cp)).length

/-- The bytes from `o` up to the pointer. -/
structure Wrote (p : Pen) (o : Nat) (b : List UInt8) : Prop where
  cp : p.cp = o + b.length
  le : p.cp ≤ p.mem.length
  eq : slice p.mem o b.length = b

/-- There is at most a zero byte behind the pointer. -/
structure Tight (p : Pen) : Prop where
  le : p.cp ≤ p.mem.length
  ge : p.mem.length ≤ p.cp + 1

@[simp] theorem put_cp : (p.put c).cp = p.cp + 1 := rfl
@[simp] theorem strcpy_cp : (p.strcpy s).cp = p.cp := rfl
@[simp] theorem skip_cp : (p.skip n).cp = p.cp + n := rfl
@[simp] theorem skip_mem : (p.skip n).mem = p.mem := rfl

/-- The buffer is as long as what has been written. -/
theorem length_put_mem : (p.put c).mem.length = max p.mem.length (p.cp + 1) :=
  length_overwrite 0 p.mem [c] p.cp

theorem length_strcpy_mem :
    (p.strcpy s).mem.length = max p.mem.length (p.cp + (cstr s).length + 1) := by
  rw [strcpy, length_overwrite, List.length_append, List.length_singleton, Nat.add_assoc]

/-! ## What has been written -/

/-- Nothing has been written yet. -/
theorem Wrote.start (h : p.cp ≤ p.mem.length) : p.Wrote p.cp [] := ⟨rfl, h, rfl⟩

/-- What has been written. -/
theorem Wrote.bytes (h : p.Wrote o b) : slice p.mem o (p.cp - o) = b := by
  rw [h.cp, Nat.add_sub_cancel_left]
  exact h.eq

/-- A write at the pointer, which moves behind a part `new` of it. -/
theorem Wrote.append {new rest : List UInt8} (h : p.Wrote o b) :
    Wrote ⟨overwrite 0 p.mem p.cp (new ++ rest), p.cp + new.length⟩ o (b ++ new) := by
  have hold : slice (overwrite 0 p.mem p.cp (new ++ rest)) o b.length = b := by
    rw [slice_overwrite_of_disjoint 0 h.le (.inl (Nat.le_of_eq h.cp.symm))]
    exact h.eq
  have hnew : slice (overwrite 0 p.mem p.cp (new ++ rest)) p.cp (new ++ rest).length = new ++ rest :=
    slice_overwrite_self 0 p.mem (new ++ rest) p.cp
  have htake : slice (overwrite 0 p.mem p.cp (new ++ rest)) p.cp new.length = new := by
    have hcut := congrArg (List.take new.length) hnew
    rw [slice, List.take_take, List.take_left, List.length_append,
      Nat.min_eq_left (Nat.le_add_right ..)] at hcut
    exact hcut
  refine ⟨?_, ?_, ?_⟩
  · rw [List.length_append, h.cp, Nat.add_assoc]
  · rw [length_overwrite, List.length_append]
    dsimp only
    omega
  · rw [h.cp] at hold htake ⊢
    rw [slice] at hold htake
    rw [List.length_append, slice, List.take_add, List.drop_drop, hold, htake]

/-- One byte more. -/
theorem Wrote.put (h : p.Wrote o b) (c : UInt8) : (p.put c).Wrote o (b ++ [c]) := by
  have happend : Wrote ⟨overwrite 0 p.mem p.cp ([c] ++ []), p.cp + [c].length⟩ o (b ++ [c]) :=
    h.append
  rwa [List.append_nil] at happend

/-- `strcpy(cp, s)`, and the pointer is moved by `strlen(s)`. -/
theorem Wrote.strcpy (h : p.Wrote o b) (s : List UInt8) :
    ((p.strcpy s).skip (cstr s).length).Wrote o (b ++ cstr s) := h.append

/-- `strlen(cp)` of what has just been copied. -/
theorem strlen_strcpy (h : p.cp ≤ p.mem.length) (s : List UInt8) :
    (p.strcpy s).strlen = (cstr s).length := by
  have hpre : ((p.mem ++ List.replicate (p.cp - p.mem.length) 0).take p.cp).length = p.cp := by
    rw [List.length_take, List.length_append, List.length_replicate]
    omega
  have hdrop : (p.strcpy s).mem.drop p.cp =
      cstr s ++ 0 :: p.mem.drop (p.cp + (cstr s ++ [0]).length) := by
    rw [Pen.strcpy, overwrite, List.append_assoc, List.append_assoc,
      List.drop_left' hpre, List.singleton_append]
  rw [strlen, strcpy_cp, hdrop, cstr_append (zero_not_mem_cstr s)]

/-! ## How far the writes reach -/

/-- An empty buffer. -/
theorem tight_blank : blank.Tight := ⟨Nat.le_refl 0, Nat.zero_le 1⟩

/-- A byte leaves no gap. -/
theorem Tight.put (h : p.Tight) (c : UInt8) : (p.put c).Tight := by
  have := h.le
  have := h.ge
  constructor
  · rw [length_put_mem, put_cp]
    omega
  · rw [length_put_mem, put_cp]
    omega

/-- A byte at the end: nothing is behind the pointer. -/
theorem Tight.length_put (h : p.Tight) (c : UInt8) : (p.put c).mem.length = p.cp + 1 := by
  have := h.ge
  rw [length_put_mem]
  omega

/-- A string leaves no gap. -/
theorem Tight.strcpy (h : p.Tight) (s : List UInt8) :
    ((p.strcpy s).skip (cstr s).length).Tight := by
  have := h.le
  have := h.ge
  constructor
  · rw [skip_mem, length_strcpy_mem, skip_cp, strcpy_cp]
    omega
  · rw [skip_mem, length_strcpy_mem, skip_cp, strcpy_cp]
    omega

end Pen

end LearningNotes
