import LearningNotes.Stream.Fmemopen

/-!
# Bounded files

What a memory stream is for: a `BoundedFile` is a byte sequence with a position that never
gets longer than its capacity. A write overwrites or extends it from the position on, or from
the end on in append mode, and what does not fit is cut off.

`fmemopen_calls` says that a stream keeps its three sizes in order and never touches a byte
outside its buffer, whatever the mode is, and that a stream for reading and writing is a
bounded file. The bytes a write stores behind the data only ever land behind the contents.
-/

namespace LearningNotes.Stream

/-- A file with a position, and never more than `cap` bytes. -/
structure BoundedFile where
  content : List Byte
  pos : Nat
  cap : Nat
  append : Bool
  short : content.length ≤ cap
  inside : pos ≤ content.length

namespace BoundedFile

variable (f : BoundedFile)

/-- The next `n` bytes, fewer at the end. -/
def read (n : Nat) : List Byte × BoundedFile :=
  (slice f.content f.pos n,
    { f with
      pos := f.pos + (slice f.content f.pos n).length
      inside := by
        have := f.inside
        rw [length_slice]
        omega })

/-- Where a write goes. -/
def start : Nat := if f.append then f.content.length else f.pos

theorem start_le : f.start ≤ f.content.length := by
  unfold start
  have := f.inside
  split <;> omega

/-- The part of `data` that fits. -/
def fitting (data : List Byte) : List Byte := data.take (f.cap - f.start)

theorem fitting_le (data : List Byte) : f.start + (f.fitting data).length ≤ f.cap := by
  have h₁ := f.start_le
  have h₂ := f.short
  unfold fitting
  rw [List.length_take]
  omega

/-- Write what fits. -/
def write (data : List Byte) : Nat × BoundedFile :=
  ((f.fitting data).length,
    { f with
      content := overwrite 0 f.content f.start (f.fitting data)
      pos := f.start + (f.fitting data).length
      short := by
        have h₁ := f.fitting_le data
        have h₂ := f.short
        rw [length_overwrite]
        omega
      inside := by
        rw [length_overwrite]
        omega })

/-- The position that a seek asks for. -/
def target (pos : Int) : Whence → Int
  | .seekSet => pos
  | .seekEnd => f.content.length + pos
  | .seekCur => f.pos + pos

/-- Go to a position in the file. -/
def seek (t : Int) : Option BoundedFile :=
  if h : 0 ≤ t ∧ t ≤ f.content.length then some { f with pos := t.toNat, inside := by omega }
  else none

end BoundedFile

/-- What a call does to a bounded file, and what it returns. -/
def Call.spec : Call → BoundedFile → Ret × BoundedFile
  | .read len, f => ({ ret := (f.read len.toNat).1.length, data := (f.read len.toNat).1 },
      (f.read len.toNat).2)
  | .write data, f => ({ ret := (f.write data).1 }, (f.write data).2)
  | .seek pos whence, f =>
    match f.seek (f.target pos whence) with
    | none => ({ ret := -1, errno := some .EINVAL }, f)
    | some f' => ({ ret := f.target pos whence }, f')

/-- What a bounded file returns to the calls. -/
def results : List Call → BoundedFile → List Ret × BoundedFile
  | [], f => ([], f)
  | c :: cs, f => ((c.spec f).1 :: (results cs (c.spec f).2).1, (results cs (c.spec f).2).2)

/-! ## The invariant -/

/-- The three sizes are in order, and `rsize` is the size of the buffer. -/
structure Memstream.Ok (ms : Memstream) : Prop where
  len : ms.buf.length = ms.rsize
  curpos : ms.curpos ≤ ms.vsize
  vsize : ms.vsize ≤ ms.rsize
  lo : 1 ≤ ms.rsize
  hi : ms.rsize ≤ INT_MAX

/-- The flags of a stream for reading and writing. -/
def Update (flags : Nat) : Prop :=
  flags &&& (MS_READ ||| MS_WRITE) = (MS_READ ||| MS_WRITE)

instance (flags : Nat) : Decidable (Update flags) := inferInstanceAs (Decidable (_ = _))

/-- The stream is the bounded file. -/
structure Shows (ms : Memstream) (f : BoundedFile) : Prop where
  content : ms.buf.take ms.vsize = f.content
  pos : ms.curpos = f.pos
  cap : ms.rsize = f.cap
  append : decide (ms.flags &&& MS_APPEND ≠ 0) = f.append

/-- The position that `mstream_seek` is asked for. -/
def Memstream.target (ms : Memstream) (pos : Int) : Whence → Int
  | .seekSet => pos
  | .seekEnd => ms.vsize + pos
  | .seekCur => ms.curpos + pos

/-- The lengths and positions of a call fit an `int`. -/
def Call.Fits (ms : Memstream) : Call → Prop
  | .read len => 0 ≤ len ∧ len ≤ INT_MAX
  | .write data => data.length ≤ INT_MAX
  | .seek pos whence => FitsInt (ms.target pos whence)

/-- Every call of the run fits. -/
def Legal : Memstream → List Call → Prop
  | _, [] => True
  | ms, c :: cs => c.Fits ms ∧ ∀ r ms', c.exec ms = some (r, ms') → Legal ms' cs

variable {ms ms' : Memstream} {f : BoundedFile} {c : Call}

theorem Update.read {flags : Nat} (h : Update flags) : flags &&& MS_READ ≠ 0 := by
  have hr : (flags &&& (MS_READ ||| MS_WRITE)) &&& MS_READ = flags &&& MS_READ :=
    Nat.and_assoc flags 3 1
  rw [← hr, h]
  decide

theorem Update.write {flags : Nat} (h : Update flags) : flags &&& (MS_APPEND ||| MS_WRITE) ≠ 0 := by
  have hw : (flags &&& (MS_READ ||| MS_WRITE)) &&& MS_WRITE = flags &&& MS_WRITE :=
    Nat.and_assoc flags 3 2
  have hw' : (flags &&& (MS_APPEND ||| MS_WRITE)) &&& MS_WRITE = flags &&& MS_WRITE :=
    Nat.and_assoc flags 6 2
  intro h0
  rw [h0, ← hw, h] at hw'
  exact absurd hw' (by decide)

/-! ## Memory -/

theorem load_eq {mem : List Byte} {off n : Nat} (h : off + n ≤ mem.length) :
    load mem off n = some (slice mem off n) := by
  unfold load
  rw [if_pos (by omega), Int.toNat_natCast]

theorem store_eq {mem bytes : List Byte} {off : Nat} (h : off + bytes.length ≤ mem.length) :
    store mem off bytes = some (overwrite 0 mem off bytes) := by
  unfold store
  rw [if_pos (by omega), Int.toNat_natCast]

/-! ## Reading -/

theorem Shows.length (h : Shows ms f) (hok : ms.Ok) : f.content.length = ms.vsize := by
  have := hok.len
  have := hok.vsize
  rw [← h.content, List.length_take]
  omega

/-- The visible part of the buffer is the part in front of `vsize`. -/
theorem slice_take {mem : List Byte} {v o n : Nat} (h : o + n ≤ v) :
    slice (mem.take v) o n = slice mem o n := by
  apply List.ext_getElem?
  intro i
  rw [getElem?_slice, getElem?_slice]
  by_cases hi : i < n
  · rw [if_pos hi, if_pos hi, List.getElem?_take, if_pos (by omega)]
  · rw [if_neg hi, if_neg hi]

/-- What `mstream_read` does when it may read: `m` bytes. -/
theorem mstreamRead_eq (hok : ms.Ok) (hr : ms.flags &&& MS_READ ≠ 0) {n m : Nat}
    (hn : n ≤ INT_MAX) (hm : m = min n (ms.vsize - ms.curpos)) :
    mstreamRead ms n = some
      ({ ret := m, data := slice ms.buf ms.curpos m }, { ms with curpos := ms.curpos + m }) := by
  have hlen := hok.len
  have hv := hok.vsize
  have hc := hok.curpos
  have hhi := hok.hi
  unfold mstreamRead
  simp only [INT_MAX] at hn hhi
  rw [if_neg hr]
  by_cases hend : ms.curpos ≥ ms.vsize
  · have h0 : m = 0 := by omega
    subst h0
    rw [if_pos hend]
    rfl
  · rw [if_neg hend, csize_natCast (by omega), ← hm]
    have hfit : m ≤ INT_MAX := by
      simp only [INT_MAX]
      omega
    dsimp only
    rw [cint_natCast hfit, csize_natCast (by omega), load_eq (by omega),
      ← Int.natCast_add, csize_natCast (by omega)]
    rfl

/-- `mstream_read` in a stream that is in order. -/
theorem exec_read (hok : ms.Ok) {len : Int} (hlen : 0 ≤ len ∧ len ≤ INT_MAX) :
    ∃ r ms', mstreamRead ms len = some (r, ms') ∧ ms'.Ok ∧ ms'.flags = ms.flags ∧
      ms'.rsize = ms.rsize ∧ (Update ms.flags → ∀ f, Shows ms f →
        ((Call.read len).spec f).1 = r ∧ Shows ms' ((Call.read len).spec f).2) := by
  obtain ⟨n, rfl⟩ := Int.eq_ofNat_of_zero_le hlen.1
  have hn : n ≤ INT_MAX := by omega
  by_cases hr : ms.flags &&& MS_READ = 0
  · exact ⟨_, ms, if_pos hr, hok, rfl, rfl, fun hu => absurd hr hu.read⟩
  · have hc := hok.curpos
    have hv := hok.vsize
    have hlen := hok.len
    obtain ⟨m, hm⟩ : ∃ m, m = min n (ms.vsize - ms.curpos) := ⟨_, rfl⟩
    refine ⟨_, _, mstreamRead_eq hok hr hn hm, ?_, rfl, rfl, fun _ f hf => ?_⟩
    · exact ⟨hlen, show ms.curpos + m ≤ ms.vsize by omega, hv, hok.lo, hok.hi⟩
    · -- the file gives the same bytes
      have hcont := hf.length hok
      have hdata : slice f.content f.pos n = slice ms.buf ms.curpos m := by
        rw [← slice_take (show ms.curpos + m ≤ ms.vsize by omega), hf.content, hf.pos]
        unfold slice
        rw [List.take_eq_take_iff, List.length_drop, hcont]
        have := hf.pos
        omega
      have hdlen : (slice f.content f.pos n).length = m := by
        rw [hdata, length_slice_of_le (by omega)]
      refine ⟨?_, hf.content, ?_, hf.cap, hf.append⟩
      · show ({ ret := ((slice f.content f.pos n).length : Nat), data := slice f.content f.pos n } : Ret) = _
        rw [hdlen, hdata]
      · show ms.curpos + m = f.pos + (slice f.content f.pos n).length
        rw [hdlen, hf.pos]

/-! ## Seeking -/

/-- `mstream_seek` in a stream that is in order. -/
theorem exec_seek (hok : ms.Ok) {pos : Int} {whence : Whence} (hfit : FitsInt (ms.target pos whence)) :
    (mstreamSeek ms pos whence).2.Ok ∧ (mstreamSeek ms pos whence).2.flags = ms.flags ∧
      (mstreamSeek ms pos whence).2.rsize = ms.rsize ∧ ∀ f, Shows ms f →
        ((Call.seek pos whence).spec f).1 = (mstreamSeek ms pos whence).1 ∧
        Shows (mstreamSeek ms pos whence).2 ((Call.seek pos whence).spec f).2 := by
  have hc := hok.curpos
  have hv := hok.vsize
  have hhi := hok.hi
  simp only [INT_MAX] at hhi
  -- the conversions do not change the position
  have hoff : ms.off pos whence = ms.target pos whence := by
    cases whence with
    | seekSet => exact cint_of_fits hfit
    | seekEnd => exact (cint_csize _).trans (cint_of_fits hfit)
    | seekCur => exact (cint_csize _).trans (cint_of_fits hfit)
  unfold mstreamSeek
  rw [hoff]
  obtain ⟨t, ht⟩ : ∃ t, t = ms.target pos whence := ⟨_, rfl⟩
  have htarget : ∀ f, Shows ms f → f.target pos whence = t := by
    intro f hf
    have hcont := hf.length hok
    rw [ht]
    cases whence with
    | seekSet => rfl
    | seekEnd => show ((f.content.length : Nat) : Int) + pos = _; rw [hcont]; rfl
    | seekCur => show ((f.pos : Nat) : Int) + pos = _; rw [← hf.pos]; rfl
  rw [← ht] at hfit ⊢
  by_cases hin : 0 ≤ t ∧ t ≤ ms.vsize
  · obtain ⟨n, rfl⟩ := Int.eq_ofNat_of_zero_le hin.1
    have hn : csize n = n := csize_natCast (by omega)
    dsimp only
    rw [hn, if_neg (by omega)]
    refine ⟨⟨hok.len, show n ≤ ms.vsize by omega, hv, hok.lo, hok.hi⟩, rfl, rfl, fun f hf => ?_⟩
    have hcont := hf.length hok
    have hseek : f.seek n = some { f with pos := n, inside := by omega } := dif_pos (by omega)
    unfold Call.spec
    dsimp only
    rw [htarget f hf, hseek]
    exact ⟨rfl, hf.content, rfl, hf.cap, hf.append⟩
  · have hout : t < 0 ∨ csize t > ms.vsize := by
      by_cases hneg : t < 0
      · exact Or.inl hneg
      · obtain ⟨n, rfl⟩ := Int.eq_ofNat_of_zero_le (Int.not_lt.mp hneg)
        obtain ⟨-, hhi⟩ := hfit
        rw [csize_natCast (by omega)]
        omega
    dsimp only
    rw [if_pos hout]
    refine ⟨hok, rfl, rfl, fun f hf => ?_⟩
    have hcont := hf.length hok
    have hseek : f.seek t = none := dif_neg (by rwa [hcont])
    unfold Call.spec
    dsimp only
    rw [htarget f hf, hseek]
    exact ⟨rfl, hf⟩

/-! ## Writing -/

/-- Bytes behind the first `v` do not show in them. -/
theorem take_overwrite_of_le {mem new : List Byte} {o v : Nat} (ho : o ≤ mem.length) (hv : v ≤ o) :
    (overwrite 0 mem o new).take v = mem.take v := by
  apply List.ext_getElem?
  intro i
  rw [List.getElem?_take, List.getElem?_take, getElem?_overwrite 0 ho]
  by_cases hi : i < v
  · rw [if_pos hi, if_pos hi, if_pos (by omega)]
  · rw [if_neg hi, if_neg hi]

/-- Writing in the buffer writes in the part that is visible afterwards. -/
theorem take_overwrite {mem new : List Byte} {o v v' : Nat} (ho : o ≤ v) (hv : v ≤ mem.length)
    (hv' : v' = if o + new.length > v then o + new.length else v) :
    (overwrite 0 mem o new).take v' = overwrite 0 (mem.take v) o new := by
  have hlen : (mem.take v).length = v := by
    rw [List.length_take]
    omega
  apply List.ext_getElem?
  intro i
  rw [List.getElem?_take, getElem?_overwrite 0 (by omega), getElem?_overwrite 0 (by omega),
    List.getElem?_take]
  split at hv'
  · by_cases h₁ : i < o
    · rw [if_pos h₁, if_pos h₁, if_pos (by omega), if_pos (by omega)]
    · rw [if_neg h₁, if_neg h₁]
      by_cases h₂ : i < o + new.length
      · rw [if_pos h₂, if_pos h₂, if_pos (by omega)]
      · rw [if_neg h₂, if_neg h₂, if_neg (by omega), if_neg (by omega)]
  · by_cases h₁ : i < o
    · rw [if_pos h₁, if_pos h₁, if_pos (by omega), if_pos (by omega)]
    · rw [if_neg h₁, if_neg h₁]
      by_cases h₂ : i < o + new.length
      · rw [if_pos h₂, if_pos h₂, if_pos (by omega)]
      · rw [if_neg h₂, if_neg h₂, hv']

/-- Where `mstream_write` puts its data. -/
def Memstream.start (ms : Memstream) : Nat :=
  if ms.flags &&& MS_APPEND ≠ 0 then ms.vsize else ms.curpos

theorem Memstream.Ok.start_le (hok : ms.Ok) : ms.start ≤ ms.vsize := by
  have := hok.curpos
  unfold Memstream.start
  split <;> omega

/-- One more byte in the buffer. -/
theorem store_one {mem : List Byte} {o n : Nat} (hlen : mem.length = n) (ho : o < n) :
    store mem o [0] = some (overwrite 0 mem o [0]) ∧ (overwrite 0 mem o [0]).length = n := by
  have hle : o + [(0 : Byte)].length ≤ mem.length := by
    rw [List.length_singleton]
    omega
  exact ⟨store_eq hle, (length_overwrite_of_le 0 hle).trans hlen⟩

/-- The byte behind new data does not show. -/
theorem endUpdate_eq {buf : List Byte} {cur v : Nat} (hlen : buf.length = ms.rsize) :
    ∃ buf', endUpdate ms buf cur v = some buf' ∧ buf'.length = ms.rsize ∧
      buf'.take v = buf.take v := by
  unfold endUpdate
  by_cases hc : cur > ms.vsize ∧
      ms.flags &&& (MS_READ ||| MS_WRITE) = (MS_READ ||| MS_WRITE) ∧ v < ms.rsize
  · rw [if_pos hc]
    obtain ⟨hst, hl⟩ := store_one hlen hc.2.2
    exact ⟨_, hst, hl, take_overwrite_of_le (by omega) (Nat.le_refl v)⟩
  · rw [if_neg hc]
    exact ⟨buf, rfl, hlen, rfl⟩

/-- In a stream that can be read there is no other byte. -/
theorem endWrite_eq {buf : List Byte} {cur : Nat} (hlen : buf.length = ms.rsize) (hlo : 1 ≤ ms.rsize) :
    ∃ buf', endWrite ms buf cur = some buf' ∧ buf'.length = ms.rsize ∧
      (ms.flags &&& MS_READ ≠ 0 → buf' = buf) := by
  unfold endWrite
  by_cases hc : ms.flags &&& (MS_WRITE ||| MS_APPEND) ≠ 0 ∧ ms.flags &&& MS_READ = 0
  · rw [if_pos hc]
    by_cases hlt : cur < ms.rsize
    · rw [if_pos hlt]
      obtain ⟨hst, hl⟩ := store_one hlen hlt
      exact ⟨_, hst, hl, fun h => absurd hc.2 h⟩
    · obtain ⟨hst, hl⟩ := @store_one buf (csize ((ms.rsize : Int) - 1)) ms.rsize hlen (by unfold csize; omega)
      rw [if_neg hlt]
      exact ⟨_, hst, hl, fun h => absurd hc.2 h⟩
  · rw [if_neg hc]
    exact ⟨buf, rfl, hlen, fun _ => rfl⟩

/-- What `mstream_write` does when it may write: `n` bytes at `s`. -/
theorem mstreamWrite_eq (hok : ms.Ok) (hw : ms.flags &&& (MS_APPEND ||| MS_WRITE) ≠ 0)
    {data : List Byte} (hdata : data.length ≤ INT_MAX) {s n v : Nat} (hs : s = ms.start)
    (hn : n = min data.length (ms.rsize - s)) (hv : v = if s + n > ms.vsize then s + n else ms.vsize) :
    ∃ buf, mstreamWrite ms data = some
        ({ ret := n }, { ms with buf := buf, vsize := v, curpos := s + n }) ∧
      buf.length = ms.rsize ∧
      (ms.flags &&& MS_READ ≠ 0 → buf.take v = overwrite 0 (ms.buf.take ms.vsize) s (data.take n)) := by
  have hlen := hok.len
  have hvs := hok.vsize
  have hhi := hok.hi
  have hsv := hok.start_le
  simp only [INT_MAX] at hdata hhi
  have hsmax : s ≤ INT_MAX := by
    simp only [INT_MAX]
    omega
  have hnmax : n ≤ INT_MAX := by
    simp only [INT_MAX]
    omega
  -- no conversion changes a value, as all are below `INT_MAX`
  have hdsize : csize data.length = data.length := csize_natCast (by omega)
  have hroom : csize ((ms.rsize : Int) - (s : Nat)) = ms.rsize - s := by
    rw [← Int.natCast_sub (by omega)]
    exact csize_natCast (by omega)
  have hcsize : csize (n : Nat) = n := csize_natCast (by omega)
  have hcur : csize ((s : Int) + (n : Nat)) = s + n := by
    rw [← Int.natCast_add]
    exact csize_natCast (by omega)
  have hload : load data 0 n = some (data.take n) := by
    have := @load_eq data 0 n (by omega)
    rwa [slice, List.drop_zero] at this
  have hdlen : (data.take n).length = n := by
    rw [List.length_take]
    omega
  have hle : s + (data.take n).length ≤ ms.buf.length := by omega
  have hblen : (overwrite 0 ms.buf s (data.take n)).length = ms.rsize :=
    (length_overwrite_of_le 0 hle).trans hlen
  -- the byte behind the end may be set to 0, but nothing in front of it
  obtain ⟨buf₁, hb₁, hl₁, hs₁⟩ := @endUpdate_eq ms _ (s + n) v hblen
  obtain ⟨buf₂, hb₂, hl₂, hs₂⟩ := @endWrite_eq ms buf₁ (s + n) hl₁ hok.lo
  refine ⟨buf₂, ?_, hl₂, fun hr => ?_⟩
  · unfold mstreamWrite
    rw [if_neg hw]
    dsimp only
    rw [show (if ms.flags &&& MS_APPEND ≠ 0 then ms.vsize else ms.curpos) = s from hs.symm,
      cint_natCast hsmax, hdsize, hroom, ← hn, cint_natCast hnmax, hcsize, hload,
      Option.bind_eq_bind, Option.bind_some, store_eq hle, Option.bind_some, hcur, ← hv,
      hb₁, Option.bind_some, hb₂]
    rfl
  · rw [hs₂ hr, hs₁]
    exact take_overwrite (by omega) (by omega) (hdlen.symm ▸ hv)

/-- `mstream_write` in a stream that is in order. -/
theorem exec_write (hok : ms.Ok) {data : List Byte} (hdata : data.length ≤ INT_MAX) :
    ∃ r ms', mstreamWrite ms data = some (r, ms') ∧ ms'.Ok ∧ ms'.flags = ms.flags ∧
      ms'.rsize = ms.rsize ∧ (Update ms.flags → ∀ f, Shows ms f →
        ((Call.write data).spec f).1 = r ∧ Shows ms' ((Call.write data).spec f).2) := by
  by_cases hw : ms.flags &&& (MS_APPEND ||| MS_WRITE) = 0
  · exact ⟨_, ms, if_pos hw, hok, rfl, rfl, fun hu => absurd hw hu.write⟩
  · obtain ⟨s, hs⟩ : ∃ s, s = ms.start := ⟨_, rfl⟩
    obtain ⟨n, hn⟩ : ∃ n, n = min data.length (ms.rsize - s) := ⟨_, rfl⟩
    obtain ⟨v, hv⟩ : ∃ v, v = if s + n > ms.vsize then s + n else ms.vsize := ⟨_, rfl⟩
    obtain ⟨buf, hrun, hlen, hshow⟩ := mstreamWrite_eq hok hw hdata hs hn hv
    have hsv := hok.start_le
    have hvs := hok.vsize
    refine ⟨_, _, hrun, ?_, rfl, rfl, fun hu f hf => ?_⟩
    · refine ⟨hlen, ?_, ?_, hok.lo, hok.hi⟩
      · show s + n ≤ v
        split at hv <;> omega
      · show v ≤ ms.rsize
        split at hv <;> omega
    · have hcont := hf.length hok
      have hstart : f.start = s := by
        rw [hs]
        unfold BoundedFile.start Memstream.start
        rw [← hf.append, hcont, ← hf.pos]
        simp only [decide_eq_true_eq]
      have hfit : f.fitting data = data.take n := by
        unfold BoundedFile.fitting
        rw [hstart, ← hf.cap, List.take_eq_take_iff, hn]
        omega
      have hdlen : (data.take n).length = n := by
        rw [List.length_take]
        omega
      refine ⟨?_, ?_, ?_, hf.cap, hf.append⟩
      · show ({ ret := ((f.fitting data).length : Nat) } : Ret) = _
        rw [hfit, hdlen]
      · show buf.take v = overwrite 0 f.content f.start (f.fitting data)
        rw [hshow hu.read, hf.content, hstart, hfit]
      · show s + n = f.start + (f.fitting data).length
        rw [hstart, hfit, hdlen]

/-! ## Runs -/

/-- **One call** keeps the sizes in order, and a stream for reading and writing does what the
file does. -/
theorem Call.exec_ok (hok : ms.Ok) (hc : c.Fits ms) :
    ∃ r ms', c.exec ms = some (r, ms') ∧ ms'.Ok ∧ ms'.flags = ms.flags ∧ ms'.rsize = ms.rsize ∧
      (Update ms.flags → ∀ f, Shows ms f → (c.spec f).1 = r ∧ Shows ms' (c.spec f).2) := by
  cases c with
  | read len => exact exec_read hok hc
  | write data => exact exec_write hok hc
  | seek pos whence =>
    obtain ⟨hok', hflags, hrsize, hshow⟩ := exec_seek hok hc
    exact ⟨_, _, rfl, hok', hflags, hrsize, fun _ => hshow⟩

/-- Any number of calls do. -/
theorem run_ok (cs : List Call) : ∀ {ms : Memstream}, ms.Ok → Legal ms cs →
    ∃ rs ms', run cs ms = some (rs, ms') ∧ ms'.Ok ∧ ms'.rsize = ms.rsize ∧
      (Update ms.flags → ∀ f, Shows ms f → (results cs f).1 = rs ∧ Shows ms' (results cs f).2) := by
  induction cs with
  | nil => exact fun {ms} hok _ => ⟨[], ms, rfl, hok, rfl, fun _ f hf => ⟨rfl, hf⟩⟩
  | cons c cs ih =>
    intro ms hok ⟨hc, hrest⟩
    obtain ⟨r, ms₁, hrun, hok₁, hflags, hrsize, hshow⟩ := Call.exec_ok hok hc
    obtain ⟨rs, ms₂, hrun₂, hok₂, hrsize₂, hshow₂⟩ := ih hok₁ (hrest r ms₁ hrun)
    refine ⟨r :: rs, ms₂, ?_, hok₂, hrsize₂.trans hrsize, fun hu f hf => ?_⟩
    · show (c.exec ms).bind _ = _
      rw [hrun, Option.bind_some]
      show (run cs ms₁).bind _ = _
      rw [hrun₂, Option.bind_some]
      rfl
    · obtain ⟨hr, hf₁⟩ := hshow hu f hf
      obtain ⟨hrs, hf₂⟩ := hshow₂ (hflags.symm ▸ hu) _ hf₁
      refine ⟨?_, hf₂⟩
      show (c.spec f).1 :: (results cs (c.spec f).2).1 = r :: rs
      rw [hr, hrs]

/-! ## Opened streams -/

theorem findEnd_eq (off : Nat) (mem : List Byte) :
    findEnd off mem = off + (mem.takeWhile (· ≠ 0)).length := by
  induction mem generalizing off with
  | nil => rfl
  | cons c mem ih =>
    rw [findEnd, List.takeWhile_cons]
    by_cases hc : c = 0
    · rw [if_pos hc, if_neg (by simp [hc])]
      rfl
    · rw [if_neg hc, ih, if_pos (by simp [hc]), List.length_cons]
      omega

theorem take_findEnd (mem : List Byte) : mem.take (findEnd 0 mem) = mem.takeWhile (· ≠ 0) := by
  rw [findEnd_eq, Nat.zero_add]
  exact (List.prefix_iff_eq_take.mp (List.takeWhile_prefix _)).symm

theorem findEnd_le (mem : List Byte) : findEnd 0 mem ≤ mem.length := by
  rw [findEnd_eq, Nat.zero_add]
  exact (List.takeWhile_prefix _).length_le

/-- The contents of a stream that has just been opened on the memory `mem`. For appending, the
caller's buffer ends at its first zero byte. -/
def opened (flags : Nat) (buf : Option (List Byte)) (mem : List Byte) : List Byte :=
  if flags &&& MS_APPEND ≠ 0 then (buf.getD []).takeWhile (· ≠ 0)
  else if flags &&& MS_TRUNCATE ≠ 0 then []
  else mem

/-- The mark of an own buffer is none of the other flags. -/
theorem mybuf_and {flags bits : Nat} (h : MS_MYBUF &&& bits = 0) :
    (flags ||| MS_MYBUF) &&& bits = flags &&& bits := by
  rw [Nat.and_or_distrib_right, h, Nat.or_zero]

/-- What `fmemopen` returns when it succeeds. -/
theorem fmemopen_ok {sys : Sys} {buf : Option (List Byte)} {size : Nat} {type : CString}
    (hbuf : ∀ mem, buf = some mem → mem.length = size)
    (hmalloc : ∀ mem, sys.buf = some mem → mem.length = size)
    (hlo : 1 ≤ size) (hhi : size ≤ INT_MAX) (h : fmemopen sys buf size type = .ok ms) :
    ms.Ok ∧ ms.rsize = size ∧
      (∀ bits, MS_MYBUF &&& bits = 0 → ms.flags &&& bits = typeToFlags type &&& bits) ∧
      ms.buf.take ms.vsize = opened (typeToFlags type) buf ms.buf ∧
      ms.curpos = if typeToFlags type &&& MS_APPEND ≠ 0 then ms.vsize else 0 := by
  unfold fmemopen at h
  rw [if_neg (by omega)] at h
  split at h
  · exact absurd h (by simp)
  dsimp only at h
  split at h
  · exact absurd h (by simp)
  cases buf with
  | none =>
    dsimp only at h
    split at h
    · exact absurd h (by simp)
    cases hsys : sys.buf with
    | none =>
      rw [hsys] at h
      exact absurd h (by simp)
    | some mem =>
      rw [hsys] at h
      dsimp only at h
      split at h
      swap
      · exact absurd h (by simp)
      cases h
      have hlen := hmalloc mem hsys
      have happ := @mybuf_and (typeToFlags type) MS_APPEND (by decide)
      have htrunc := @mybuf_and (typeToFlags type) MS_TRUNCATE (by decide)
      unfold opened
      simp only [happ, htrunc, Option.getD_none, List.takeWhile_nil]
      -- by the three ways to start: at the end, empty, or with all of the buffer
      by_cases ha : typeToFlags type &&& MS_APPEND ≠ 0
      · simp only [if_pos ha]
        exact ⟨⟨hlen, Nat.le_refl 0, Nat.zero_le _, hlo, hhi⟩, trivial, fun _ hb => mybuf_and hb,
          List.take_zero, trivial⟩
      · simp only [if_neg ha]
        by_cases ht : typeToFlags type &&& MS_TRUNCATE ≠ 0
        · simp only [if_pos ht]
          exact ⟨⟨hlen, Nat.le_refl 0, Nat.zero_le _, hlo, hhi⟩, trivial, fun _ hb => mybuf_and hb,
            List.take_zero, trivial⟩
        · simp only [if_neg ht]
          exact ⟨⟨hlen, Nat.zero_le _, Nat.le_refl _, hlo, hhi⟩, trivial, fun _ hb => mybuf_and hb,
            List.take_of_length_le (Nat.le_of_eq hlen), trivial⟩
  | some mem =>
    dsimp only at h
    split at h
    swap
    · exact absurd h (by simp)
    cases h
    have hlen := hbuf mem rfl
    unfold opened
    dsimp only
    rw [Option.getD_some]
    by_cases ha : typeToFlags type &&& MS_APPEND ≠ 0
    · simp only [if_pos ha]
      exact ⟨⟨hlen, Nat.le_refl _, hlen ▸ findEnd_le mem, hlo, hhi⟩, trivial, fun _ _ => trivial,
        take_findEnd mem, trivial⟩
    · simp only [if_neg ha]
      by_cases ht : typeToFlags type &&& MS_TRUNCATE ≠ 0
      · simp only [if_pos ht]
        exact ⟨⟨hlen, Nat.le_refl 0, Nat.zero_le _, hlo, hhi⟩, trivial, fun _ _ => trivial,
          List.take_zero, trivial⟩
      · simp only [if_neg ht]
        exact ⟨⟨hlen, Nat.zero_le _, Nat.le_refl _, hlo, hhi⟩, trivial, fun _ _ => trivial,
          List.take_of_length_le (Nat.le_of_eq hlen), trivial⟩

/-- **A memory stream is a bounded file.** Whatever calls are made on a stream that `fmemopen`
has opened, no byte outside the buffer is touched and the sizes are in order; and if the
stream is for reading and writing, the calls return what a bounded file returns. -/
theorem fmemopen_calls {sys : Sys} {buf : Option (List Byte)} {size : Nat} {type : CString}
    (hlo : 1 ≤ size) (hhi : size ≤ INT_MAX) (hbuf : ∀ mem, buf = some mem → mem.length = size)
    (hmalloc : ∀ mem, sys.buf = some mem → mem.length = size)
    (hopen : fmemopen sys buf size type = .ok ms) {cs : List Call} (hcs : Legal ms cs) :
    ∃ rs ms', run cs ms = some (rs, ms') ∧ ms'.Ok ∧ ms'.rsize = size ∧
      (Update (typeToFlags type) → ∃ f : BoundedFile,
        (f.content = opened (typeToFlags type) buf ms.buf ∧ f.cap = size ∧
          f.append = decide (typeToFlags type &&& MS_APPEND ≠ 0) ∧
          f.pos = if f.append then f.content.length else 0) ∧
        rs = (results cs f).1 ∧ Shows ms' (results cs f).2) := by
  obtain ⟨hok, hrsize, hflags, hcont, hpos⟩ := fmemopen_ok hbuf hmalloc hlo hhi hopen
  obtain ⟨rs, ms', hrun, hok', hrsize', hshow⟩ := run_ok cs hok hcs
  refine ⟨rs, ms', hrun, hok', hrsize'.trans hrsize, fun hu => ?_⟩
  have happ := hflags MS_APPEND (by decide)
  have hu' : Update ms.flags := (hflags _ (by decide)).trans hu
  have hlen : (ms.buf.take ms.vsize).length = ms.vsize := by
    have := hok.len
    have := hok.vsize
    rw [List.length_take]
    omega
  -- the file that the stream shows at first
  obtain ⟨f, hf⟩ : ∃ f, Shows ms f :=
    ⟨⟨ms.buf.take ms.vsize, ms.curpos, ms.rsize, decide (ms.flags &&& MS_APPEND ≠ 0),
      hlen.symm ▸ hok.vsize, hlen.symm ▸ hok.curpos⟩, rfl, rfl, rfl, rfl⟩
  obtain ⟨hrs, hshow'⟩ := hshow hu' f hf
  refine ⟨f, ⟨hf.content.symm.trans hcont, hf.cap.symm.trans hrsize, ?_, ?_⟩, hrs.symm, hshow'⟩
  · rw [← hf.append, happ]
  · rw [← hf.append, ← hf.pos, hf.length hok, happ, hpos]
    simp only [decide_eq_true_eq]

/-- The same for two bytes written over the front of a buffer of four, and read back. -/
theorem fmemopen_calls_four :
    let type : CString := ⟨[114, 43], by decide⟩
    let cs : List Call := [.write [120, 121], .seek 0 .seekSet, .read 3]
    ∃ ms, fmemopen ⟨true, none, true⟩ (some [97, 98, 99, 0]) 4 type = .ok ms ∧
      ∃ rs ms', run cs ms = some (rs, ms') ∧ ms'.Ok ∧ ms'.rsize = 4 ∧
      (Update (typeToFlags type) → ∃ f : BoundedFile,
        (f.content = opened (typeToFlags type) (some [97, 98, 99, 0]) ms.buf ∧ f.cap = 4 ∧
          f.append = decide (typeToFlags type &&& MS_APPEND ≠ 0) ∧
          f.pos = if f.append then f.content.length else 0) ∧
        rs = (results cs f).1 ∧ Shows ms' (results cs f).2) := by
  intro type cs
  obtain ⟨ms, hms⟩ : ∃ ms, fmemopen ⟨true, none, true⟩ (some [97, 98, 99, 0]) 4 type = .ok ms :=
    ⟨_, rfl⟩
  refine ⟨ms, hms, fmemopen_calls (by decide) (by decide) ?_ ?_ hms ?_⟩
  · intro mem hmem
    cases hmem
    rfl
  · intro mem hmem
    exact absurd hmem (by simp)
  · have h₁ : [(120 : Byte), 121].length ≤ INT_MAX := by decide
    have h₂ : FitsInt 0 := by decide
    have h₃ : (0 : Int) ≤ 3 ∧ (3 : Int) ≤ INT_MAX := by decide
    exact ⟨h₁, fun _ _ _ => ⟨h₂, fun _ _ _ => ⟨h₃, fun _ _ _ => trivial⟩⟩⟩

end LearningNotes.Stream
