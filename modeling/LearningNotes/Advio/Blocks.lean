import LearningNotes.Advio.Rot13c2
import LearningNotes.Lib.Slots

/-!
# Every block is translated and written once

A block of the file is read into one buffer and stays there until it has been written. So the
blocks that have been translated, with those that are being read, are the blocks whose read has been
asked for; and so are those that have been written, with those that are in some buffer. When the
program leaves its loop no buffer is in use and all blocks have been asked for.

In which order the kernel completes the requests is of no matter: a request only concerns its own
buffer and its own block of the output (`BufInv`).
-/

namespace LearningNotes.Advio

variable {input : List Byte} {s s' : State} {b b' : Buf} {i n o : Nat} {bufs : List Buf}
  {out out' : List Byte}

/-! ## The translation -/

/-- The table of the source is the rotation. -/
theorem translate_eq (c : Byte) : translate c = rot13 c := by
  have hall : ∀ n : Fin 256, translate (UInt8.ofNat n) = rot13 (UInt8.ofNat n) := by decide +kernel
  have hc := hall ⟨c.toNat, c.toNat_lt⟩
  rwa [UInt8.ofNat_toNat] at hc

/-! ## What the buffers are for -/

/-- The block that is being read. -/
def Buf.reading (b : Buf) : Option Nat :=
  if b.op = .READ_PENDING then some b.aio_offset else none

/-- The block that is in the buffer. -/
def Buf.inflight (b : Buf) : Option Nat :=
  if b.op = .UNUSED then none else some b.aio_offset

/-- The block at `o`, and what becomes of it. -/
def chunk (input : List Byte) (o : Nat) : List Byte := slice input o BSZ

/-- The last block may be shorter. -/
theorem length_chunk (input : List Byte) (o : Nat) :
    (chunk input o).length = min BSZ (input.length - o) :=
  length_slice input o BSZ

/-- A byte of a block is one of the file. -/
theorem getElem?_chunk (input : List Byte) {o k : Nat} (hk : k < BSZ) :
    ((chunk input o).map rot13)[k]? = (input[o + k]?).map rot13 := by
  rw [List.getElem?_map, chunk, getElem?_slice, if_pos hk]

/-- The first `n` bytes of the block at `o` are in the output, translated. -/
def Written (input out : List Byte) (o n : Nat) : Prop :=
  ∀ j, o ≤ j → j < o + n → j < input.length → out[j]? = (input[j]?).map rot13

/-- What is known of a buffer. -/
structure BufInv (input out : List Byte) (b : Buf) : Prop where
  len : b.data.length = BSZ
  inside : b.op ≠ .UNUSED → b.aio_offset < input.length
  last : b.op = .READ_PENDING → b.last = false → b.aio_offset + BSZ ≤ input.length
  nbytes : b.op = .READ_PENDING → b.aio_nbytes = BSZ
  read : ∀ n, b.op = .READ_PENDING → b.status = .done n →
    n = (chunk input b.aio_offset).length ∧ b.data.take n = chunk input b.aio_offset
  data : b.op = .WRITE_PENDING → b.aio_nbytes = (chunk input b.aio_offset).length ∧
    b.data.take b.aio_nbytes = (chunk input b.aio_offset).map rot13
  write : ∀ n, b.op = .WRITE_PENDING → b.status = .done n → Written input out b.aio_offset n

/-- Every block that has been asked for is in one place, and what has been written is in the output.
-/
structure Inv (input : List Byte) (s : State) : Prop where
  reads : ∃ q, s.reads = (List.range q).map (· * BSZ) ∧ s.off = q * BSZ
  inside : ∀ o ∈ s.reads, o < input.length
  numop : s.numop = busy s.bufs
  translated : (s.translated ++ s.bufs.filterMap Buf.reading).Perm s.reads
  written : (s.written ++ s.bufs.filterMap Buf.inflight).Perm s.reads
  bufs : ∀ b ∈ s.bufs, BufInv input s.out b
  out : s.out.length ≤ input.length
  blocks : ∀ o ∈ s.written, Written input s.out o BSZ
  short : s.pc ≠ .failed .shortRead
  finished : s.pc = .finished → s.numop = 0 ∧ input.length ≤ s.off

/-- The buffers in use are those with a block. -/
theorem busy_eq (bufs : List Buf) : busy bufs = (bufs.filterMap Buf.inflight).length := by
  induction bufs with
  | nil => rfl
  | cons b bufs ih =>
    by_cases hb : b.op = .UNUSED
    · simpa [busy, Buf.inflight, hb] using ih
    · simpa [busy, Buf.inflight, hb] using ih

/-! ## The output -/

/-- The output is never longer than the input. -/
theorem length_pwrite (out : List Byte) (o : Nat) (data : List Byte)
    (h : out.length ≤ input.length) (hd : o + data.length ≤ input.length) :
    (pwrite out o data).length ≤ input.length := by
  unfold pwrite
  split
  · exact h
  · rw [length_overwrite]
    omega

/-- What a write puts into the output is right, and nothing is spoilt. -/
theorem getElem?_pwrite {m j : Nat} (hm : m ≤ (chunk input o).length) (hj : j < input.length)
    (h : (o ≤ j ∧ j < o + m) ∨ out[j]? = (input[j]?).map rot13) :
    (pwrite out o (((chunk input o).map rot13).take m))[j]? = (input[j]?).map rot13 := by
  have hlen := length_chunk input o
  by_cases hin : o ≤ j ∧ j < o + m
  · have hne : ((chunk input o).map rot13).take m ≠ [] := by
      rw [ne_eq, List.take_eq_nil_iff, List.map_eq_nil_iff, ← List.length_eq_zero_iff]
      omega
    rw [pwrite, if_neg hne, getElem?_overwrite_hole, if_neg (by omega), if_pos, List.getElem?_take,
      if_pos (by omega), getElem?_chunk input (by omega), Nat.add_sub_cancel' hin.1]
    rw [List.length_take, List.length_map]
    omega
  · have hold := h.resolve_left hin
    have hlt : j < out.length := by
      by_contra hge
      rw [List.getElem?_eq_none (by omega), List.getElem?_eq_getElem hj] at hold
      cases hold
    unfold pwrite
    split
    · exact hold
    · rw [getElem?_overwrite_hole]
      split
      · exact hold
      · rw [if_neg, hold]
        rw [List.length_take, List.length_map]
        omega

/-- What has been written stays when another block is written. -/
theorem Written.pwrite {o' m n : Nat} (h : Written input out o n)
    (hm : m ≤ (chunk input o').length) :
    Written input (pwrite out o' (((chunk input o').map rot13).take m)) o n :=
  fun j h₁ h₂ hj => getElem?_pwrite hm hj (.inr (h j h₁ h₂ hj))

theorem BufInv.pwrite {o' m : Nat} (h : BufInv input out b) (hm : m ≤ (chunk input o').length) :
    BufInv input (pwrite out o' (((chunk input o').map rot13).take m)) b :=
  { h with write := fun n hop hst => (h.write n hop hst).pwrite hm }

/-! ## The steps -/

/-- A step that leaves the buffers and the output alone. -/
theorem Inv.goto {pc : Pc} (h : Inv input s) (hs : pc ≠ .failed .shortRead)
    (hf : pc = .finished → s.numop = 0 ∧ input.length ≤ s.off) : Inv input { s with pc := pc } :=
  { h with short := hs, finished := hf }

theorem nextBuf_ne (i : Nat) (f : Failure) : nextBuf i ≠ .failed f := by
  unfold nextBuf
  split <;> simp

theorem nextBuf_ne_finished (i : Nat) : nextBuf i ≠ .finished := by
  unfold nextBuf
  split <;> simp

/-- To go on with the next buffer changes no buffer. -/
theorem Inv.next (h : Inv input s) (i : Nat) : Inv input { s with pc := nextBuf i } :=
  h.goto (nextBuf_ne i _) fun he => absurd he (nextBuf_ne_finished i)

/-- The number of buffers in use, when one is set. -/
theorem busy_set (h : s.bufs[i]? = some b) (b' : Buf) :
    busy (s.bufs.set i b') + b.inflight.toList.length =
      busy s.bufs + b'.inflight.toList.length := by
  have hlen := (filterMap_set_perm Buf.inflight h b').length_eq
  rw [List.length_append, List.length_append, ← busy_eq, ← busy_eq] at hlen
  omega

/-- A read is started. -/
theorem startRead_inv (h : Inv input s) (hb : s.bufs[i]? = some b) (hop : b.op = .UNUSED)
    (hs : startRead input.length s i b = some s') : Inv input s' := by
  unfold startRead at hs
  split at hs
  next hoff =>
    split at hs
    · cases hs
      obtain ⟨q, hq, hq'⟩ := h.reads
      have hbi := h.bufs b (List.mem_of_getElem? hb)
      generalize hb' : ({ b with
        op := .READ_PENDING, aio_offset := s.off
        last := b.last || decide (input.length ≤ s.off + BSZ)
        aio_nbytes := BSZ, status := .inProgress } : Buf) = b'
      have hr := filterMap_set_perm Buf.reading hb b'
      have hi := filterMap_set_perm Buf.inflight hb b'
      have hbusy := busy_set hb b'
      -- the buffer was idle, and now it reads the block at `s.off`
      have hb₁ : b.reading = none ∧ b.inflight = none := by simp [Buf.reading, Buf.inflight, hop]
      have hb₂ : b'.reading = some s.off ∧ b'.inflight = some s.off := by
        simp [← hb', Buf.reading, Buf.inflight]
      rw [hb₁.1, hb₂.1] at hr
      rw [hb₁.2, hb₂.2] at hi hbusy
      refine ⟨⟨q + 1, ?_, ?_⟩, ?_, ?_, perm_begin h.translated hr, perm_begin h.written hi,
        forall_set h.bufs ?_ i, h.out, h.blocks, nextBuf_ne i _,
        fun he => absurd he (nextBuf_ne_finished i)⟩
      · rw [List.range_succ, List.map_append, hq, hq']
        rfl
      · rw [hq', Nat.add_mul, Nat.one_mul]
      · intro o ho
        rcases List.mem_append.mp ho with ho | ho
        · exact h.inside o ho
        · rw [List.mem_singleton.mp ho]
          exact hoff
      · have := h.numop
        dsimp only [Option.toList, List.length_nil, List.length_singleton] at hbusy ⊢
        omega
      · subst hb'
        refine ⟨hbi.len, fun _ => hoff, fun _ hl => ?_, fun _ => rfl,
          fun _ _ hst => by (cases hst), fun he => by (cases he), fun _ he => by (cases he)⟩
        have hl : ¬ input.length ≤ s.off + BSZ := by simp_all
        exact Nat.le_of_not_le hl
    · cases hs
  next =>
    cases hs
    -- nothing is left to read
    exact h.next i

/-- `case READ_PENDING` -/
theorem readDone_inv (h : Inv input s) (hb : s.bufs[i]? = some b) (hop : b.op = .READ_PENDING) :
    Inv input (readDone s i b) := by
  have hbi := h.bufs b (List.mem_of_getElem? hb)
  unfold readDone
  split
  · exact h.next i
  · exact h.goto (by simp) (by simp)
  next n hst =>
    obtain ⟨hn, hdata⟩ := hbi.read n hop hst
    have hlen := length_chunk input b.aio_offset
    split
    next hshort =>
      -- only the last block is short
      have := hbi.last hop hshort.2
      omega
    next =>
      generalize hb' : ({ b with
        data := (b.data.take n).map translate ++ b.data.drop n
        op := .WRITE_PENDING, aio_nbytes := n, status := .inProgress } : Buf) = b'
      have hr := filterMap_set_perm Buf.reading hb b'
      have hi := filterMap_set_perm Buf.inflight hb b'
      have hbusy := busy_set hb b'
      have hb₁ : b.reading = some b.aio_offset ∧ b.inflight = some b.aio_offset := by
        simp [Buf.reading, Buf.inflight, hop]
      have hb₂ : b'.reading = none ∧ b'.inflight = some b.aio_offset := by
        simp [← hb', Buf.reading, Buf.inflight]
      rw [hb₁.1, hb₂.1] at hr
      rw [hb₁.2, hb₂.2] at hi hbusy
      refine ⟨h.reads, h.inside, ?_, perm_finish h.translated hr,
        perm_same h.written (List.perm_append_left_iff _ |>.mp hi), forall_set h.bufs ?_ i, h.out,
        h.blocks, nextBuf_ne i _, fun he => absurd he (nextBuf_ne_finished i)⟩
      · have := h.numop
        dsimp only
        omega
      · subst hb'
        have hmap : ((b.data.take n).map translate ++ b.data.drop n).take n =
            (chunk input b.aio_offset).map rot13 := by
          rw [List.take_left' (by rw [List.length_map, hdata, hn]), hdata]
          exact List.map_congr_left fun c _ => translate_eq c
        refine ⟨?_, fun _ => hbi.inside (by simp [hop]), fun he => by (cases he),
          fun he => by (cases he), fun _ he => by (cases he), fun _ => ⟨hn, hmap⟩,
          fun _ _ hst => by (cases hst)⟩
        have := hbi.len
        rw [List.length_append, List.length_map, List.length_take, List.length_drop]
        omega

/-- `case WRITE_PENDING` -/
theorem writeDone_inv (h : Inv input s) (hb : s.bufs[i]? = some b) (hop : b.op = .WRITE_PENDING) :
    Inv input (writeDone s i b) := by
  have hbi := h.bufs b (List.mem_of_getElem? hb)
  unfold writeDone
  split
  · exact h.next i
  · exact h.goto (by simp) (by simp)
  next n hst =>
    split
    · exact h.goto (by simp) (by simp)
    next hn =>
      generalize hb' : ({ b with op := .UNUSED } : Buf) = b'
      have hr := filterMap_set_perm Buf.reading hb b'
      have hi := filterMap_set_perm Buf.inflight hb b'
      have hbusy := busy_set hb b'
      have hb₁ : b.reading = none ∧ b.inflight = some b.aio_offset := by
        simp [Buf.reading, Buf.inflight, hop]
      have hb₂ : b'.reading = none ∧ b'.inflight = none := by
        simp [← hb', Buf.reading, Buf.inflight]
      rw [hb₁.1, hb₂.1] at hr
      rw [hb₁.2, hb₂.2] at hi hbusy
      refine ⟨h.reads, h.inside, ?_, perm_same h.translated hr, perm_finish h.written hi,
        forall_set h.bufs ?_ i, h.out, fun o ho => ?_, nextBuf_ne i _,
        fun he => absurd he (nextBuf_ne_finished i)⟩
      · have := h.numop
        dsimp only [Option.toList, List.length_nil, List.length_singleton] at hbusy ⊢
        omega
      · subst hb'
        exact ⟨hbi.len, fun he => absurd rfl he, fun he => by (cases he), fun he => by (cases he),
          fun _ he => by (cases he), fun he => by (cases he), fun _ he => by (cases he)⟩
      · rcases List.mem_append.mp ho with ho | ho
        · exact h.blocks o ho
        · -- all of the block has been written
          rw [List.mem_singleton.mp ho]
          have hw := hbi.write n hop hst
          have hlen := length_chunk input b.aio_offset
          have hn' : n = (chunk input b.aio_offset).length :=
            (not_not.mp hn).trans (hbi.data hop).1
          intro j h₁ h₂ hj
          exact hw j h₁ (by omega) hj

/-- One step of the program. -/
theorem run_inv (h : Inv input s) (hs : run input.length s = some s') : Inv input s' := by
  unfold run at hs
  split at hs
  next i hpc =>
    obtain ⟨b, hb, hs⟩ := Option.bind_eq_some_iff.mp hs
    split at hs
    next hop => exact startRead_inv h hb hop hs
    next hop =>
      cases hs
      exact readDone_inv h hb hop
    next hop =>
      cases hs
      exact writeDone_inv h hb hop
  next =>
    split at hs
    next h0 =>
      cases hs
      split
      next hoff => exact h.goto (by simp) fun _ => ⟨h0, hoff⟩
      next => exact h.goto (by simp) (by simp)
    · cases hs
      exact h.goto (by simp) (by simp)
  next =>
    split at hs
    · cases hs
      exact h.goto (by simp) (by simp)
    · cases hs
  next => cases hs
  next => cases hs

/-- The kernel has done something about a request: the buffer stays what it is for. -/
theorem Inv.kernel (h : Inv input s) (hb : s.bufs[i]? = some b) (hop : b'.op = b.op)
    (hoff : b'.aio_offset = b.aio_offset) (hbi : BufInv input out' b')
    (hlen : out'.length ≤ input.length) (hkeep : ∀ x, BufInv input s.out x → BufInv input out' x)
    (hw : ∀ o n, Written input s.out o n → Written input out' o n) :
    Inv input { s with bufs := s.bufs.set i b', out := out' } := by
  have hr := filterMap_set_perm Buf.reading hb b'
  have hi := filterMap_set_perm Buf.inflight hb b'
  have hbusy := busy_set hb b'
  rw [show b'.reading = b.reading by simp [Buf.reading, hop, hoff]] at hr
  have hinf : b'.inflight = b.inflight := by simp [Buf.inflight, hop, hoff]
  rw [hinf] at hi hbusy
  refine ⟨h.reads, h.inside, ?_, perm_same h.translated ((List.perm_append_left_iff _).mp hr),
    perm_same h.written ((List.perm_append_left_iff _).mp hi),
    forall_set (fun x hx => hkeep x (h.bufs x hx)) hbi i, hlen,
    fun o ho => hw o _ (h.blocks o ho), h.short, h.finished⟩
  have := h.numop
  dsimp only
  omega

/-- The system has done a part of a request. -/
theorem complete_inv (h : Inv input s) (hb : s.bufs[i]? = some b)
    (hs : complete input s i n b = some s') : Inv input s' := by
  have hbi := h.bufs b (List.mem_of_getElem? hb)
  unfold complete at hs
  split at hs
  · cases hs
  next hop =>
    cases hs
    have hchunk : slice input b.aio_offset b.aio_nbytes = chunk input b.aio_offset := by
      rw [hbi.nbytes hop, chunk]
    have hlen := length_chunk input b.aio_offset
    rw [hchunk]
    refine h.kernel hb rfl rfl ?_ h.out (fun _ hx => hx) fun _ _ hw => hw
    refine ⟨?_, hbi.inside, hbi.last, hbi.nbytes, fun m _ hst => ?_,
      fun he => by simp [hop] at he, fun _ he => by simp [hop] at he⟩
    · have := hbi.len
      rw [length_overwrite]
      omega
    · cases hst
      refine ⟨rfl, ?_⟩
      simp [overwrite]
  next hop =>
    split at hs
    next hn =>
      cases hs
      obtain ⟨hnb, hdata⟩ := hbi.data hop
      have hlen := length_chunk input b.aio_offset
      have hin := hbi.inside (by simp [hop])
      -- what is written is the beginning of the translated block
      have htake : b.data.take n = ((chunk input b.aio_offset).map rot13).take n := by
        rw [← hdata, List.take_take, Nat.min_eq_left hn]
      have hm : n ≤ (chunk input b.aio_offset).length := hnb ▸ hn
      rw [htake]
      refine h.kernel hb rfl rfl ?_ ?_ (fun _ hx => hx.pwrite hm) fun _ _ hw => hw.pwrite hm
      · refine ⟨hbi.len, hbi.inside, fun he => by simp [hop] at he, fun he => by simp [hop] at he,
          fun _ he => by simp [hop] at he, hbi.data, fun m _ hst => ?_⟩
        cases hst
        intro j h₁ h₂ hj
        exact getElem?_pwrite hm hj (.inl ⟨h₁, h₂⟩)
      · refine length_pwrite _ _ _ h.out ?_
        rw [List.length_take, List.length_map]
        omega
    next => cases hs

/-- **One step**, of the program or of the kernel. -/
theorem act_inv {a : Act} (h : Inv input s) (hs : act input a s = some s') : Inv input s' := by
  cases a with
  | run => exact run_inv h hs
  | complete i n =>
    obtain ⟨b, hb, hs⟩ := Option.bind_eq_some_iff.mp hs
    split at hs
    · exact complete_inv h hb hs
    · cases hs
  | error i =>
    obtain ⟨b, hb, hs⟩ := Option.bind_eq_some_iff.mp hs
    split at hs
    · cases hs
      have hbi := h.bufs b (List.mem_of_getElem? hb)
      refine h.kernel hb rfl rfl ?_ h.out (fun _ hx => hx) fun _ _ hw => hw
      exact ⟨hbi.len, hbi.inside, hbi.last, hbi.nbytes, fun _ _ he => by (cases he), hbi.data,
        fun _ _ he => by (cases he)⟩
    · cases hs

/-- Before the first request. -/
theorem init_inv (input : List Byte) : Inv input init where
  reads := ⟨0, rfl, rfl⟩
  inside _ h := by cases h
  numop := by simp [init, busy, List.countP_replicate]
  translated := by simp [init, Buf.reading]
  written := by simp [init, Buf.inflight]
  bufs b hb := by
    rw [List.eq_of_mem_replicate hb]
    exact ⟨List.length_replicate, fun he => absurd rfl he, fun he => by (cases he),
      fun he => by (cases he), fun _ he => by (cases he), fun he => by (cases he),
      fun _ he => by (cases he)⟩
  out := Nat.zero_le _
  blocks _ h := by cases h
  short := by simp [init]
  finished h := by cases h

/-- In every run. -/
theorem run_inv' {C : Act → State → Prop} (h : Run (act input) init C s) : Inv input s :=
  h.inv (init_inv input) fun _ _ _ _ _ hs hi => act_inv hi hs

/-! ## The end of the loop -/

/-- No buffer is in use, and everything has been asked for. -/
theorem Inv.reads_eq (h : Inv input s) (hoff : input.length ≤ s.off) :
    s.reads = Advio.blocks input.length := by
  obtain ⟨q, hq, hq'⟩ := h.reads
  have hlt : ∀ k < q, k * BSZ < input.length := by
    intro k hk
    exact h.inside _ (hq ▸ List.mem_map.mpr ⟨k, List.mem_range.mpr hk, rfl⟩)
  have hcount : q = (input.length + (BSZ - 1)) / BSZ := by
    unfold BSZ at *
    cases q with
    | zero => omega
    | succ q =>
      have := hlt q (Nat.lt_succ_self q)
      omega
  rw [hq, hcount, Advio.blocks]

/-- When the program is done, all blocks have been written. -/
theorem Inv.out_eq (h : Inv input s) (hpc : s.pc = .finished) : s.out = input.map rot13 := by
  obtain ⟨h0, hoff⟩ := h.finished hpc
  have hidle : s.bufs.filterMap Buf.inflight = [] := by
    rw [← List.length_eq_zero_iff, ← busy_eq]
    have := h.numop
    omega
  have hwritten := h.written
  rw [hidle, List.append_nil] at hwritten
  obtain ⟨q, hq, hq'⟩ := h.reads
  have hbyte : ∀ j < input.length, s.out[j]? = (input[j]?).map rot13 := by
    intro j hj
    -- the block that the byte is in
    have hblock : j / BSZ < q := by
      rw [Nat.div_lt_iff_lt_mul (by decide)]
      omega
    have hmem : j / BSZ * BSZ ∈ s.written :=
      hwritten.mem_iff.mpr (hq ▸ List.mem_map.mpr ⟨j / BSZ, List.mem_range.mpr hblock, rfl⟩)
    exact h.blocks _ hmem j (Nat.div_mul_le_self j BSZ) (Nat.lt_div_mul_add (by decide)) hj
  apply List.ext_getElem?
  intro j
  rw [List.getElem?_map]
  by_cases hj : j < input.length
  · exact hbyte j hj
  · have := h.out
    rw [List.getElem?_eq_none (by omega), List.getElem?_eq_none (by omega)]
    rfl

/-- **`rot13c2`.** In every order in which the requests are completed, `numop` counts the buffers
that are in use; when the program leaves its loop, each block has been read, translated and written
once, and the output is the translated input. -/
theorem rot13c2_output (input : List Byte) (s : State) (h : Run (act input) init AnyStep s) :
    s.numop = busy s.bufs ∧ s.pc ≠ .failed .shortRead ∧
    (s.pc = .finished →
      s.reads = blocks input.length ∧ s.translated.Perm (blocks input.length) ∧
      s.written.Perm (blocks input.length) ∧ s.out = input.map rot13) := by
  have hinv := run_inv' h
  refine ⟨hinv.numop, hinv.short, fun hpc => ?_⟩
  obtain ⟨h0, hoff⟩ := hinv.finished hpc
  have hreads := hinv.reads_eq hoff
  have hidle : s.bufs.filterMap Buf.inflight = [] := by
    rw [← List.length_eq_zero_iff, ← busy_eq]
    have := hinv.numop
    omega
  have hreading : s.bufs.filterMap Buf.reading = [] := by
    rw [List.filterMap_eq_nil_iff] at hidle ⊢
    intro b hb
    have := hidle b hb
    simp only [Buf.inflight] at this
    simp only [Buf.reading]
    split at this
    next hop => simp [hop]
    next => cases this
  have htranslated := hinv.translated
  have hwritten := hinv.written
  rw [hreading, List.append_nil, hreads] at htranslated
  rw [hidle, List.append_nil, hreads] at hwritten
  exact ⟨hreads, htranslated, hwritten, hinv.out_eq hpc⟩

/-- A file of two blocks, `H` 4096 times and an `i`: the second block is read first, and written last. -/
theorem rot13c2_output_two : ∃ s, Run (act (List.replicate 4096 72 ++ [105])) init AnyStep s ∧
    s.pc = .finished ∧ s.translated = [4096, 0] ∧ s.written = [0, 4096] ∧
    s.out = List.replicate 4096 85 ++ [118] := by
  let round : List Act := List.replicate 10 .run
  let acts : List Act := List.replicate 9 .run ++ .complete 1 0 :: round ++ .complete 0 0 :: round ++
    .complete 0 4096 :: round ++ .complete 1 1 :: round
  have hrun : (perform (act (List.replicate 4096 72 ++ [105])) acts init).any
      (fun s => s.pc = .finished ∧ s.translated = [4096, 0] ∧ s.written = [0, 4096]) = true := by
    decide +kernel
  obtain ⟨s, hs, hend⟩ := (Option.any_eq_true _ _).mp hrun
  obtain ⟨hpc, htranslated, hwritten⟩ := of_decide_eq_true hend
  have h : Run (act (List.replicate 4096 72 ++ [105])) init AnyStep s := Run.of_perform hs
  refine ⟨s, h, hpc, htranslated, hwritten, ((rot13c2_output _ s h).2.2 hpc).2.2.2.trans ?_⟩
  rw [List.map_append, List.map_replicate]
  rfl

end LearningNotes.Advio
