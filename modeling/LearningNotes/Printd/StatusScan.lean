import LearningNotes.Printd.StatusEnds

/-!
# What the loops of `printer_status` find

The loops only go forward. So what they find depends on the bytes from the cursor on, and what the
program overwrites lies behind it: `At` says which bytes come next, and each loop leads from one
such list to what is left of it.
-/

namespace LearningNotes.Printd

variable {e : Junk} {jobid : Int} {b : Buf} {v : View} {chunks : List (List Byte)}
  {i j n datsz : Nat} {c d : Byte} {xs ys data more : List Byte}
  {pass : Nat → Byte → Bool}

/-- `tolower`, of an ASCII byte. -/
def lower (x : Byte) : Byte := if 65 ≤ x ∧ x ≤ 90 then x + 32 else x

namespace Buf

/-- In the memory, `data` comes from `p` on. -/
def At (b : Buf) : Nat → List Byte → Prop
  | p, [] => p ≤ b.limit
  | p, c :: data => p < b.limit ∧ b.mem p = c ∧ b.At (p + 1) data

/-- The buffer after `bp[j] = c`. -/
def put (b : Buf) (j : Nat) (c : Byte) : Buf :=
  { b with mem := fun k => if k = j then c else b.mem k }

@[simp] theorem put_limit : (b.put j c).limit = b.limit := rfl
@[simp] theorem put_bufsz : (b.put j c).bufsz = b.bufsz := rfl

theorem set_eq (h : j < b.limit) : b.set j c = some (b.put j c) := if_pos h

theorem get_eq (h : j < b.limit) : b.get j = some (b.mem j) := if_pos h

/-- The data ends in the buffer. -/
theorem At.le (h : b.At i data) : i + data.length ≤ b.limit := by
  induction data generalizing i with
  | nil => exact h
  | cons c data ih =>
    have := ih h.2.2
    rw [List.length_cons]
    omega

theorem At.head (h : b.At i (c :: data)) : i < b.limit := h.1

theorem At.mem (h : b.At i (c :: data)) : b.mem i = c := h.2.1

theorem At.tail (h : b.At i (c :: data)) : b.At (i + 1) data := h.2.2

/-- The data in two parts. -/
theorem at_append : b.At i (xs ++ ys) ↔ b.At i xs ∧ b.At (i + xs.length) ys := by
  induction xs generalizing i with
  | nil =>
    constructor
    · intro h
      have := h.le
      exact ⟨Nat.le_trans (Nat.le_add_right ..) this, h⟩
    · intro h
      exact h.2
  | cons c xs ih =>
    have hassoc : i + (c :: xs).length = i + 1 + xs.length := by
      rw [List.length_cons]
      omega
    constructor
    · intro h
      obtain ⟨hxs, hys⟩ := ih.mp h.2.2
      exact ⟨⟨h.1, h.2.1, hxs⟩, hassoc ▸ hys⟩
    · intro ⟨hxs, hys⟩
      exact ⟨hxs.1, hxs.2.1, ih.mpr ⟨hxs.2.2, hassoc ▸ hys⟩⟩

/-- The data is there byte by byte. -/
theorem at_of_mem (h : i + data.length ≤ b.limit)
    (hmem : ∀ k (hk : k < data.length), b.mem (i + k) = data[k]) : b.At i data := by
  induction data generalizing i with
  | nil => exact h
  | cons c data ih =>
    rw [List.length_cons] at h
    refine ⟨by omega, hmem 0 (Nat.succ_pos _), ih (by omega) fun k hk => ?_⟩
    rw [Nat.add_assoc, Nat.add_comm 1 k]
    exact hmem (k + 1) (Nat.succ_lt_succ hk)

theorem At.left (h : b.At i (xs ++ ys)) : b.At i xs := (at_append.mp h).1

theorem At.right (h : b.At i (xs ++ ys)) : b.At (i + xs.length) ys := (at_append.mp h).2

/-- What is written behind the cursor does not matter. -/
theorem At.put (h : b.At i data) (hj : j < i) : (b.put j c).At i data := by
  induction data generalizing i with
  | nil => exact h
  | cons d data ih =>
    refine ⟨h.1, ?_, ih h.2.2 (by omega)⟩
    exact (if_neg (by omega)).trans h.2.1

/-- The first byte is overwritten. -/
theorem At.put_self (h : b.At i (c :: data)) : (b.put i d).At i (d :: data) :=
  ⟨h.1, if_pos rfl, h.2.2.put (by omega)⟩

/-- The bytes from `i` on are the data. -/
theorem At.bytes (h : b.At i data) : b.bytes i (i + data.length) = data := by
  unfold Buf.bytes
  rw [Nat.add_sub_cancel_left]
  induction data generalizing i with
  | nil => rfl
  | cons c data ih =>
    rw [List.length_cons, List.range'_succ, List.map_cons, h.2.1, ih h.2.2]

/-! ## The loops -/

/-- A loop that skips bytes stops at the first one that does not pass. -/
theorem skipFrom_at (h : b.At i (xs ++ c :: more)) (hn : xs.length < n)
    (hpass : ∀ k (hk : k < xs.length), pass (i + k) xs[k] = true)
    (hstop : pass (i + xs.length) c = false) : b.skipFrom pass n i = some (i + xs.length) := by
  induction xs generalizing i n with
  | nil =>
    obtain ⟨n, rfl⟩ := Nat.exists_eq_succ_of_ne_zero (Nat.ne_of_gt hn)
    have hfalse : pass i (b.mem i) = false := by
      rw [At.mem h]
      exact hstop
    unfold skipFrom
    rw [if_neg (by rw [hfalse]; decide)]
    rfl
  | cons x xs ih =>
    obtain ⟨n, rfl⟩ := Nat.exists_eq_succ_of_ne_zero (Nat.ne_of_gt (Nat.zero_lt_of_lt hn))
    have hassoc : i + (x :: xs).length = i + 1 + xs.length := by
      rw [List.length_cons]
      omega
    rw [hassoc] at hstop ⊢
    unfold skipFrom
    rw [if_pos (by rw [At.mem h]; exact hpass 0 (Nat.succ_pos _))]
    refine ih h.2.2 (by rw [List.length_cons] at hn; omega) (fun k hk => ?_) hstop
    have := hpass (k + 1) (Nat.succ_lt_succ hk)
    rwa [List.getElem_cons_succ, show i + (k + 1) = i + 1 + k by omega] at this

/-- **A loop** stops at the first byte that does not pass the test. -/
theorem At.skip (h : b.At i (xs ++ c :: more))
    (hpass : ∀ k (hk : k < xs.length), pass (i + k) xs[k] = true)
    (hstop : pass (i + xs.length) c = false) : b.skip pass i = some (i + xs.length) := by
  have hle := h.le
  rw [List.length_append, List.length_cons] at hle
  exact skipFrom_at h (by omega) hpass hstop

/-- The same with a test of the byte alone. -/
theorem At.skipWhile {test : Byte → Bool} (h : b.At i (xs ++ c :: more))
    (hpass : ∀ x ∈ xs, test x = true) (hstop : test c = false) :
    b.skip (fun _ => test) i = some (i + xs.length) :=
  h.skip (fun _ hk => hpass _ (List.getElem_mem hk)) hstop

/-- **`strncasecmp`** -/
theorem At.startsWith {s : List Byte} (h : b.At i data) (hlen : s.length ≤ data.length) :
    b.startsWith i s = some (decide ((data.take s.length).map lower = s)) := by
  induction s generalizing i data with
  | nil => rfl
  | cons c s ih =>
    cases data with
    | nil => exact absurd hlen (by simp)
    | cons x data =>
      have hrest := ih h.2.2 (Nat.le_of_succ_le_succ hlen)
      unfold Buf.startsWith
      rw [get_eq h.1, h.2.1, Option.bind_eq_bind, Option.bind_some, List.length_cons,
        List.take_succ_cons, List.map_cons]
      by_cases hx : lower x = c
      · rw [if_pos (show (if 65 ≤ x ∧ x ≤ 90 then x + 32 else x) = c from hx), hrest, hx]
        simp
      · rw [if_neg (show ¬ (if 65 ≤ x ∧ x ≤ 90 then x + 32 else x) = c from hx)]
        simp [hx]

/-- The test for the end of the header looks at three bytes: newline, return, newline. -/
theorem At.isEnd {x y z : Byte} (h : b.At i (x :: y :: z :: more)) :
    b.isEnd i = some (decide ([x, y, z] = [10, 13, 10])) := by
  unfold Buf.isEnd
  have hx := h.mem
  have hy := h.tail.mem
  have hz := h.tail.tail.mem
  rw [get_eq h.head, get_eq h.tail.head, get_eq h.tail.tail.head, hx, hy, hz]
  simp only [Option.bind_eq_bind, Option.bind_some]
  by_cases hx : x = 10
  · by_cases hy : y = 13
    · simp [hx, hy]
    · simp [hx, hy]
  · simp [hx]

end Buf

/-! ## The status line -/

/-- **The status line**: white space, a number, and the text up to the end of the line. -/
theorem statusLine_eq (chunks : List (List Byte)) (datsz : Nat)
    {blanks code reason : List Byte} {x : Byte}
    (h : b.At 8 (blanks ++ (code ++ x :: (reason ++ c :: more))))
    (hblanks : ∀ y ∈ blanks, isSpace y = true) (hcode : ∀ y ∈ code, isDigit y = true)
    (hne : code ≠ []) (hx : isDigit x = false)
    (hreason : ∀ y ∈ reason, (y ≠ 13 && y ≠ 10) = true) (hc : (c ≠ 13 && c ≠ 10) = false) :
    ∃ b', b'.limit = b.limit ∧ b'.bufsz = b.bufsz ∧
      b'.At (8 + blanks.length + code.length + 1 + reason.length) (0 :: more) ∧
      statusLine e b chunks datsz =
        if HTTP_INFO (atoi code).toInt then some (.reading b' chunks)
        else if HTTP_SUCCESS (atoi code).toInt then
          some (.searching ⟨b', chunks, 8 + blanks.length + code.length + 1 + reason.length, datsz⟩)
        else (b'.set datsz 0).bind fun _ => some (.done false) := by
  obtain ⟨y, ys, rfl⟩ := List.exists_cons_of_ne_nil hne
  have hcodeAt := h.right
  have hxAt := hcodeAt.right
  have hreasonAt := (hxAt.put_self (d := 0)).tail
  have hcAt := hreasonAt.right
  have hy : isDigit y = true := hcode y (List.mem_cons_self ..)
  have hspace : b.skip (fun _ => isSpace) 8 = some (8 + blanks.length) :=
    h.skipWhile hblanks (isSpace_of_isDigit hy)
  have hdigit := hcodeAt.skipWhile hcode hx
  have hline := hreasonAt.skipWhile hreason hc
  refine ⟨(b.put _ 0).put _ 0, rfl, rfl, hcAt.put_self (d := 0), ?_⟩
  unfold statusLine
  simp only [Option.bind_eq_bind]
  rw [hspace, Option.bind_some, hdigit, Option.bind_some,
    if_neg (by rw [List.length_cons]; omega), hcodeAt.left.bytes,
    Buf.set_eq hxAt.head, Option.bind_some, hline, Option.bind_some, Buf.set_eq hcAt.head,
    Option.bind_some]

/-! ## The `Content-Length` -/

/-- The name of the header, in any case. -/
def IsKey (data : List Byte) : Prop :=
  15 ≤ data.length ∧ (data.take 15).map lower = str "content-length:"

instance : Decidable (IsKey data) := inferInstanceAs (Decidable (_ ∧ _))

/-- The byte that the search stops at. -/
def isC (c : Byte) : Bool := c = 67 || c = 99

/-- The name begins with a `C` of either case. -/
theorem isC_of_lower (h : lower c = 99) : isC c = true := by
  unfold lower at h
  unfold isC
  split at h
  · have hc : c = 67 := by
      have hsub := congrArg (· - 32) h
      rwa [UInt8.add_sub_cancel] at hsub
    rw [hc]
    rfl
  · rw [h]
    rfl

theorem IsKey.head (h : IsKey data) : ∃ c more, data = c :: more ∧ isC c = true := by
  cases data with
  | nil => exact absurd h.1 (by simp)
  | cons c more =>
    refine ⟨c, more, rfl, isC_of_lower ?_⟩
    have hmap := h.2
    rw [List.take_succ_cons, List.map_cons] at hmap
    exact (List.cons.inj hmap).1

/-- Nothing is read before the end of the data. -/
theorem moreHeader_eq (h : v.i < v.datsz) : moreHeader e v = some (some v) :=
  if_neg (Nat.not_le.mpr h)

/-- The search stops at the next `C`. -/
theorem skip_isC (h : b.At i (xs ++ c :: more)) (hxs : ∀ x ∈ xs, isC x = false)
    (hc : isC c = true) (hd : i + xs.length < datsz) :
    b.skip (fun i c => c ≠ 67 && c ≠ 99 && i < datsz) i = some (i + xs.length) := by
  apply h.skip
  · intro k hk
    have := hxs _ (List.getElem_mem hk)
    unfold isC at this
    simp only [Bool.or_eq_false_iff, decide_eq_false_iff_not] at this
    have hi : i + k < datsz := by omega
    simp [this, hi]
  · unfold isC at hc
    simp only [Bool.or_eq_true, decide_eq_true_eq] at hc
    rcases hc with rfl | rfl <;> simp

/-- A round of the search: to the next `C`. -/
theorem search_eq (h : v.b.At v.i (xs ++ c :: more)) (hxs : ∀ x ∈ xs, isC x = false)
    (hc : isC c = true) (hd : v.i + xs.length < v.datsz)
    (hlen : 15 ≤ (c :: more).length) : search e v =
      if IsKey (c :: more) then contentLength e { v with i := v.i + xs.length }
      else some (.searching { v with i := v.i + xs.length + 1 }) := by
  have hskip := skip_isC h hxs hc hd
  have hstarts : v.b.startsWith (v.i + xs.length) (str "content-length:") =
      some (decide (((c :: more).take 15).map lower = str "content-length:")) :=
    h.right.startsWith hlen
  unfold search
  simp only [Option.bind_eq_bind]
  rw [hskip, Option.bind_some]
  rw [moreHeader_eq (by exact hd), Option.bind_some]
  simp only [orOut]
  rw [hstarts, Option.bind_some]
  by_cases hkey : IsKey (c :: more)
  · rw [if_pos hkey, if_pos (decide_eq_true hkey.2)]
  · rw [if_neg hkey, if_neg fun hit => hkey ⟨hlen, of_decide_eq_true hit⟩]

/-- **The search** finds the first place where the name is. -/
theorem searching_found (e : Junk) (jobid : Int) (chunks : List (List Byte)) (datsz : Nat)
    {pre line : List Byte} (hline : IsKey line)
    (hfirst : ∀ q < pre.length, ¬ IsKey ((pre ++ line).drop q)) (h : b.At i (pre ++ line))
    (hd : i + (pre ++ line).length ≤ datsz) :
    ∃ n, rounds e jobid n (.searching ⟨b, chunks, i, datsz⟩) =
      (contentLength e ⟨b, chunks, i + pre.length, datsz⟩).getD .fault := by
  induction hpre : pre.length using Nat.strong_induction_on generalizing pre i with
  | _ k ih =>
    subst hpre
    cases hfind : pre.find? isC with
    | none =>
      -- no `C` before the line: one round goes straight to it
      obtain ⟨c, more, rfl, hc⟩ := hline.head
      have hxs : ∀ x ∈ pre, isC x = false := by
        intro x hx
        exact Bool.eq_false_iff.mpr (List.find?_eq_none.mp hfind x hx)
      refine ⟨1, ?_⟩
      show ((search e ⟨b, chunks, i, datsz⟩).getD .fault : State) = _
      rw [List.length_append, List.length_cons] at hd
      rw [search_eq (v := ⟨b, chunks, i, datsz⟩) h hxs hc (by dsimp only; omega) hline.1,
        if_pos hline]
    | some y =>
      obtain ⟨hy, xs, ys, rfl, hxs⟩ := List.find?_eq_some_iff_append.mp hfind
      have hxs : ∀ x ∈ xs, isC x = false := by
        intro x hx
        simpa using hxs x hx
      rw [List.append_assoc, List.cons_append] at h hd
      -- the name is not at this `C`: the round goes past it, and the rest is shorter
      have hnot : ¬ IsKey (y :: (ys ++ line)) := by
        have := hfirst xs.length (by simp)
        rwa [List.append_assoc, List.cons_append, List.drop_left] at this
      have hlong := hline.1
      have hround : round e jobid (.searching ⟨b, chunks, i, datsz⟩) =
          .searching ⟨b, chunks, i + xs.length + 1, datsz⟩ := by
        rw [List.length_append, List.length_cons] at hd
        refine round_searching ?_
        rw [search_eq (v := ⟨b, chunks, i, datsz⟩) h hxs hy (by dsimp only; omega)
          (by rw [List.length_cons, List.length_append]; omega), if_neg hnot]
      have hfirst' : ∀ q < ys.length, ¬ IsKey ((ys ++ line).drop q) := by
        intro q hq
        have := hfirst (xs.length + (q + 1)) (by simp only [List.length_append, List.length_cons]; omega)
        rwa [List.append_assoc, List.cons_append, List.drop_length_add_append,
          List.drop_succ_cons] at this
      obtain ⟨n, hn⟩ := ih ys.length (by simp only [List.length_append, List.length_cons]; omega)
        hfirst' h.right.tail (by simp only [List.length_append, List.length_cons] at hd ⊢; omega) rfl
      have hi : i + xs.length + 1 + ys.length = i + (xs ++ y :: ys).length := by
        simp only [List.length_append, List.length_cons]
        omega
      rw [hi] at hn
      exact ⟨n + 1, by rw [rounds_succ, hround, hn]⟩

/-- **The number.** -/
theorem contentLength_eq {name blanks digits : List Byte} {x : Byte}
    (h : v.b.At v.i (name ++ (blanks ++ (digits ++ x :: more)))) (hname : name.length = 15)
    (hblanks : ∀ y ∈ blanks, isSpace y = true) (hdigits : ∀ y ∈ digits, isDigit y = true)
    (hne : digits ≠ []) (hx : isDigit x = false) :
    ∃ b', b'.limit = v.b.limit ∧ b'.bufsz = v.b.bufsz ∧
      b'.At (v.i + 15 + blanks.length + digits.length + 1) more ∧
      contentLength e v =
        (moreHeader e ⟨b', v.chunks, v.i + 15 + blanks.length + digits.length + 1, v.datsz⟩).bind
          (orOut fun v => some (.ending v (atoi digits).toInt)) := by
  obtain ⟨y, ys, rfl⟩ := List.exists_cons_of_ne_nil hne
  have hblanksAt := h.right
  rw [hname] at hblanksAt
  have hdigitsAt := hblanksAt.right
  have hxAt := hdigitsAt.right
  have hspace := hblanksAt.skipWhile hblanks (isSpace_of_isDigit (hdigits y (List.mem_cons_self ..)))
  have hdigit := hdigitsAt.skipWhile hdigits hx
  refine ⟨v.b.put _ 0, rfl, rfl, (hxAt.put_self (d := 0)).tail, ?_⟩
  unfold contentLength
  simp only [Option.bind_eq_bind]
  rw [hspace, Option.bind_some, hdigit, Option.bind_some, hdigitsAt.left.bytes,
    Buf.set_eq hxAt.head, Option.bind_some]

/-! ## The end of the header -/

/-- Where the end of the header is. -/
def IsEnd (data : List Byte) : Prop := data.take 3 = [10, 13, 10]

/-- There are three bytes from any place in front of the end of the header. -/
theorem three_of_end (pre more : List Byte) :
    ∃ y z more', pre ++ 10 :: 13 :: 10 :: more = y :: z :: more' := by
  rcases pre with _ | ⟨y, _ | ⟨z, pre⟩⟩
  · exact ⟨_, _, _, rfl⟩
  · exact ⟨_, _, _, rfl⟩
  · exact ⟨_, _, _, rfl⟩

/-- **The scan** finds the first end that is there. -/
theorem scanEnd_eq (datsz : Nat) {pre : List Byte} (hfirst : ∀ q < pre.length,
      ¬ IsEnd ((pre ++ 10 :: 13 :: 10 :: more).drop q))
    (h : b.At i (pre ++ 10 :: 13 :: 10 :: more)) (hd : i + pre.length + 2 < datsz)
    (hn : pre.length < n) : scanEnd b datsz n i = some (true, i + pre.length + 3) := by
  induction pre generalizing i n with
  | nil =>
    obtain ⟨n, rfl⟩ := Nat.exists_eq_succ_of_ne_zero (Nat.ne_of_gt hn)
    have hend := Buf.At.isEnd h
    rw [List.length_nil, Nat.add_zero] at hd
    unfold scanEnd
    rw [if_pos hd, hend]
    rfl
  | cons x pre ih =>
    obtain ⟨n, rfl⟩ := Nat.exists_eq_succ_of_ne_zero (Nat.ne_of_gt (Nat.zero_lt_of_lt hn))
    rw [List.length_cons] at hd hn
    obtain ⟨y, z, more', hmore⟩ := three_of_end pre more
    have hend := h
    rw [List.cons_append, hmore] at hend
    have hnot := hfirst 0 (Nat.succ_pos _)
    rw [List.drop_zero, List.cons_append, hmore] at hnot
    unfold scanEnd
    rw [if_pos (by omega), hend.isEnd]
    -- the end is not here yet: one byte on
    have hfalse : decide ([x, y, z] = [10, 13, 10]) = false := decide_eq_false hnot
    rw [hfalse]
    have hrest := ih (i := i + 1) (n := n)
      (fun q hq => hfirst (q + 1) (Nat.succ_lt_succ hq)) h.tail (by omega) (by omega)
    have hi : i + (x :: pre).length + 3 = i + 1 + pre.length + 3 := by
      rw [List.length_cons]
      omega
    rw [hi]
    exact hrest

/-- The number that the bytes are, in the byte order of the network. -/
def bigEndian (bytes : List Byte) : Nat := bytes.foldl (fun n c => 256 * n + c.toNat) 0

theorem Buf.At.mapM (h : b.At i data) : (List.range' i data.length).mapM b.get = some data := by
  induction data generalizing i with
  | nil => rfl
  | cons c data ih =>
    rw [List.length_cons, List.range'_succ, List.mapM_cons, get_eq h.head, h.mem, ih h.tail]
    rfl

/-- Some of the bytes. -/
theorem Buf.At.slice {k : Nat} (h : b.At i data) (hk : j + k ≤ data.length) :
    (List.range' (i + j) k).mapM b.get = some ((data.drop j).take k) := by
  have hsplit : data = data.take j ++ ((data.drop j).take k ++ (data.drop j).drop k) := by
    rw [List.take_append_drop, List.take_append_drop]
  rw [hsplit] at h
  have hslice := h.right.left
  rw [List.length_take_of_le (by omega)] at hslice
  have hmap := hslice.mapM
  rwa [List.length_take_of_le (by rw [List.length_drop]; omega)] at hmap

/-- **The IPP header.** -/
theorem ippStatus_eq (jobid : Int) (h : v.b.At v.i data) (hlen : 8 ≤ data.length) :
    ippStatus jobid v = some (.done (decide
      ((BitVec.ofNat 32 (bigEndian ((data.drop 4).take 4))).toInt = jobid ∧
        bigEndian ((data.drop 2).take 2) ≤ 255))) := by
  have hs := h.slice (j := 2) (k := 2) (by omega)
  have hr := h.slice (j := 4) (k := 4) (by omega)
  unfold ippStatus
  simp only [Option.bind_eq_bind]
  rw [hs, Option.bind_some, hr, Option.bind_some]
  split
  · next hne => rw [decide_eq_false fun hok => hne hok.1]
  · next heq =>
    congr 2
    exact decide_eq_decide.mpr ⟨fun hok => ⟨not_not.mp heq, hok⟩, fun hok => hok.2⟩

end LearningNotes.Printd
