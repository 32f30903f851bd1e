import LearningNotes.Printd.Answer

/-!
# What the buffer of `printer_status` holds before

The cursor goes on whether or not what it points to has been read. If the first read brings one
byte, the status code is what `malloc` left in the buffer; and `datsz`, to which `readmore` adds an
offset and not a number of bytes, soon covers more than what has been read. So for every response
there are pieces in which it can come such that the buffer, and not the response, decides on the
value (`printer_status_stale`).
-/

namespace LearningNotes.Printd

variable {e : Junk} {jobid : Int} {b : Buf} {chunks chunks' : List (List Byte)} {i j datsz : Nat}
  {data xs more : List Byte}

/-- The value that is returned. -/
def Returns (e : Junk) (chunks : List (List Byte)) (jobid : Int) (success : Bool) : Prop :=
  ∃ n, rounds e jobid n (start e chunks) = .done success

/-- The buffer, with these bytes at its beginning. -/
def junk (bytes : List Byte) : Junk := ⟨fun _ j => bytes.getD j 0, fun _ => 0, fun _ => true⟩

/-- What is read behind the cursor does not matter. -/
theorem Buf.At.fill (h : b.At i xs) (hj : j + data.length ≤ i) : (b.fill j data).At i xs := by
  induction xs generalizing i with
  | nil => exact h
  | cons c xs ih =>
    refine ⟨h.1, ?_, ih h.2.2 (by omega)⟩
    exact (if_neg (by omega)).trans h.2.1

theorem at_malloc (h : xs.length ≤ IOBUFSZ) : (junk xs).malloc.At 0 xs := by
  refine Buf.at_of_mem (by rw [Nat.zero_add]; exact h) fun k hk => ?_
  rw [Nat.zero_add]
  show xs.getD k 0 = xs[k]
  rw [List.getD_eq_getElem?_getD, List.getElem?_eq_getElem hk, Option.getD_some]

/-- `readmore`, of a piece that fits. -/
theorem readmore_eq (hi : i < b.bufsz) (hb : b.bufsz ≤ b.limit) (hlen : i + data.length ≤ b.bufsz)
    (hrecv : recv chunks (some (b.bufsz - i)) = some (data, chunks')) :
    readmore e ⟨b, chunks, i, datsz⟩ =
      some (some ⟨b.fill i data, chunks', i, datsz + (i + data.length)⟩) := by
  unfold readmore
  dsimp only
  rw [if_neg (Nat.not_le.mpr hi), if_pos (Nat.le_of_lt hi), hrecv]
  dsimp only
  rw [Buf.store_eq (by omega)]
  rfl

/-- The byte that comes alone. -/
theorem at_byte (y : Byte) {c : Byte} (h : b.At i (c :: more)) : (b.fill i [y]).At i (y :: more) := by
  have hle := h.le
  rw [List.length_cons] at hle
  have hfill : (b.fill i [y]).At i [y] := Buf.at_fill (by rw [List.length_singleton]; omega)
  have hmore : (b.fill i [y]).At (i + 1) more := h.tail.fill (by rw [List.length_singleton])
  exact Buf.at_append.mpr ⟨hfill, hmore⟩

/-- A round of the search at the end of the data: one byte is read. -/
theorem search_read {y c : Byte} (h : b.At i (c :: more)) (hd : datsz ≤ i) (hi : i < b.bufsz)
    (hb : b.bufsz ≤ b.limit) (hrecv : recv chunks (some (b.bufsz - i)) = some ([y], chunks'))
    (hlen : 15 ≤ (y :: more).length) (hkey : ¬ IsKey (y :: more)) :
    search e ⟨b, chunks, i, datsz⟩ =
      some (.searching ⟨b.fill i [y], chunks', i + 1, datsz + (i + 1)⟩) := by
  have hskip : b.skip (fun i c => c ≠ 67 && c ≠ 99 && i < datsz) i = some i := by
    have hlt : ¬ i < datsz := Nat.not_lt.mpr hd
    exact Buf.At.skip (show b.At i ([] ++ c :: more) from h) nofun (by simp [hlt])
  have hstarts : (b.fill i [y]).startsWith i (str "content-length:") =
      some (decide (((y :: more).take 15).map lower = str "content-length:")) :=
    (at_byte y h).startsWith hlen
  unfold search
  simp only [Option.bind_eq_bind]
  rw [hskip, Option.bind_some]
  unfold moreHeader
  rw [if_pos (by exact hd), readmore_eq hi hb (by rw [List.length_singleton]; omega) hrecv,
    Option.bind_some]
  simp only [orOut]
  rw [hstarts, Option.bind_some, if_neg fun hit => hkey ⟨hlen, of_decide_eq_true hit⟩]
  rfl

/-- The four bytes of a number, in the byte order of the network. -/
def bigBytes (n : Nat) : List Byte :=
  [UInt8.ofNat (n / 16777216), UInt8.ofNat (n / 65536), UInt8.ofNat (n / 256), UInt8.ofNat n]

theorem bigEndian_bigBytes {n : Nat} (h : n < 4294967296) : bigEndian (bigBytes n) = n := by
  unfold bigEndian bigBytes
  simp only [List.foldl_cons, List.foldl_nil, UInt8.toNat_ofNat']
  omega

/-- A status line of which nothing has been read, with the code 500. -/
def refusing : List Byte := List.replicate 8 0 ++ (str "500" ++ 32 :: ([] ++ 13 :: []))

/-- The IPP header of a response that accepts the job. -/
def accepting (jobid : BitVec 32) : List Byte := [0, 0, 0, 0] ++ bigBytes jobid.toNat

/-- What a buffer can hold, so that the program finds a whole response there. -/
def answering (jobid : BitVec 32) : List Byte :=
  List.replicate 8 0 ++ (str "200" ++ 32 :: ([] ++ 13 :: (str "Content-Length:" ++
    (str "0" ++ 32 :: (0 :: 10 :: 13 :: 10 :: accepting jobid)))))

/-- The first byte comes alone. -/
theorem await_first (chunks : List (List Byte)) (c : Byte) {code : List Byte} (hcode : ∀ y ∈ code, isDigit y = true)
    (hne : code ≠ []) (h : xs = List.replicate 8 0 ++ (code ++ 32 :: ([] ++ 13 :: more)))
    (hlen : xs.length ≤ IOBUFSZ) : ∃ b', b'.limit = IOBUFSZ ∧ b'.bufsz = IOBUFSZ ∧
      b'.At (8 + code.length + 1) (0 :: more) ∧
      await (junk xs) (junk xs).malloc ([c] :: chunks) =
        if HTTP_INFO (atoi code).toInt then some (.reading b' ([] :: chunks))
        else if HTTP_SUCCESS (atoi code).toInt then
          some (.searching ⟨b', [] :: chunks, 8 + code.length + 1, 1⟩)
        else (b'.set 1 0).bind fun _ => some (.done false) := by
  have hat := at_malloc hlen
  have hcodeAt : ((junk xs).malloc.fill 0 [c]).At 8 ([] ++ (code ++ 32 :: ([] ++ 13 :: more))) := by
    apply Buf.At.fill _ (by simp)
    rw [h] at hat ⊢
    exact hat.right
  obtain ⟨b', hlimit, hbufsz, hat', hline⟩ := statusLine_eq (e := junk xs) ([] :: chunks) 1 hcodeAt nofun hcode hne (by decide) nofun (by decide)
  refine ⟨b', hlimit, hbufsz, hat', ?_⟩
  unfold await
  rw [show (junk xs).malloc.bufsz = IOBUFSZ from rfl, recv_piece (by simp) (by simp)]
  dsimp only
  have hone : 0 + [c].length ≤ (junk xs).malloc.limit := show 1 ≤ IOBUFSZ by decide
  rw [Buf.store_eq hone, Option.bind_some]
  exact hline

set_option maxRecDepth 10000 in
/-- The program finds the code 500. -/
theorem returns_false (jobid : Int) (c : Byte) (chunks : List (List Byte)) :
    Returns (junk refusing) ([c] :: chunks) jobid false := by
  obtain ⟨b', hlimit, -, -, hawait⟩ := await_first chunks c (by decide) (by decide)
    (show refusing = List.replicate 8 0 ++ (str "500" ++ 32 :: ([] ++ 13 :: [])) from rfl) (by decide)
  rw [if_neg (by decide), if_neg (by decide),
    Buf.set_eq (by rw [hlimit]; decide)] at hawait
  refine ⟨1, ?_⟩
  rw [rounds_succ, start, round_reading hawait]
  rfl

theorem length_accepting (jobid : BitVec 32) : (accepting jobid).length = 8 := rfl

/-- What comes behind the status line in `answering`. -/
theorem length_answering (jobid : BitVec 32) : (answering jobid).length ≤ IOBUFSZ := by
  unfold answering
  simp only [List.length_append, List.length_cons, List.length_replicate, length_accepting]
  decide

set_option maxRecDepth 10000 in
/-- The name of the header comes next, in a buffer that is at the end of the data. -/
theorem search_stale (chunks : List (List Byte)) (z : Byte) {body : List Byte} (hb : b.bufsz = IOBUFSZ ∧ b.limit = IOBUFSZ)
    (h : b.At 13 (str "Content-Length:" ++ ([] ++ (str "0" ++ 32 :: (0 :: 10 :: 13 :: 10 :: body))))) :
    ∃ b', b'.At 30 ([z] ++ 10 :: 13 :: 10 :: body) ∧
      search e ⟨b, [] :: [z] :: chunks, 13, 14⟩ = some (.ending ⟨b', [] :: chunks, 30, 45⟩ 0) := by
  obtain ⟨b', hlimit, hbufsz, hat, hcontent⟩ := contentLength_eq (e := e)
    (v := ⟨b, [] :: [z] :: chunks, 13, 14⟩) h rfl nofun (by decide) (by decide) (by decide)
  have hkey : IsKey (str "Content-Length:" ++ ([] ++ (str "0" ++
      32 :: (0 :: 10 :: 13 :: 10 :: body)))) := IsKey.append (by decide) _
  obtain ⟨c, more, hcons, hc⟩ := hkey.head
  rw [hcons] at h hkey
  have hfound := search_eq (e := e) (v := ⟨b, [] :: [z] :: chunks, 13, 14⟩)
    (show b.At 13 ([] ++ c :: more) from h) nofun hc
    (Nat.lt_succ_self 13) hkey.1
  have hone : (str "0").length = 1 := by decide
  rw [hone] at hat hcontent
  refine ⟨b'.fill 30 [z], at_byte z hat, ?_⟩
  rw [hfound, if_pos hkey]
  refine hcontent.trans ?_
  have hmore : moreHeader e ⟨b', [] :: [z] :: chunks, 30, 14⟩ =
      some (some ⟨b'.fill 30 [z], [] :: chunks, 30, 45⟩) := by
    have hsize : b'.bufsz = IOBUFSZ := hbufsz.trans hb.1
    have hlim : b'.limit = IOBUFSZ := hlimit.trans hb.2
    unfold moreHeader
    rw [if_pos (show 14 ≤ 30 by decide)]
    apply readmore_eq
    · rw [hsize]
      decide
    · rw [hsize, hlim]
    · rw [hsize]
      exact (by decide : 31 ≤ IOBUFSZ)
    · rw [hsize]
      exact recv_piece (List.cons_ne_nil z []) (by decide : 1 ≤ IOBUFSZ - 30)
  show (moreHeader e ⟨b', [] :: [z] :: chunks, 30, 14⟩).bind _ = _
  rw [hmore]
  rfl

set_option maxRecDepth 10000 in
/-- The program finds a response that accepts the job; it reads one byte at the end of the status
line, and one byte behind the `Content-Length`. -/
theorem returns_true (jobid : BitVec 32) {x y z : Byte} (chunks : List (List Byte))
    (hy : isC y = false) (hz : z ≠ 10) :
    Returns (junk (answering jobid)) ([x] :: [y] :: [z] :: chunks) jobid.toInt true := by
  obtain ⟨b, hlimit, hbufsz, hat, hawait⟩ := await_first ([y] :: [z] :: chunks) x (by decide)
    (by decide) (show answering jobid = List.replicate 8 0 ++ (str "200" ++ 32 :: ([] ++
      13 :: (str "Content-Length:" ++ (str "0" ++ 32 :: (0 :: 10 :: 13 :: 10 :: accepting jobid))))) from
        rfl) (length_answering jobid)
  have hthree : (str "200").length = 3 := by decide
  rw [hthree] at hat hawait
  rw [if_neg (by decide), if_pos (by decide)] at hawait
  -- the second byte
  have hat : b.At 12 (0 :: (str "Content-Length:" ++
      (str "0" ++ 32 :: (0 :: 10 :: 13 :: 10 :: accepting jobid)))) := hat
  have hsearch : search (junk (answering jobid)) ⟨b, [] :: [y] :: [z] :: chunks, 12, 1⟩ =
      some (.searching ⟨b.fill 12 [y], [] :: [z] :: chunks, 13, 14⟩) := by
    refine search_read hat (by decide) (by rw [hbufsz]; decide) (by rw [hbufsz, hlimit]) ?_
      (by simp [str]) fun hkey => ?_
    · rw [hbufsz]
      exact recv_piece (List.cons_ne_nil y []) (by decide : 1 ≤ IOBUFSZ - 12)
    · obtain ⟨c, _, hc, hisC⟩ := hkey.head
      rw [← (List.cons.inj hc).1, hy] at hisC
      exact absurd hisC (by decide)
  -- the third byte
  obtain ⟨b', hat', hsearch'⟩ := search_stale (e := junk (answering jobid)) chunks z
    (b := b.fill 12 [y]) ⟨hbufsz, hlimit⟩ (at_byte y hat).tail
  have hend := ending_answer (junk (answering jobid)) jobid.toInt ([] :: chunks) 45 0
    (fun q (hq : q < [z].length) => by
      rw [Nat.lt_one_iff.mp hq]
      exact not_isEnd hz) hat' (show 30 + 1 + 3 < 45 by decide)
      (show ((30 + 1 + 3 : Nat) : Int) + 0 ≤ (45 : Nat) by decide) (Nat.le_refl 8)
  have haccept : (BitVec.ofNat 32 (bigEndian (((accepting jobid).drop 4).take 4))).toInt =
      jobid.toInt ∧ bigEndian (((accepting jobid).drop 2).take 2) ≤ 255 := by
    refine ⟨?_, by show bigEndian [0, 0] ≤ 255; decide⟩
    show (BitVec.ofNat 32 (bigEndian (bigBytes jobid.toNat))).toInt = _
    rw [bigEndian_bigBytes jobid.isLt, BitVec.ofNat_toNat, BitVec.setWidth_eq]
  rw [decide_eq_true haccept] at hend
  refine ⟨4, ?_⟩
  rw [rounds_succ, rounds_succ, rounds_succ, rounds_succ]
  rw [start, round_reading hawait, round_searching hsearch, round_searching hsearch', hend]
  rfl

/-- **The value depends on the buffer**, for every response and every job. -/
theorem printer_status_stale (r : Response) (jobid : BitVec 32) :
    ¬ ∀ e₁ e₂ chunks₁ chunks₂ success₁ success₂, chunks₁.flatten = r.bytes →
      chunks₂.flatten = r.bytes → Returns e₁ chunks₁ jobid.toInt success₁ →
        Returns e₂ chunks₂ jobid.toInt success₂ → success₁ = success₂ := by
  intro h
  obtain ⟨more, hmore⟩ : ∃ more, r.bytes = 72 :: 84 :: 84 :: more := ⟨_, rfl⟩
  have hpieces : ([72] :: [84] :: [84] :: [more]).flatten = r.bytes := by
    rw [hmore]
    simp
  exact absurd (h _ _ _ _ _ _ hpieces hpieces (returns_false jobid.toInt 72 _)
    (returns_true jobid _ (by decide) (by decide))) (by decide)

/-- What has been returned. -/
def State.value : State → Option Bool
  | .done success => some success
  | _ => none

theorem returns_of_value {n : Nat} {success : Bool}
    (h : (rounds e jobid n (start e chunks)).value = some success) :
    Returns e chunks jobid success := by
  refine ⟨n, ?_⟩
  cases hs : rounds e jobid n (start e chunks) with
  | done s =>
    rw [hs] at h
    rw [Option.some.inj h]
  | _ =>
    rw [hs] at h
    exact absurd h nofun

/-- A response that accepts the job, in one piece and in two, on a buffer of zeros. -/
theorem printer_status_pieces :
    Returns (junk []) [shortResponse.bytes] 1 true ∧
      Returns (junk []) [shortResponse.bytes.take 8, shortResponse.bytes.drop 8] 1 false :=
  ⟨returns_of_value (n := 3) (by decide +kernel), returns_of_value (n := 3) (by decide +kernel)⟩

end LearningNotes.Printd
