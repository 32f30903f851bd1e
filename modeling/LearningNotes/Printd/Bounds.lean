import LearningNotes.Printd.Checked

/-!
# When `printer_status` stays inside its buffer

None of the loops of `printer_status` compares its cursor with the end of the data, and after a
`readmore` the end that it keeps is too far behind. What keeps it inside is that the loops find
what they stop at: `Arrived` says, for each round, what has to be among the bytes that have been
received. If every round of a run is so, no access of the run is outside of the buffer, and no byte
is interpreted that has not been received (`printer_status_bounds`). It is so for every answer that
comes in one read (`answer_arrived`).
-/

namespace LearningNotes.Printd

variable {e : Junk} {jobid : Int} {b : Buf} {v w : View} {c : Byte} {pass : Nat → Byte → Bool}
  {chunks chunks' : List (List Byte)} {bytes data xs more : List Byte}
  {i j n datsz fin fin' : Nat} {len : Int}

/-! ## What has to have been received -/

/-- The bytes of this response that have been received, from the cursor on. -/
def View.ahead (v : View) (fin : Nat) : List Byte := v.b.bytes v.i fin

/-- A status line: the number ends in the data, and so does the line behind it; after an error, a
NUL is stored behind the data. Without a number, the data is a format: it has to end in a NUL, with
no conversion in front of it. -/
def StatusArrived (bufsz : Nat) (bytes : List Byte) : Prop :=
  ∃ blanks code x rest, bytes.drop 8 = blanks ++ (code ++ x :: rest) ∧
    (∀ y ∈ blanks, isSpace y = true) ∧ (∀ y ∈ code, isDigit y = true) ∧ isDigit x = false ∧
      ((code = [] ∧ isSpace x = false ∧ ∃ text more, bytes = text ++ 0 :: more ∧ 0 ∉ text ∧
        plainFormat text = true) ∨ (code ≠ [] ∧ ∃ reason c more, rest = reason ++ c :: more ∧
        (∀ y ∈ reason, (y ≠ 13 && y ≠ 10) = true) ∧ (c ≠ 13 && c ≠ 10) = false ∧
          (HTTP_INFO (atoi code).toInt = true ∨ HTTP_SUCCESS (atoi code).toInt = true ∨
            bytes.length < bufsz)))

/-- At a `C`: it can be told whether the name of the header is there, and if it is, the number ends
in the data. -/
def KeyArrived (data : List Byte) : Prop :=
  (15 ≤ data.length ∨ ¬ data.map lower <+: str "content-length:") ∧
    (IsKey data → ∃ blanks digits x rest, data.drop 15 = blanks ++ (digits ++ x :: rest) ∧
      (∀ y ∈ blanks, isSpace y = true) ∧ (∀ y ∈ digits, isDigit y = true) ∧ isDigit x = false ∧
        (digits = [] → isSpace x = false))

/-- The search comes to a `C`; or to the end of what has been received, where the buffer is not at
its end and what is read next is at a `C`, or not. -/
def SearchArrived (v : View) (fin : Nat) : Prop :=
  (∃ xs c more, v.ahead fin = xs ++ c :: more ∧ (∀ x ∈ xs, isC x = false) ∧ isC c = true ∧
    KeyArrived (c :: more)) ∨
  ((∀ x ∈ v.ahead fin, isC x = false) ∧ v.datsz ≤ fin ∧ fin < v.b.bufsz ∧
    ∀ bytes chunks, recv v.chunks (some (v.b.bufsz - fin)) = some (bytes, chunks) →
      KeyArrived bytes)

/-- The IPP header, after what is read before it is looked at. -/
def BodyArrived (e : Junk) (len : Int) (v : View) (fin : Nat) : Prop :=
  ∀ w fin', moreHeaderIn e v fin = some (some (w, fin')) →
    if (w.datsz : Int) - w.i < len then
      ∀ w' fin'', readmoreIn e w fin' = some (some (w', fin'')) → w'.i + 8 ≤ fin''
    else w.i + 8 ≤ fin'

/-- The end of the header comes, and the IPP header behind it; or the end does not come, and the
data does not seem to go on. -/
def EndArrived (e : Junk) (len : Int) (v : View) (fin : Nat) : Prop :=
  (∃ pre body, v.ahead fin = pre ++ 10 :: 13 :: 10 :: body ∧
    (∀ q < pre.length, ¬ IsEnd ((pre ++ 10 :: 13 :: 10 :: body).drop q)) ∧
      BodyArrived e len { v with i := v.i + pre.length + 3 } fin) ∨
  ((∀ q, ¬ IsEnd ((v.ahead fin).drop q)) ∧ v.datsz ≤ fin)

/-- What a round needs. -/
def Arrived (e : Junk) : State × Nat → Prop
  | (.reading b chunks, _) => ∀ bytes chunks', recv chunks (some b.bufsz) = some (bytes, chunks') →
      StatusArrived b.bufsz bytes
  | (.searching v, fin) => SearchArrived v fin
  | (.ending v len, fin) => EndArrived e len v fin
  | _ => True

/-! ## Steps -/

/-- The cursor is in what has been received, which is in the buffer, and in the data. -/
structure Within (v : View) (fin : Nat) : Prop where
  room : v.b.bufsz ≤ v.b.limit
  le : v.i ≤ fin
  fits : fin ≤ v.b.bufsz
  data : fin ≤ v.datsz

/-- What is kept between two rounds. -/
def Sound : State × Nat → Prop
  | (.reading b _, _) => b.bufsz ≤ b.limit
  | (.searching v, fin) => Within v fin
  | (.ending v _, fin) => Within v fin
  | (.done _, _) => True
  | (.fault, _) => False

/-- The bytes between two places. -/
theorem length_bytes (p q : Nat) : (b.bytes p q).length = q - p := by
  unfold Buf.bytes
  rw [List.length_map, List.length_range']

/-- The bytes up to the end of the data. -/
theorem at_bytes (hle : i ≤ fin) (hfin : fin ≤ b.limit) : b.At i (b.bytes i fin) := by
  refine Buf.at_of_mem (by rw [length_bytes]; omega) fun k hk => ?_
  simp [Buf.bytes]

/-- The bytes that are still to be looked at. -/
theorem Within.at (h : Within v fin) : v.b.At v.i (v.ahead fin) :=
  at_bytes h.le (h.fits.trans h.room)

/-- They go up to the end of the data. -/
theorem Within.length (h : Within v fin) : v.i + (v.ahead fin).length = fin := by
  have := h.le
  unfold View.ahead
  rw [length_bytes]
  omega

namespace Buf

/-- A byte in front of the end of the data may be read. -/
theorem At.getIn (h : b.At i (c :: more)) (hi : i < fin) (hfin : fin ≤ b.bufsz) :
    b.getIn fin i = some c := by
  unfold Buf.getIn
  rw [if_pos ⟨Nat.lt_of_lt_of_le hi hfin, hi⟩, get_eq h.head, h.mem]

/-- A byte of the buffer may be written. -/
theorem setIn_eq (h : i < b.bufsz) (hb : b.bufsz ≤ b.limit) : b.setIn i c = some (b.put i c) := by
  unfold Buf.setIn
  rw [if_pos h, set_eq (Nat.lt_of_lt_of_le h hb)]

/-- A loop that skips bytes stays in the data if it stops there. -/
theorem At.skipIn {test : Byte → Bool} (h : b.At i (xs ++ c :: more))
    (hpass : ∀ x ∈ xs, test x = true) (hstop : test c = false) (hi : i + xs.length < fin)
    (hfin : fin ≤ b.bufsz) : b.skipIn fin (fun _ => test) i = some (i + xs.length) := by
  unfold Buf.skipIn
  rw [h.skipWhile hpass hstop, Option.filter_some, if_pos]
  simp only [Bool.and_eq_true, decide_eq_true_eq]
  exact ⟨Nat.lt_of_lt_of_le hi hfin, hi⟩

/-- The comparison ends in the data. -/
theorem At.startsWithIn {s : List Byte} (h : b.At i data) (hi : i + data.length ≤ fin)
    (hfin : fin ≤ b.bufsz) (hdata : s.length ≤ data.length ∨ ¬ data.map lower <+: s) :
    b.startsWithIn fin i s =
      some (decide (s.length ≤ data.length ∧ (data.take s.length).map lower = s)) := by
  induction s generalizing i data with
  | nil => simp [Buf.startsWithIn]
  | cons c s ih =>
    cases data with
    | nil => exact absurd hdata (by simp)
    | cons x data =>
      rw [List.length_cons] at hi
      unfold Buf.startsWithIn
      rw [h.getIn (by omega) hfin, Option.bind_eq_bind, Option.bind_some]
      by_cases hx : lower x = c
      · have hrest : s.length ≤ data.length ∨ ¬ data.map lower <+: s := by
          rcases hdata with hlen | hnot
          · exact Or.inl (Nat.le_of_succ_le_succ hlen)
          · refine Or.inr fun hpre => hnot ?_
            rw [List.map_cons, hx]
            exact List.cons_prefix_cons.mpr ⟨rfl, hpre⟩
        rw [if_pos hx, ih h.tail (by omega) hrest]
        simp [hx]
      · rw [if_neg hx]
        simp [hx]

/-- Three bytes of the data may be compared. -/
theorem At.isEndIn {x y z : Byte} (h : b.At i (x :: y :: z :: more)) (hi : i + 3 ≤ fin)
    (hfin : fin ≤ b.bufsz) : b.isEndIn fin i = some (decide ([x, y, z] = [10, 13, 10])) := by
  unfold Buf.isEndIn
  rw [h.getIn (by omega) hfin, h.tail.getIn (by omega) hfin, h.tail.tail.getIn (by omega) hfin]
  simp only [Option.bind_eq_bind, Option.bind_some]
  by_cases hx : x = 10
  · by_cases hy : y = 13
    · simp [hx, hy]
    · simp [hx, hy]
  · simp [hx]

/-- So may any number of them be read. -/
theorem At.mapMIn (h : b.At i data) (hi : i + data.length ≤ fin) (hfin : fin ≤ b.bufsz) :
    (List.range' i data.length).mapM (b.getIn fin) = some data := by
  induction data generalizing i with
  | nil => rfl
  | cons c data ih =>
    rw [List.length_cons] at hi
    rw [List.length_cons, List.range'_succ, List.mapM_cons, h.getIn (by omega) hfin,
      ih h.tail (by omega)]
    rfl

end Buf

/-- A read puts no more than there is room for. -/
theorem recv_le (h : recv chunks (some n) = some (bytes, chunks')) : bytes.length ≤ n := by
  induction chunks with
  | nil => cases h
  | cons c cs ih =>
    cases c with
    | nil => exact ih h
    | cons c bs =>
      match n with
      | 0 => cases h
      | n + 1 =>
        cases h
        rw [List.length_cons]
        exact Nat.succ_le_succ (List.length_take_le ..)

/-- `readmore`, in the buffer: it fails, or the bytes come next. -/
theorem Within.readmoreIn (h : Within v fin) : readmoreIn e v fin = some none ∨
    ∃ w bytes, readmoreIn e v fin = some (some (w, max fin (v.i + bytes.length))) ∧
      w.b.At v.i bytes ∧ w.i = v.i ∧ Within w (max fin (v.i + bytes.length)) ∧
        (v.i < v.b.bufsz → recv v.chunks (some (v.b.bufsz - v.i)) = some (bytes, w.chunks)) := by
  have hle := h.le
  have hfits := h.fits
  have hroom := h.room
  have hdata := h.data
  -- the buffer that is read into
  obtain ⟨b, hb, hlt, hbroom, hsize, hsame⟩ : ∃ b : Buf,
      b = (if v.b.bufsz ≤ v.i then e.grow v.b else v.b) ∧ v.i < b.bufsz ∧ b.bufsz ≤ b.limit ∧
        v.b.bufsz ≤ b.bufsz ∧ (v.i < v.b.bufsz → b = v.b) := by
    refine ⟨_, rfl, ?_⟩
    split
    · next hge =>
      refine ⟨?_, Nat.le_add_right .., Nat.le_add_right .., fun hlt => absurd hge (Nat.not_le.mpr hlt)⟩
      show v.i < v.b.bufsz + IOBUFSZ
      have : 0 < IOBUFSZ := by decide
      omega
    · next hlt => exact ⟨Nat.not_le.mp hlt, hroom, Nat.le_refl _, fun _ => rfl⟩
  unfold Printd.readmoreIn
  dsimp only
  rw [← hb, if_pos (Nat.le_of_lt hlt)]
  cases hrecv : recv v.chunks (some (b.bufsz - v.i)) with
  | none => exact Or.inl rfl
  | some r =>
    obtain ⟨bytes, chunks⟩ := r
    have hbytes := recv_le hrecv
    have hstore : b.storeIn v.i bytes = some (b.fill v.i bytes) := by
      unfold Buf.storeIn
      rw [if_pos (by omega), Buf.store_eq (by omega)]
    refine Or.inr ⟨⟨b.fill v.i bytes, chunks, v.i, v.datsz + (v.i + bytes.length)⟩, bytes, ?_,
      Buf.at_fill (by omega), rfl, ⟨hbroom, ?_, ?_, ?_⟩, fun hin => ?_⟩
    · dsimp only
      rw [hstore, if_pos hle]
      rfl
    · dsimp only
      omega
    · dsimp only [Buf.fill_bufsz]
      omega
    · dsimp only
      omega
    · rw [hsame hin] at hrecv
      exact hrecv

/-- The state behind it is sound. -/
theorem Within.moreHeaderIn (h : Within v fin) : moreHeaderIn e v fin = some none ∨
    ∃ w fin', moreHeaderIn e v fin = some (some (w, fin')) ∧ w.i = v.i ∧ Within w fin' := by
  unfold Printd.moreHeaderIn
  split
  · rcases h.readmoreIn (e := e) with hnone | ⟨w, bytes, hsome, -, hi, hw, -⟩
    · exact Or.inl hnone
    · exact Or.inr ⟨w, _, hsome, hi, hw⟩
  · exact Or.inr ⟨v, fin, rfl, rfl, h⟩

/-- The format ends in the data. -/
theorem logMsgIn_sound {text : List Byte} (h : b.At 0 (text ++ 0 :: more)) (htext : 0 ∉ text)
    (hplain : plainFormat text = true) (hlt : text.length < fin) (hfin : fin ≤ b.bufsz) :
    logMsgIn b fin = some () := by
  have hpass : ∀ y ∈ text, decide (y ≠ 0) = true := by
    intro y hy
    exact decide_eq_true fun h0 => htext (h0 ▸ hy)
  have hbytes : b.bytes 0 (0 + text.length) = text := h.left.bytes
  unfold logMsgIn
  rw [h.skipIn hpass rfl (by omega) hfin, Option.bind_eq_bind, Option.bind_some, hbytes, if_pos hplain]

/-- **The status line.** -/
theorem statusLineIn_sound (hb : b.bufsz ≤ b.limit) (h : b.At 0 bytes)
    (hlen : bytes.length ≤ b.bufsz) (harr : StatusArrived b.bufsz bytes) :
    ∃ s, statusLineIn b chunks bytes.length = some s ∧ Sound s := by
  obtain ⟨blanks, code, x, rest, hdrop, hblanks, hcode, hx, hrest⟩ := harr
  have hsize := congrArg List.length hdrop
  simp only [List.length_drop, List.length_append, List.length_cons] at hsize
  have hat : b.At 8 (blanks ++ (code ++ x :: rest)) := by
    rw [← List.take_append_drop 8 bytes, hdrop] at h
    have := h.right
    rwa [List.length_take_of_le (by omega), Nat.zero_add] at this
  have hcodeAt := hat.right
  have hxAt := hcodeAt.right
  unfold statusLineIn
  simp only [Option.bind_eq_bind]
  rcases hrest with ⟨rfl, hspace, text, end', hbytes, htext, hplain⟩ | ⟨hne, reason, c, more, rfl, hreason, hc, hclass⟩
  · -- no number
    rw [hat.skipIn hblanks hspace (by omega) hlen, Option.bind_some,
      hcodeAt.skipIn nofun hx (by omega) hlen, Option.bind_some, List.length_nil, Nat.add_zero,
      if_pos rfl, logMsgIn_sound (hbytes ▸ h) htext hplain (by rw [hbytes]; simp) hlen]
    exact ⟨_, rfl, hb⟩
  · obtain ⟨y, ys, rfl⟩ := List.exists_cons_of_ne_nil hne
    have hspace := isSpace_of_isDigit (hcode y (List.mem_cons_self ..))
    simp only [List.length_append, List.length_cons] at hsize
    have hpos : 8 + blanks.length + (y :: ys).length < bytes.length := by
      rw [List.length_cons]
      omega
    have hreasonAt := (hxAt.put_self (d := 0)).tail
    have hcAt := hreasonAt.right
    have hend : 8 + blanks.length + (y :: ys).length + 1 + reason.length < bytes.length := by
      rw [List.length_cons]
      omega
    rw [hat.skipIn hblanks hspace (by omega) hlen, Option.bind_some,
      hcodeAt.skipIn hcode hx hpos hlen, Option.bind_some,
      if_neg (by rw [List.length_cons]; omega), hcodeAt.left.bytes,
      Buf.setIn_eq (Nat.lt_of_lt_of_le hpos hlen) hb, Option.bind_some,
      hreasonAt.skipIn hreason hc hend hlen, Option.bind_some,
      Buf.setIn_eq (b := b.put _ 0) (Nat.lt_of_lt_of_le hend hlen) hb, Option.bind_some]
    split
    · exact ⟨_, rfl, hb⟩
    · next hinfo =>
      split
      · exact ⟨_, rfl, hb, Nat.le_of_lt hend, hlen, Nat.le_refl _⟩
      · next hsucc =>
        have hlt := (hclass.resolve_left hinfo).resolve_left hsucc
        rw [Buf.setIn_eq (b := (b.put _ 0).put _ 0) hlt hb]
        exact ⟨_, rfl, trivial⟩

/-- **The number.** -/
theorem contentLengthIn_sound (h : Within v fin) (hkey : IsKey (v.ahead fin))
    (harr : KeyArrived (v.ahead fin)) : ∃ s, contentLengthIn e v fin = some s ∧ Sound s := by
  obtain ⟨blanks, digits, x, rest, hdrop, hblanks, hdigits, hx, hspace⟩ := harr.2 hkey
  have hlength := h.length
  have hfits := h.fits
  have hdata := h.data
  have hsize := congrArg List.length hdrop
  simp only [List.length_drop, List.length_append, List.length_cons] at hsize
  have hlen := hkey.1
  have hat : v.b.At (v.i + 15) (blanks ++ (digits ++ x :: rest)) := by
    have := h.at
    rw [← List.take_append_drop 15 (v.ahead fin), hdrop] at this
    have := this.right
    rwa [List.length_take_of_le hlen] at this
  have hdigitsAt := hat.right
  have hblank : v.b.skipIn fin (fun _ => isSpace) (v.i + 15) = some (v.i + 15 + blanks.length) := by
    cases digits with
    | nil => exact hat.skipIn hblanks (hspace rfl) (by omega) hfits
    | cons y ys =>
      exact hat.skipIn hblanks (isSpace_of_isDigit (hdigits y (List.mem_cons_self ..))) (by omega)
        hfits
  have hpos : v.i + 15 + blanks.length + digits.length < fin := by omega
  have hnext : Within { v with
      b := v.b.put (v.i + 15 + blanks.length + digits.length) 0
      i := v.i + 15 + blanks.length + digits.length + 1 } fin :=
    ⟨h.room, hpos, hfits, hdata⟩
  unfold contentLengthIn
  simp only [Option.bind_eq_bind]
  rw [hblank, Option.bind_some, hdigitsAt.skipIn hdigits hx hpos hfits, Option.bind_some,
    Buf.setIn_eq (Nat.lt_of_lt_of_le hpos hfits) h.room, Option.bind_some]
  rcases hnext.moreHeaderIn (e := e) with hnone | ⟨w, fin', hsome, -, hw⟩
  · rw [hnone]
    exact ⟨_, rfl, trivial⟩
  · rw [hsome]
    exact ⟨_, rfl, hw⟩

/-- At a `C`, or behind what has been received. -/
theorem keyIn_sound (h : Within v fin) (harr : KeyArrived (v.ahead fin)) (hlt : v.i < fin) :
    ∃ s, (do
      let hit ← v.b.startsWithIn fin v.i (str "content-length:")
      if hit then contentLengthIn e v fin else some (.searching { v with i := v.i + 1 }, fin)) =
        some s ∧ Sound s := by
  have hstarts := h.at.startsWithIn (s := str "content-length:") (Nat.le_of_eq h.length) h.fits
    harr.1
  rw [hstarts, Option.bind_eq_bind, Option.bind_some]
  split
  · next hit => exact contentLengthIn_sound h (of_decide_eq_true hit) harr
  · exact ⟨_, rfl, h.room, hlt, h.fits, h.data⟩

/-- **A round of the search.** -/
theorem searchIn_sound (h : Within v fin) (harr : SearchArrived v fin) :
    ∃ s, searchIn e v fin = some s ∧ Sound s := by
  have hlength := h.length
  have hle := h.le
  have hfits := h.fits
  have hdata := h.data
  unfold searchIn
  simp only [Option.bind_eq_bind]
  rcases harr with ⟨xs, c, more, hahead, hxs, hc, hkey⟩ | ⟨hnone, hend, hfull, hkey⟩
  · -- there is a `C`
    have hat := h.at
    rw [hahead] at hat hlength
    rw [List.length_append, List.length_cons] at hlength
    have hskip : v.b.skip (fun i c => c ≠ 67 && c ≠ 99 && i < v.datsz) v.i =
        some (v.i + xs.length) := skip_isC hat hxs hc (by omega)
    have hstop : searchStop v fin (v.i + xs.length) = true := by
      unfold searchStop
      rw [if_pos (by omega)]
      simp only [Bool.and_eq_true, decide_eq_true_eq]
      omega
    have hnext : Within { v with i := v.i + xs.length } fin :=
      ⟨h.room, show v.i + xs.length ≤ fin by omega, hfits, hdata⟩
    have hmore : moreHeaderIn e { v with i := v.i + xs.length } fin =
        some (some ({ v with i := v.i + xs.length }, fin)) := by
      unfold moreHeaderIn
      rw [if_neg (by dsimp only; omega)]
    have hrest : View.ahead { v with i := v.i + xs.length } fin = c :: more := by
      have := hat.right.bytes
      rwa [show v.i + xs.length + (c :: more).length = fin by rw [List.length_cons]; omega] at this
    rw [hskip, Option.filter_some, if_pos hstop, Option.bind_some, hmore, Option.bind_some]
    exact keyIn_sound hnext (hrest ▸ hkey) (by dsimp only; omega)
  · -- the end of the data
    have hfin : v.b.At fin [v.b.mem fin] := by
      have := h.room
      exact ⟨by omega, rfl, show fin + 1 ≤ v.b.limit by omega⟩
    have hat : v.b.At v.i (v.ahead fin ++ [v.b.mem fin]) :=
      Buf.at_append.mpr ⟨h.at, hlength.symm ▸ hfin⟩
    have hskip : v.b.skip (fun i c => c ≠ 67 && c ≠ 99 && i < v.datsz) v.i = some fin := by
      have hstop : (decide (v.b.mem fin ≠ 67) && decide (v.b.mem fin ≠ 99) &&
          decide (v.i + (v.ahead fin).length < v.datsz)) = false := by
        rw [hlength, decide_eq_false (Nat.not_lt.mpr hend), Bool.and_false]
      have hskip : v.b.skip (fun i c => c ≠ 67 && c ≠ 99 && i < v.datsz) v.i =
          some (v.i + (v.ahead fin).length) := by
        refine hat.skip (fun k hk => ?_) hstop
        have hc := hnone _ (List.getElem_mem hk)
        unfold isC at hc
        simp only [Bool.or_eq_false_iff, decide_eq_false_iff_not] at hc
        have hi : v.i + k < v.datsz := by omega
        simp [hc, hi]
      rwa [hlength] at hskip
    have hstop : searchStop v fin fin = true := by
      unfold searchStop
      rw [if_neg (Nat.not_lt.mpr hend)]
      simp only [Bool.and_eq_true, decide_eq_true_eq]
      exact ⟨hfull, Nat.le_max_right ..⟩
    have hnext : Within { v with i := fin } fin := ⟨h.room, Nat.le_refl _, hfits, hdata⟩
    rw [hskip, Option.filter_some, if_pos hstop, Option.bind_some]
    unfold moreHeaderIn
    rw [if_pos (by exact hend)]
    -- the read fails, or more data has come behind the end
    rcases hnext.readmoreIn (e := e) with hnot | ⟨w, bytes, hsome, hbytes, hi, hw, hrecv⟩
    · rw [hnot]
      exact ⟨_, rfl, trivial⟩
    · have hnew := hrecv hfull
      have hpos := (recv_left hnew).1
      have hahead : w.ahead (max fin (fin + bytes.length)) = bytes := by
        unfold View.ahead
        rw [hi, Nat.max_eq_right (Nat.le_add_right ..)]
        exact hbytes.bytes
      rw [hsome, Option.bind_some]
      refine keyIn_sound hw ?_ ?_
      · rw [hahead]
        exact hkey _ _ hnew
      · rw [hi]
        dsimp only
        omega

/-! ## The end of the header -/

/-- The scan finds the first end that is there. -/
theorem scanEndIn_found {pre : List Byte} (hfirst : ∀ q < pre.length,
      ¬ IsEnd ((pre ++ 10 :: 13 :: 10 :: more).drop q))
    (h : b.At i (pre ++ 10 :: 13 :: 10 :: more)) (hi : i + pre.length + 3 ≤ fin)
    (hfits : fin ≤ b.bufsz) (hd : fin ≤ datsz) (hn : pre.length < n) :
    scanEndIn b fin datsz n i = some (true, i + pre.length + 3) := by
  induction pre generalizing i n with
  | nil =>
    obtain ⟨n, rfl⟩ := Nat.exists_eq_succ_of_ne_zero (Nat.ne_of_gt hn)
    rw [List.length_nil, Nat.add_zero] at hi
    unfold scanEndIn
    rw [if_pos (by omega), Buf.At.isEndIn h hi hfits]
    rfl
  | cons x pre ih =>
    obtain ⟨n, rfl⟩ := Nat.exists_eq_succ_of_ne_zero (Nat.ne_of_gt (Nat.zero_lt_of_lt hn))
    rw [List.length_cons] at hi hn
    obtain ⟨y, z, more', hmore⟩ := three_of_end pre more
    have hend := h
    rw [List.cons_append, hmore] at hend
    have hnot := hfirst 0 (Nat.succ_pos _)
    rw [List.drop_zero, List.cons_append, hmore] at hnot
    unfold scanEndIn
    rw [if_pos (by omega), hend.isEndIn (by omega) hfits]
    have hfalse : decide ([x, y, z] = [10, 13, 10]) = false := decide_eq_false hnot
    rw [hfalse]
    have hrest := ih (i := i + 1) (n := n)
      (fun q hq => hfirst (q + 1) (Nat.succ_lt_succ hq)) h.tail (by omega) (by omega)
    have hassoc : i + (x :: pre).length + 3 = i + 1 + pre.length + 3 := by
      rw [List.length_cons]
      omega
    rw [hassoc]
    exact hrest

/-- The scan of data without an end stops before the end of the data. -/
theorem scanEndIn_none (hnone : ∀ q, ¬ IsEnd (data.drop q)) (h : b.At i data)
    (hi : i + data.length = fin) (hfits : fin ≤ b.bufsz) (hd : datsz ≤ fin) :
    ∃ j, scanEndIn b fin datsz n i = some (false, j) ∧ j ≤ fin := by
  induction n generalizing i data with
  | zero => exact ⟨i, rfl, by omega⟩
  | succ n ih =>
    unfold scanEndIn
    split
    · next hlt =>
      obtain ⟨x, y, z, more, rfl⟩ : ∃ x y z more, data = x :: y :: z :: more := by
        rcases data with - | ⟨x, - | ⟨y, - | ⟨z, more⟩⟩⟩
        · exact absurd hi (by rw [List.length_nil]; omega)
        · exact absurd hi (by rw [List.length_singleton]; omega)
        · exact absurd hi (by simp only [List.length_cons, List.length_nil]; omega)
        · exact ⟨x, y, z, more, rfl⟩
      have hfalse : decide ([x, y, z] = [10, 13, 10]) = false := decide_eq_false (hnone 0)
      rw [List.length_cons] at hi
      rw [h.isEndIn (by omega) hfits, hfalse]
      exact ih (fun q => hnone (q + 1)) h.tail (by omega)
    · exact ⟨i, rfl, by omega⟩

/-- **The IPP header**, when it has been received. -/
theorem ippStatusIn_sound (h : Within v fin) (hlen : v.i + 8 ≤ fin) :
    ∃ s, ippStatusIn jobid v fin = some s ∧ Sound s := by
  have hroom := h.fits.trans h.room
  have hslice : ∀ p q, p + q ≤ 8 → ∃ bytes,
      (List.range' (v.i + p) q).mapM (v.b.getIn fin) = some bytes := by
    intro p q hpq
    have hat : v.b.At (v.i + p) (v.b.bytes (v.i + p) (v.i + p + q)) :=
      at_bytes (Nat.le_add_right ..) (by omega)
    have hlength : (v.b.bytes (v.i + p) (v.i + p + q)).length = q := by
      rw [length_bytes, Nat.add_sub_cancel_left]
    have hmap := hat.mapMIn (by rw [hlength]; omega) h.fits
    rw [hlength] at hmap
    exact ⟨_, hmap⟩
  obtain ⟨st, hst⟩ := hslice 2 2 (by decide)
  obtain ⟨r, hr⟩ := hslice 4 4 (by decide)
  unfold ippStatusIn
  simp only [Option.bind_eq_bind]
  rw [hst, Option.bind_some, hr, Option.bind_some]
  split
  · exact ⟨_, rfl, trivial⟩
  · exact ⟨_, rfl, trivial⟩

/-- **A round of the loop for the end of the header.** -/
theorem findEndIn_sound (h : Within v fin) (harr : EndArrived e len v fin) :
    ∃ s, findEndIn e jobid v len fin = some s ∧ Sound s := by
  have hlength := h.length
  have hfits := h.fits
  have hdata := h.data
  unfold findEndIn
  simp only [Option.bind_eq_bind]
  rcases harr with ⟨pre, body, hahead, hfirst, hbody⟩ | ⟨hnone, hend⟩
  · have hat := h.at
    rw [hahead] at hat hlength
    simp only [List.length_append, List.length_cons] at hlength
    have hnext : Within { v with i := v.i + pre.length + 3 } fin :=
      ⟨h.room, show v.i + pre.length + 3 ≤ fin by omega, hfits, hdata⟩
    rw [scanEndIn_found hfirst hat (by omega) hfits hdata (by omega), Option.bind_some]
    rcases hnext.moreHeaderIn (e := e) with hnot | ⟨w, fin', hsome, -, hw⟩
    · dsimp only at hnot ⊢
      rw [hnot]
      exact ⟨_, rfl, trivial⟩
    · -- the empty line is there, and the body begins behind it
      have hbody' := hbody w fin' hsome
      dsimp only at hsome ⊢
      rw [hsome, Option.bind_some]
      simp only [orOutIn, if_true]
      unfold bodyIn
      split at hbody'
      · next hlt =>
        rw [if_pos hlt]
        rcases hw.readmoreIn (e := e) with hnot | ⟨w', bytes, hread, -, hi, hw', -⟩
        · rw [hnot]
          exact ⟨_, rfl, trivial⟩
        · rw [hread]
          exact ippStatusIn_sound hw' (hbody' _ _ hread)
      · next hge =>
        rw [if_neg hge]
        exact ippStatusIn_sound hw hbody'
  · -- it is not there yet
    obtain ⟨j, hscan, hj⟩ := scanEndIn_none (n := v.datsz - v.i) hnone h.at hlength hfits hend
    have hnext : Within { v with i := j } fin := ⟨h.room, hj, hfits, hdata⟩
    rw [hscan, Option.bind_some]
    dsimp only
    rcases hnext.moreHeaderIn (e := e) with hnot | ⟨w, fin', hsome, -, hw⟩
    · rw [hnot]
      exact ⟨_, rfl, trivial⟩
    · rw [hsome]
      exact ⟨_, rfl, hw⟩

/-- **A round of the program**, with what it needs: no access breaks the rules. -/
theorem roundIn_sound {s : State × Nat} (h : Sound s) (harr : Arrived e s) :
    ∃ s', roundIn e jobid s = some s' ∧ Sound s' := by
  obtain ⟨s, fin⟩ := s
  cases s with
  | reading b chunks =>
    have hb : b.bufsz ≤ b.limit := h
    show ∃ s', awaitIn b chunks = some s' ∧ Sound s'
    unfold awaitIn
    cases hrecv : recv chunks (some b.bufsz) with
    | none => exact ⟨_, rfl, trivial⟩
    | some r =>
      obtain ⟨bytes, chunks'⟩ := r
      have hlen := recv_le hrecv
      have hstore : b.storeIn 0 bytes = some (b.fill 0 bytes) := by
        unfold Buf.storeIn
        rw [if_pos (by omega), Buf.store_eq (by omega)]
      dsimp only
      rw [hstore, Option.bind_some]
      exact statusLineIn_sound (b := b.fill 0 bytes) hb (Buf.at_fill (by omega)) hlen
        (harr bytes chunks' hrecv)
  | searching v => exact searchIn_sound h harr
  | ending v len => exact findEndIn_sound h harr
  | done success => exact ⟨_, rfl, trivial⟩
  | fault => exact h.elim

/-- One more round at the end. -/
theorem roundsIn_succ (n : Nat) (s : State × Nat) :
    roundsIn e jobid (n + 1) s = (roundsIn e jobid n s).bind (roundIn e jobid) := by
  induction n generalizing s with
  | zero =>
    show (roundIn e jobid s).bind (roundsIn e jobid 0) = roundIn e jobid s
    cases roundIn e jobid s with
    | none => rfl
    | some s' => rfl
  | succ n ih =>
    show (roundIn e jobid s).bind (roundsIn e jobid (n + 1)) =
      ((roundIn e jobid s).bind (roundsIn e jobid n)).bind (roundIn e jobid)
    cases roundIn e jobid s with
    | none => rfl
    | some s' => exact ih s'

/-! ## Answers that come in one read -/

/-- Where the program is in an answer: the response is still to come, after others with a code from
100 to 199; or the name of the header is ahead; or its end is. -/
def Answers (r : Response) (chunks : List (List Byte)) : State × Nat → Prop
  | (.reading b cs, _) => Fits b ∧ ∃ infos, (∀ c ∈ infos, Interim c) ∧
      ∀ n, recv cs n = recv (infos ++ r.bytes :: chunks) n
  | (.searching v, fin) => fin = v.datsz ∧ ∃ pre line, LengthLine line r.body ∧
      v.b.At v.i (pre ++ line) ∧ v.i + (pre ++ line).length = fin ∧
        ∀ q < pre.length, ¬ IsKey ((pre ++ line).drop q)
  | (.ending v len, fin) => fin = v.datsz ∧ len = r.body.length ∧ ∃ pre,
      v.b.At v.i (pre ++ 10 :: 13 :: 10 :: r.body) ∧
        v.i + (pre ++ 10 :: 13 :: 10 :: r.body).length = fin ∧
          ∀ q < pre.length, ¬ IsEnd ((pre ++ 10 :: 13 :: 10 :: r.body).drop q)
  | (.done _, _) => True
  | (.fault, _) => False

/-- The bytes that are still to be looked at are known. -/
theorem Buf.At.ahead (h : v.b.At v.i data) (hfin : v.i + data.length = fin) :
    v.ahead fin = data := by
  unfold View.ahead
  rw [← hfin]
  exact h.bytes

/-- A whole status line is what the first round needs. -/
theorem StatusLine.arrived (l : StatusLine) (more : List Byte) {bufsz : Nat}
    (h : HTTP_INFO l.number = true ∨ (l.bytes ++ more).length < bufsz) :
    StatusArrived bufsz (l.bytes ++ more) := by
  have hblank : ∀ y ∈ [(32 : Byte)], isSpace y = true := List.forall_mem_singleton.mpr rfl
  refine ⟨[32], l.code, 32, l.reason ++ 13 :: 10 :: more, ?_, hblank, l.hcode.2, by decide,
    Or.inr ⟨List.ne_nil_of_length_eq_add_one l.hcode.1, l.reason, 13, 10 :: more, rfl, ?_, by decide, ?_⟩⟩
  · unfold StatusLine.bytes
    rw [List.append_assoc, List.drop_left' l.length_version]
    simp
  · intro y hy
    simpa using l.hreason y hy
  · rw [l.toInt_code]
    exact h.imp id Or.inr

/-- At a `C` in front of the body. -/
theorem LengthLine.arrived {line body pre : List Byte} (h : LengthLine line body)
    (hfirst : ∀ q < pre.length, ¬ IsKey ((pre ++ line).drop q)) : KeyArrived (pre ++ line) := by
  constructor
  · left
    have := h.isKey.1
    rw [List.length_append]
    omega
  · intro hkey
    cases pre with
    | cons y ys => exact absurd hkey (hfirst 0 (Nat.succ_pos _))
    | nil =>
      obtain ⟨name, blanks, digits, x, rest, hline, hname, hblanks, hdigits, hne, hx, -⟩ := h.parts
      rw [List.nil_append, hline, List.drop_left' hname]
      exact ⟨blanks, digits, x, _, rfl, hblanks, hdigits, hx, fun hnil => absurd hnil hne⟩

/-- The next `C` is in front of the name of the header, or the first byte of it. -/
theorem LengthLine.next {line body pre : List Byte} (h : LengthLine line body)
    (hfirst : ∀ q < pre.length, ¬ IsKey ((pre ++ line).drop q)) :
    ∃ xs pre' c more, pre ++ line = xs ++ (pre' ++ line) ∧ pre' ++ line = c :: more ∧
      isC c = true ∧ (∀ x ∈ xs, isC x = false) ∧
        ∀ q < pre'.length, ¬ IsKey ((pre' ++ line).drop q) := by
  cases hfind : pre.find? isC with
  | none =>
    obtain ⟨c, more, hline, hc⟩ := h.isKey.head
    exact ⟨pre, [], c, more, rfl, hline, hc,
      fun x hx => Bool.eq_false_iff.mpr (List.find?_eq_none.mp hfind x hx), nofun⟩
  | some y =>
    obtain ⟨hy, xs, ys, rfl, hxs⟩ := List.find?_eq_some_iff_append.mp hfind
    refine ⟨xs, y :: ys, y, ys ++ line, List.append_assoc .., rfl, hy,
      fun x hx => by simpa using hxs x hx, fun q hq => ?_⟩
    have := hfirst (xs.length + q) (by rw [List.length_append]; omega)
    rwa [List.append_assoc, List.drop_length_add_append] at this

/-- The data of a response are what has been read. -/
theorem awaitIn_fin (h : awaitIn b chunks = some (.searching v, fin)) : fin = v.datsz := by
  unfold awaitIn at h
  split at h
  · cases h
  · obtain ⟨b₁, -, h⟩ := Option.bind_eq_some_iff.mp h
    simp only [statusLineIn, Option.bind_eq_bind] at h
    obtain ⟨statcode, -, h⟩ := Option.bind_eq_some_iff.mp h
    obtain ⟨cp, -, h⟩ := Option.bind_eq_some_iff.mp h
    split at h
    · obtain ⟨_, -, h⟩ := Option.map_eq_some_iff.mp h
      cases h
    · obtain ⟨b₂, -, h⟩ := Option.bind_eq_some_iff.mp h
      obtain ⟨cp', -, h⟩ := Option.bind_eq_some_iff.mp h
      obtain ⟨b₃, -, h⟩ := Option.bind_eq_some_iff.mp h
      split at h
      · cases h
      · split at h
        · cases h
          rfl
        · obtain ⟨b₄, -, h⟩ := Option.bind_eq_some_iff.mp h
          cases h

/-- The data does not get shorter. -/
theorem moreHeaderIn_fin (h : moreHeaderIn e v fin = some (some (w, fin'))) : fin ≤ fin' := by
  unfold moreHeaderIn at h
  split at h
  · unfold readmoreIn at h
    dsimp only at h
    split at h
    · cases h
    · obtain ⟨b', -, hw⟩ := Option.map_eq_some_iff.mp h
      cases hw
      split
      · exact Nat.le_max_left ..
      · exact Nat.le_refl _
  · cases h
    exact Nat.le_refl _

/-- What has been received stays received. -/
theorem searchIn_fin {s : State} (h : searchIn e v fin = some (s, fin')) (hs : s ≠ .done false) :
    fin ≤ fin' := by
  simp only [searchIn, Option.bind_eq_bind] at h
  obtain ⟨i, -, h⟩ := Option.bind_eq_some_iff.mp h
  obtain ⟨m, hmore, h⟩ := Option.bind_eq_some_iff.mp h
  cases m with
  | none =>
    cases h
    exact absurd rfl hs
  | some m =>
    have hle := moreHeaderIn_fin hmore
    obtain ⟨hit, -, h⟩ := Option.bind_eq_some_iff.mp h
    split at h
    · simp only [contentLengthIn, Option.bind_eq_bind] at h
      obtain ⟨contentlen, -, h⟩ := Option.bind_eq_some_iff.mp h
      obtain ⟨cp, -, h⟩ := Option.bind_eq_some_iff.mp h
      obtain ⟨b', -, h⟩ := Option.bind_eq_some_iff.mp h
      obtain ⟨m', hmore', h⟩ := Option.bind_eq_some_iff.mp h
      cases m' with
      | none =>
        cases h
        exact absurd rfl hs
      | some m' =>
        have hle' := moreHeaderIn_fin hmore'
        cases h
        exact hle.trans hle'
    · cases h
      exact hle

section Answers

variable {r : Response} (hlen : r.bytes.length < IOBUFSZ) (hbody : 8 ≤ r.body.length)

include hlen hbody

/-- **What a round needs has arrived.** -/
theorem Answers.arrived {s : State × Nat} (h : Answers r chunks s) : Arrived e s := by
  obtain ⟨s, fin⟩ := s
  cases s with
  | reading b cs =>
    obtain ⟨hb, infos, hinfos, hcs⟩ := h
    intro bytes chunks' hrecv
    rw [hcs, hb.1] at hrecv
    rw [hb.1]
    cases infos with
    | nil =>
      rw [List.nil_append, recv_piece (by exact nofun) (Nat.le_of_lt hlen)] at hrecv
      cases hrecv
      exact r.status.arrived _ (Or.inr hlen)
    | cons c infos =>
      obtain ⟨l, more, rfl, hinfo, hfits⟩ := hinfos c (List.mem_cons_self ..)
      rw [List.cons_append, recv_piece (by exact nofun) hfits] at hrecv
      cases hrecv
      exact l.arrived _ (Or.inl hinfo)
  | searching v =>
    obtain ⟨-, pre, line, hline, hat, hfin, hfirst⟩ := h
    obtain ⟨xs, pre', c, more, hsplit, hcons, hc, hxs, hfirst'⟩ := hline.next hfirst
    refine Or.inl ⟨xs, c, more, ?_, hxs, hc, hcons ▸ hline.arrived hfirst'⟩
    rw [hat.ahead hfin, hsplit, hcons]
  | ending v len =>
    obtain ⟨hdata, hnumber, pre, hat, hfin, hfirst⟩ := h
    refine Or.inl ⟨pre, r.body, hat.ahead hfin, hfirst, ?_⟩
    intro w fin' hmore
    simp only [List.length_append, List.length_cons] at hfin
    unfold moreHeaderIn at hmore
    rw [if_neg (by dsimp only; omega)] at hmore
    cases hmore
    rw [if_neg (by dsimp only; omega)]
    dsimp only
    omega
  | done success => trivial
  | fault => trivial

omit hbody in
/-- A round that reads goes on with the answer. -/
theorem Answers.reading {cs : List (List Byte)} {s' : State × Nat}
    (h : Answers r chunks (.reading b cs, fin)) (hround : awaitIn b cs = some s') :
    Answers r chunks s' := by
  obtain ⟨s', fin'⟩ := s'
  obtain ⟨hb, infos, hinfos, hcs⟩ := h
  have hstep : await (junk []) b (infos ++ r.bytes :: chunks) = some s' := by
    rw [← awaitIn_erase hround]
    unfold await
    rw [hcs]
  cases infos with
  | nil =>
    obtain ⟨b', hb', hat, hline⟩ := await_eq (junk []) chunks r.status
      (header r.lines ++ 13 :: 10 :: r.body) hb (Nat.le_of_lt hlen)
    rw [List.nil_append, show r.bytes = r.status.bytes ++ (header r.lines ++ 13 :: 10 :: r.body)
      from rfl, hline, r.final, if_neg nofun] at hstep
    split at hstep
    · cases hstep
      have hfin := awaitIn_fin hround
      obtain ⟨pre, line, hbehind, hsplit, hfirst⟩ := r.behind
      refine ⟨hfin, pre, line, hbehind, hsplit ▸ hat, ?_, hfirst⟩
      rw [hfin, ← hsplit]
      simp only [List.length_append, List.length_cons, r.status.length_bytes]
      omega
    · rw [Buf.set_eq (by exact Nat.lt_of_lt_of_le hlen hb'.2)] at hstep
      cases hstep
      trivial
  | cons c infos =>
    obtain ⟨l, more, rfl, hinfo, hfits⟩ := hinfos c (List.mem_cons_self ..)
    obtain ⟨b', hb', -, hline⟩ := await_eq (junk []) (infos ++ r.bytes :: chunks) l more hb hfits
    rw [List.cons_append, hline, if_pos hinfo] at hstep
    cases hstep
    exact ⟨hb', infos, fun c hc => hinfos c (List.mem_cons_of_mem _ hc), fun n => rfl⟩

omit hbody in
/-- A round of the search goes on with the answer. -/
theorem Answers.searching {s' : State × Nat} (h : Answers r chunks (.searching v, fin))
    (hs : Sound s') (hround : searchIn e v fin = some s') : Answers r chunks s' := by
  obtain ⟨s', fin'⟩ := s'
  obtain ⟨rfl, pre, line, hline, hat, hfin, hfirst⟩ := h
  obtain ⟨xs, pre', c, more, hsplit, hcons, hc, hxs, hfirst'⟩ := hline.next hfirst
  have hlong := hline.isKey.1
  have hsmall : r.body.length < 2 ^ 31 := by
    have hbytes : r.bytes.length = r.status.bytes.length +
        ((header r.lines).length + (r.body.length + 1 + 1)) := by
      unfold Response.bytes
      simp only [List.length_append, List.length_cons]
    have : IOBUFSZ < 2 ^ 31 := by decide
    omega
  rw [hsplit] at hat hfin
  simp only [List.length_append] at hfin
  have hstep := searchIn_erase hround
  rw [search_eq (hcons ▸ hat) hxs hc (by omega) (by rw [← hcons, List.length_append]; omega),
    ← hcons] at hstep
  split at hstep
  · next hkey =>
    -- at the name
    obtain rfl : pre' = [] := by
      by_contra hne
      exact hfirst' 0 (List.length_pos_iff.mpr hne) hkey
    obtain ⟨b', i', rest, -, hat', hi', hend, hcontent⟩ := hline.contentLength (e := e)
      v.chunks v.datsz hat.right (by rw [List.length_nil] at hfin; omega) hsmall
    rw [hcontent] at hstep
    cases hstep
    have hle : fin' ≤ v.datsz := Within.data (v := ⟨b', v.chunks, i', v.datsz⟩) hs
    have hfin' : fin' = v.datsz := Nat.le_antisymm hle (searchIn_fin hround nofun)
    refine ⟨hfin', rfl, rest, hat', ?_, hend⟩
    rw [hi', hfin', ← hfin, List.length_nil]
    omega
  · next hkey =>
    -- at another `C`
    cases hstep
    cases pre' with
    | nil => exact absurd hline.isKey hkey
    | cons y ys =>
      have hle : fin' ≤ v.datsz := Within.data (v := { v with i := v.i + xs.length + 1 }) hs
      have hfin' : fin' = v.datsz := Nat.le_antisymm hle (searchIn_fin hround nofun)
      refine ⟨hfin', ys, line, hline, hat.right.tail, ?_, fun q hq => hfirst' (q + 1) (by
        rw [List.length_cons]
        omega)⟩
      rw [List.length_cons] at hfin
      rw [hfin', List.length_append]
      dsimp only
      omega

omit hlen in
/-- A round that looks for the end of the header goes on with the answer. -/
theorem Answers.ending {s' : State × Nat} (h : Answers r chunks (.ending v len, fin))
    (hround : findEndIn e jobid v len fin = some s') : Answers r chunks s' := by
  obtain ⟨s', fin'⟩ := s'
  obtain ⟨rfl, hnumber, pre, hat, hfin, hfirst⟩ := h
  simp only [List.length_append, List.length_cons] at hfin
  have hstep : round e jobid (.ending v len) = s' :=
    congrArg (Option.getD · State.fault) (findEndIn_erase hround)
  rw [ending_answer e jobid v.chunks v.datsz len hfirst hat (by omega) (by omega) hbody] at hstep
  rw [← hstep]
  trivial

/-- **The next place in the answer.** -/
theorem Answers.step {s s' : State × Nat} (h : Answers r chunks s) (hs : Sound s')
    (hround : roundIn e jobid s = some s') : Answers r chunks s' := by
  obtain ⟨s, fin⟩ := s
  cases s with
  | reading b cs => exact h.reading hlen hround
  | searching v => exact h.searching hlen hs hround
  | ending v len => exact h.ending hbody hround
  | done success =>
    cases hround
    trivial
  | fault => exact h.elim

end Answers

/-- **An answer in one read** has always arrived as far as it is looked at. -/
theorem answer_arrived (e : Junk) (jobid : Int) {infos : List (List Byte)} {r : Response}
    (chunks : List (List Byte)) (hinfos : ∀ c ∈ infos, Interim c) (hlen : r.bytes.length < IOBUFSZ)
    (hbody : 8 ≤ r.body.length) (n : Nat) (s : State × Nat)
    (h : roundsIn e jobid n (start e (infos ++ r.bytes :: chunks), 0) = some s) : Arrived e s := by
  have hrun : ∃ s, roundsIn e jobid n (start e (infos ++ r.bytes :: chunks), 0) = some s ∧
      Sound s ∧ Answers r chunks s := by
    clear h
    induction n with
    | zero => exact ⟨_, rfl, Nat.le_add_right .., fits_malloc e, infos, hinfos, fun n => rfl⟩
    | succ n ih =>
      obtain ⟨s, hs, hsound, hanswers⟩ := ih
      obtain ⟨s', hround, hsound'⟩ : ∃ s', roundIn e jobid s = some s' ∧ Sound s' :=
        roundIn_sound hsound (hanswers.arrived hlen hbody)
      refine ⟨s', ?_, hsound', hanswers.step hlen hbody hsound' hround⟩
      rw [roundsIn_succ, hs, Option.bind_some, hround]
  obtain ⟨s', hs', -, hanswers⟩ := hrun
  cases hs'.symm.trans h
  exact hanswers.arrived hlen hbody

/-- **`printer_status`** stays inside its buffer, and interprets only what it has received, in every
run in which each round finds what it needs. -/
theorem printer_status_bounds (e : Junk) (jobid : Int) (chunks : List (List Byte))
    (harr : ∀ n s, roundsIn e jobid n (start e chunks, 0) = some s → Arrived e s) (n : Nat) :
    ∃ s, roundsIn e jobid n (start e chunks, 0) = some s ∧
      rounds e jobid n (start e chunks) = s.1 := by
  have hsound : ∃ s, roundsIn e jobid n (start e chunks, 0) = some s ∧ Sound s := by
    induction n with
    | zero => exact ⟨_, rfl, Nat.le_add_right ..⟩
    | succ n ih =>
      obtain ⟨s, hs, hsound⟩ := ih
      rw [roundsIn_succ, hs, Option.bind_some]
      exact roundIn_sound hsound (harr n s hs)
  obtain ⟨s, hs, -⟩ := hsound
  exact ⟨s, hs, rounds_erase hs⟩

/-- A response that accepts the job, after one that is not final. -/
theorem printer_status_bounds_accepted : ∃ fin, roundsIn (junk []) 1 4
    (start (junk []) ([continueLine.bytes] ++ shortResponse.bytes :: []), 0) =
      some (.done true, fin) := by
  obtain ⟨⟨s, fin⟩, hs, hrounds⟩ := printer_status_bounds (junk []) 1
    ([continueLine.bytes] ++ shortResponse.bytes :: []) (answer_arrived (junk []) 1 [] (by
      intro c hc
      rw [List.mem_singleton.mp hc]
      exact ⟨continueLine, [], (List.append_nil _).symm, by decide, by decide⟩)
    (by decide) (by decide)) 4
  have hvalue : (rounds (junk []) 1 4 (start (junk []) ([continueLine.bytes] ++
      shortResponse.bytes :: []))).value = some true := by decide +kernel
  rw [hrounds] at hvalue
  cases s with
  | done success =>
    cases hvalue
    exact ⟨fin, hs⟩
  | _ => exact absurd hvalue nofun

/-- **A single byte**: the status code is looked for behind it. -/
theorem printer_status_unreceived : ∃ (e : Junk) (jobid : Int) (chunks : List (List Byte)) (n : Nat),
    roundsIn e jobid n (start e chunks, 0) = none :=
  ⟨junk [], 1, [[72]], 1, Option.isNone_iff_eq_none.mp (by decide +kernel)⟩

end LearningNotes.Printd
