import LearningNotes.Printd.StatusScan

/-!
# What `printer_status` makes of an answer

A `Response` is what a printer sends: a status line, header lines with one `Content-Length`, an
empty line, and a body of that length. When it comes in one read, `printer_status` returns 1
exactly if the printer has accepted the job it was asked about (`printer_status_answer`).
-/

namespace LearningNotes.Printd

variable {e : Junk} {jobid : Int} {b : Buf} {chunks : List (List Byte)} {i k n datsz : Nat}
  {data more : List Byte}

/-! ## Responses -/

/-- `HTTP/x.y`, a status code of three digits, and a reason. -/
structure StatusLine where
  major : Byte
  minor : Byte
  code : List Byte
  reason : List Byte
  hcode : code.length = 3 ∧ ∀ c ∈ code, isDigit c = true
  hreason : ∀ c ∈ reason, c ≠ 13 ∧ c ≠ 10

/-- The status code. -/
def StatusLine.number (l : StatusLine) : Nat := leadingDigits l.code

/-- `HTTP/x.y` -/
def StatusLine.version (l : StatusLine) : List Byte := str "HTTP/" ++ l.major :: (str "." ++ [l.minor])

def StatusLine.bytes (l : StatusLine) : List Byte :=
  l.version ++ ([32] ++ (l.code ++ 32 :: (l.reason ++ [13, 10])))

/-- The lines of a header, each with its end. -/
def header (lines : List (List Byte)) : List Byte := (lines.map (· ++ [13, 10])).flatten

/-- After white space there is the decimal number `n`. -/
def Measures (text : List Byte) (n : Nat) : Prop :=
  ∃ blanks digits rest, text = blanks ++ (digits ++ rest) ∧ (∀ c ∈ blanks, isSpace c = true) ∧
    (∀ c ∈ digits, isDigit c = true) ∧ digits ≠ [] ∧ (∀ c ∈ rest.head?, isDigit c = false) ∧
      leadingDigits digits = n

/-- A final response. A line has no line feed in it; `Content-Length:` is at `key` in the header,
and nowhere else there. -/
structure Response where
  status : StatusLine
  lines : List (List Byte)
  key : Nat
  body : List Byte
  final : HTTP_INFO status.number = false
  hlines : ∀ l ∈ lines, l ≠ [] ∧ 10 ∉ l
  isKey : IsKey ((header lines).drop key)
  once : ∀ k, IsKey ((header lines).drop k) → k = key
  measures : Measures ((header lines).drop (key + 15)) body.length

def Response.bytes (r : Response) : List Byte :=
  r.status.bytes ++ (header r.lines ++ 13 :: 10 :: r.body)

/-- The job that the IPP header is about. -/
def Response.requestId (r : Response) : Int :=
  (BitVec.ofNat 32 (bigEndian ((r.body.drop 4).take 4))).toInt

/-- The status in the IPP header. -/
def Response.ippStatus (r : Response) : Nat := bigEndian ((r.body.drop 2).take 2)

/-- The printer has accepted the job. -/
def Response.Accepts (r : Response) (jobid : Int) : Prop :=
  (200 ≤ r.status.number ∧ r.status.number ≤ 299) ∧ r.requestId = jobid ∧ r.ippStatus ≤ 255

instance (r : Response) (jobid : Int) : Decidable (r.Accepts jobid) :=
  inferInstanceAs (Decidable (_ ∧ _))

/-- A response with a code from 100 to 199, that can be read at once. -/
def Interim (bytes : List Byte) : Prop :=
  ∃ (l : StatusLine) (more : List Byte), bytes = l.bytes ++ more ∧ HTTP_INFO l.number = true ∧
    bytes.length ≤ IOBUFSZ

/-! ## The header -/

theorem IsKey.append (h : IsKey data) (more : List Byte) : IsKey (data ++ more) := by
  refine ⟨by rw [List.length_append]; exact Nat.le_add_right_of_le h.1, ?_⟩
  rw [List.take_append_of_le_length h.1]
  exact h.2

theorem IsKey.of_append (h : IsKey (data ++ more)) (hlen : 15 ≤ data.length) : IsKey data := by
  refine ⟨hlen, ?_⟩
  have hmap := h.2
  rwa [List.take_append_of_le_length hlen] at hmap

theorem header_cons (l : List Byte) (lines : List (List Byte)) :
    header (l :: lines) = l ++ 13 :: 10 :: header lines := by
  unfold header
  rw [List.map_cons, List.flatten_cons, List.append_assoc]
  rfl

/-- A header that is not empty ends with the end of a line. -/
theorem header_concat {lines : List (List Byte)} (h : header lines ≠ []) :
    ∃ front, header lines = front ++ [13, 10] := by
  induction lines with
  | nil => exact absurd rfl h
  | cons l lines ih =>
    rw [header_cons]
    by_cases hnil : header lines = []
    · exact ⟨l, by rw [hnil]⟩
    · obtain ⟨front, hfront⟩ := ih hnil
      exact ⟨l ++ 13 :: 10 :: front, by rw [hfront]; simp⟩

theorem not_isEnd {c : Byte} (h : c ≠ 10) : ¬ IsEnd (c :: more) := fun hend =>
  h (List.cons.inj hend).1

/-- **Before its last byte, a header is not ended.** -/
theorem not_isEnd_header (more : List Byte) {lines : List (List Byte)} (hlines : ∀ l ∈ lines, l ≠ [] ∧ 10 ∉ l)
    (hk : k + 1 < (header lines).length) : ¬ IsEnd ((header lines ++ more).drop k) := by
  induction lines generalizing k with
  | nil => exact absurd hk (by simp [header])
  | cons l lines ih =>
    have hl := (hlines l (List.mem_cons_self ..)).2
    rw [header_cons] at hk ⊢
    rw [List.length_append, List.length_cons, List.length_cons] at hk
    rw [List.append_assoc]
    rcases Nat.lt_or_ge k l.length with hlt | hge
    · -- in the line
      rw [List.drop_append_of_le_length (Nat.le_of_lt hlt), List.drop_eq_getElem_cons hlt]
      exact not_isEnd fun he => hl (he ▸ List.getElem_mem hlt)
    · obtain ⟨k, rfl⟩ := Nat.exists_eq_add_of_le hge
      rw [List.drop_length_add_append]
      match k with
      | 0 => exact not_isEnd (by decide)
      | 1 =>
        -- at the line feed, with a line behind it
        cases lines with
        | nil => exact absurd hk (by simp [header])
        | cons l' lines =>
          obtain ⟨hne, hl'⟩ := hlines l' (by simp)
          obtain ⟨c, l', rfl⟩ := List.exists_cons_of_ne_nil hne
          rw [header_cons]
          intro hend
          cases l' with
          | nil => exact absurd hend (by simp [IsEnd])
          | cons d l' =>
            have hd : d = 10 := (List.cons.inj (List.cons.inj (List.cons.inj hend).2).2).1
            exact hl' (by simp [hd])
      | k + 2 => exact ih (fun l' hl' => hlines l' (List.mem_cons_of_mem _ hl')) (by omega)

/-- What the number of a header leaves behind: something, and at last a line feed. -/
theorem header_rest {front front' digits rest : List Byte}
    (h : front ++ (digits ++ rest) = front' ++ [13, 10]) (hdigits : ∀ c ∈ digits, isDigit c = true)
    (hne : digits ≠ []) : ∃ x pre, rest = x :: (pre ++ [10]) := by
  have hlast : ∀ {c : Byte} {front' : List Byte}, front ++ digits = front' ++ [c] →
      isDigit c = true := by
    intro c front' he
    obtain ⟨init, last, rfl⟩ := (List.eq_nil_or_concat' digits).resolve_left hne
    rw [← List.append_assoc] at he
    obtain ⟨-, hc⟩ := List.append_inj' he rfl
    rw [← (List.cons.inj hc).1]
    exact hdigits last (by simp)
  rw [← List.append_assoc] at h
  rcases List.eq_nil_or_concat' rest with rfl | ⟨rest, z, rfl⟩
  · rw [List.append_nil, ← List.singleton_append, ← List.append_assoc] at h
    exact absurd (hlast h) (by decide)
  · have hcons : front' ++ [13, 10] = (front' ++ [13]) ++ [10] := by simp
    rw [hcons, ← List.append_assoc] at h
    obtain ⟨hinit, hz⟩ := List.append_inj' h rfl
    cases hz
    cases rest with
    | nil =>
      rw [List.append_nil] at hinit
      exact absurd (hlast hinit) (by decide)
    | cons x rest => exact ⟨x, rest, rfl⟩

/-! ## Reading -/

/-- A piece that fits is read as a whole. -/
theorem recv_piece (hne : data ≠ []) (hn : data.length ≤ n) :
    recv (data :: chunks) (some n) = some (data, [] :: chunks) := by
  obtain ⟨c, bs, rfl⟩ := List.exists_cons_of_ne_nil hne
  rw [List.length_cons] at hn
  obtain ⟨n, rfl⟩ := Nat.exists_eq_succ_of_ne_zero (Nat.ne_of_gt (Nat.zero_lt_of_lt hn))
  unfold recv
  rw [List.take_of_length_le (by omega), List.drop_of_length_le (by omega)]

namespace Buf

/-- The buffer after a read. -/
def fill (b : Buf) (off : Nat) (bytes : List Byte) : Buf :=
  { b with mem := fun k =>
    if off ≤ k ∧ k < off + bytes.length then bytes.getD (k - off) 0 else b.mem k }

@[simp] theorem fill_limit : (b.fill i data).limit = b.limit := rfl
@[simp] theorem fill_bufsz : (b.fill i data).bufsz = b.bufsz := rfl

theorem store_eq (h : i + data.length ≤ b.limit) : b.store i data = some (b.fill i data) := if_pos h

/-- What has been read is there. -/
theorem at_fill (h : i + data.length ≤ b.limit) : (b.fill i data).At i data := by
  refine at_of_mem h fun k hk => ?_
  show (if _ then _ else _) = data[k]
  rw [if_pos ⟨Nat.le_add_right .., by omega⟩, Nat.add_sub_cancel_left,
    List.getD_eq_getElem?_getD, List.getElem?_eq_getElem hk, Option.getD_some]

end Buf

/-- The size of the buffer does not change. -/
def Fits (b : Buf) : Prop := b.bufsz = IOBUFSZ ∧ IOBUFSZ ≤ b.limit

theorem fits_malloc (e : Junk) : Fits e.malloc := ⟨rfl, Nat.le_add_right ..⟩

theorem StatusLine.length_version (l : StatusLine) : l.version.length = 8 := rfl

/-- Three digits are an `int`. -/
theorem StatusLine.toInt_code (l : StatusLine) : (atoi l.code).toInt = l.number := by
  have hlt := leadingDigits_lt l.code
  rw [l.hcode.1] at hlt
  exact toInt_atoi_digits l.hcode.2 (by omega)

/-- **A response is read.** -/
theorem await_eq (e : Junk) (chunks : List (List Byte)) (l : StatusLine) (more : List Byte) (hb : Fits b)
    (hlen : (l.bytes ++ more).length ≤ IOBUFSZ) :
    ∃ b', Fits b' ∧ b'.At (8 + 1 + 3 + 1 + l.reason.length) (0 :: 10 :: more) ∧
      await e b ((l.bytes ++ more) :: chunks) =
        if HTTP_INFO l.number then some (.reading b' ([] :: chunks))
        else if HTTP_SUCCESS l.number then
          some (.searching ⟨b', [] :: chunks, 8 + 1 + 3 + 1 + l.reason.length,
            (l.bytes ++ more).length⟩)
        else (b'.set (l.bytes ++ more).length 0).bind fun _ => some (.done false) := by
  have hsplit : l.bytes ++ more =
      l.version ++ ([32] ++ (l.code ++ 32 :: (l.reason ++ 13 :: (10 :: more)))) := by
    unfold StatusLine.bytes
    simp
  have hne : l.bytes ++ more ≠ [] := by
    rw [hsplit]
    exact nofun
  have hat := Buf.at_fill (b := b) (show 0 + (l.bytes ++ more).length ≤ b.limit by
    rw [Nat.zero_add]
    exact hlen.trans hb.2)
  rw [hsplit] at hat
  have hat := hat.right
  rw [Nat.zero_add, l.length_version, ← hsplit] at hat
  obtain ⟨b', hlimit, hbufsz, hat', hline⟩ := statusLine_eq (e := e) ([] :: chunks)
    (l.bytes ++ more).length hat (List.forall_mem_singleton.mpr rfl) l.hcode.2
    (List.ne_nil_of_length_eq_add_one l.hcode.1) (by decide) (fun y hy => by
      simpa using l.hreason y hy) (by decide)
  rw [l.hcode.1] at hat' hline
  rw [l.toInt_code] at hline
  refine ⟨b', ⟨hbufsz.trans hb.1, ?_⟩, hat', ?_⟩
  · rw [hlimit]
    exact hb.2
  · unfold await
    rw [hb.1, recv_piece hne hlen]
    dsimp only
    rw [Buf.store_eq (by rw [Nat.zero_add]; exact hlen.trans hb.2), Option.bind_some]
    exact hline

/-- Responses that are not final are read over. -/
theorem reading_interim (e : Junk) (jobid : Int) (chunks : List (List Byte)) {infos : List (List Byte)} (h : ∀ c ∈ infos, Interim c) (hb : Fits b) :
    ∃ n b', Fits b' ∧ rounds e jobid (n + 1) (.reading b (infos ++ chunks)) =
      round e jobid (.reading b' chunks) := by
  induction infos generalizing b with
  | nil => exact ⟨0, b, hb, rfl⟩
  | cons c infos ih =>
    obtain ⟨l, more, rfl, hinfo, hlen⟩ := h c (List.mem_cons_self ..)
    obtain ⟨b₁, hb₁, -, hawait⟩ := await_eq e (infos ++ chunks) l more hb hlen
    rw [if_pos hinfo] at hawait
    obtain ⟨n, b', hb', hrounds⟩ := ih (fun c hc => h c (List.mem_cons_of_mem _ hc)) hb₁
    refine ⟨n + 1, b', hb', ?_⟩
    rw [List.cons_append, rounds_succ, round_reading hawait]
    exact hrounds

/-! ## The answer -/

theorem rounds_add (m n : Nat) (s : State) :
    rounds e jobid (m + n) s = rounds e jobid m (rounds e jobid n s) :=
  Function.iterate_add_apply ..

/-- The round that finds the end of the header, with the body behind it. -/
theorem ending_answer (e : Junk) (jobid : Int) (chunks : List (List Byte)) (datsz : Nat) (len : Int)
    {pre body : List Byte} (hfirst : ∀ q < pre.length,
      ¬ IsEnd ((pre ++ 10 :: 13 :: 10 :: body).drop q))
    (h : b.At i (pre ++ 10 :: 13 :: 10 :: body)) (hd : i + pre.length + 3 < datsz)
    (hlen : (i + pre.length + 3 : Nat) + len ≤ datsz) (hbody : 8 ≤ body.length) :
    round e jobid (.ending ⟨b, chunks, i, datsz⟩ len) = .done (decide
      ((BitVec.ofNat 32 (bigEndian ((body.drop 4).take 4))).toInt = jobid ∧
        bigEndian ((body.drop 2).take 2) ≤ 255)) := by
  have hscan := scanEnd_eq (n := datsz - i) datsz hfirst h (by omega) (by omega)
  have hat : b.At (i + pre.length + 3) body := h.right.tail.tail.tail
  have hipp := ippStatus_eq (v := ⟨b, chunks, i + pre.length + 3, datsz⟩) jobid hat hbody
  show (findEnd e jobid _ _).getD .fault = _
  unfold findEnd
  simp only [Option.bind_eq_bind]
  rw [hscan, Option.bind_some]
  rw [moreHeader_eq (by exact hd), Option.bind_some]
  simp only [orOut, if_true]
  unfold Printd.body
  rw [if_neg (by dsimp only; omega), hipp]
  rfl

/-- A header is what comes before the name, the name, its number, and what comes behind. -/
theorem Response.parts (r : Response) : ∃ front name blanks digits x pre,
    header r.lines = front ++ (name ++ (blanks ++ (digits ++ x :: (pre ++ [10])))) ∧
      front.length = r.key ∧ name.length = 15 ∧ (∀ c ∈ blanks, isSpace c = true) ∧
      (∀ c ∈ digits, isDigit c = true) ∧ digits ≠ [] ∧ isDigit x = false ∧
      leadingDigits digits = r.body.length := by
  obtain ⟨blanks, digits, rest, htext, hblanks, hdigits, hne, hrest, hnumber⟩ := r.measures
  have hlen := r.isKey.1
  have hkey : header r.lines = (header r.lines).take r.key ++
      (((header r.lines).drop r.key).take 15 ++ (blanks ++ (digits ++ rest))) := by
    rw [← htext, ← List.drop_drop, List.take_append_drop, List.take_append_drop]
  have hnot : header r.lines ≠ [] := by
    intro hnil
    rw [hnil, List.drop_nil] at hlen
    exact absurd hlen (by decide)
  obtain ⟨front', hfront'⟩ := header_concat hnot
  have hrestAt : ((header r.lines).take r.key ++ (((header r.lines).drop r.key).take 15 ++ blanks)) ++
      (digits ++ rest) = front' ++ [13, 10] := by
    rw [List.append_assoc, List.append_assoc, ← hkey, hfront']
  obtain ⟨x, pre, rfl⟩ := header_rest hrestAt hdigits hne
  refine ⟨_, _, blanks, digits, x, pre, hkey, ?_, List.length_take_of_le hlen, hblanks, hdigits, hne,
    hrest x rfl, hnumber⟩
  rw [List.length_drop] at hlen
  exact List.length_take_of_le (by omega)

/-- The first place where the name of the header is, behind the status line. -/
theorem Response.first (r : Response) (more : List Byte) {q : Nat} (hq : q < r.key + 2) :
    ¬ IsKey ((0 :: 10 :: (header r.lines ++ more)).drop q) := by
  intro hkey
  match q with
  | 0 =>
    obtain ⟨c, _, hc, hisC⟩ := hkey.head
    rw [← (List.cons.inj hc).1] at hisC
    exact absurd hisC (by decide)
  | 1 =>
    obtain ⟨c, _, hc, hisC⟩ := hkey.head
    rw [← (List.cons.inj hc).1] at hisC
    exact absurd hisC (by decide)
  | q + 2 =>
    have hlen := r.isKey.1
    rw [List.length_drop] at hlen
    have hdrop : (0 :: 10 :: (header r.lines ++ more)).drop (q + 2) =
        (header r.lines).drop q ++ more :=
      List.drop_append_of_le_length (by omega)
    rw [hdrop] at hkey
    have := r.once q (hkey.of_append (by rw [List.length_drop]; omega))
    omega

/-- From the name of the header on: the number, the end of the header, and the body. -/
structure LengthLine (line body : List Byte) : Prop where
  isKey : IsKey line
  parts : ∃ name blanks digits x pre,
    line = name ++ (blanks ++ (digits ++ x :: (pre ++ 10 :: 13 :: 10 :: body))) ∧
      name.length = 15 ∧ (∀ c ∈ blanks, isSpace c = true) ∧ (∀ c ∈ digits, isDigit c = true) ∧
      digits ≠ [] ∧ isDigit x = false ∧ leadingDigits digits = body.length ∧
      ∀ q < pre.length, ¬ IsEnd ((pre ++ 10 :: 13 :: 10 :: body).drop q)

/-- **Behind the status line**, the name of the header is at one place. -/
theorem Response.behind (r : Response) : ∃ pre line, LengthLine line r.body ∧
    0 :: 10 :: (header r.lines ++ 13 :: 10 :: r.body) = pre ++ line ∧
      ∀ q < pre.length, ¬ IsKey ((pre ++ line).drop q) := by
  obtain ⟨front, name, blanks, digits, x, pre, hheader, hfront, hname, hblanks, hdigits, hne, hx,
    hnumber⟩ := r.parts
  have hsplit : 0 :: 10 :: (header r.lines ++ 13 :: 10 :: r.body) = (0 :: 10 :: front) ++
      (name ++ (blanks ++ (digits ++ x :: (pre ++ 10 :: 13 :: 10 :: r.body)))) := by
    rw [hheader]
    simp
  have hlength := congrArg List.length hheader
  simp only [List.length_append, List.length_cons, List.length_nil] at hlength
  refine ⟨0 :: 10 :: front, _, ⟨?_, name, blanks, digits, x, pre, rfl, hname, hblanks, hdigits, hne,
    hx, hnumber, ?_⟩, hsplit, ?_⟩
  · have := r.isKey.append (13 :: 10 :: r.body)
    rw [hheader, List.drop_left' hfront] at this
    simpa using this
  · intro q hq hisEnd
    have hdrop : header r.lines ++ 13 :: 10 :: r.body = (front ++ (name ++ (blanks ++ (digits ++ [x])))) ++
        (pre ++ 10 :: 13 :: 10 :: r.body) := by
      rw [hheader]
      simp
    refine not_isEnd_header (13 :: 10 :: r.body)
      (k := (front ++ (name ++ (blanks ++ (digits ++ [x])))).length + q) r.hlines ?_ ?_
    · simp only [List.length_append, List.length_cons, List.length_nil]
      omega
    · rwa [hdrop, List.drop_length_add_append]
  · intro q hq
    rw [← hsplit]
    apply r.first
    rw [← hfront]
    exact hq

/-- The number of the header, which is an `int`. -/
theorem LengthLine.contentLength {line body : List Byte} (h : LengthLine line body)
    (chunks : List (List Byte)) (datsz : Nat) (hat : b.At i line) (hd : i + line.length ≤ datsz) (hsmall : body.length < 2 ^ 31) :
    ∃ b' i' pre, b'.bufsz = b.bufsz ∧ b'.At i' (pre ++ 10 :: 13 :: 10 :: body) ∧
      i' + (pre ++ 10 :: 13 :: 10 :: body).length = i + line.length ∧
      (∀ q < pre.length, ¬ IsEnd ((pre ++ 10 :: 13 :: 10 :: body).drop q)) ∧
      Printd.contentLength e ⟨b, chunks, i, datsz⟩ =
        some (.ending ⟨b', chunks, i', datsz⟩ body.length) := by
  obtain ⟨name, blanks, digits, x, pre, rfl, hname, hblanks, hdigits, hne, hx, hnumber, hend⟩ := h.parts
  obtain ⟨b', -, hbufsz, hpreAt, hcontent⟩ := contentLength_eq (e := e)
    (v := ⟨b, chunks, i, datsz⟩) hat hname hblanks hdigits hne hx
  have hlen : (atoi digits).toInt = body.length := by
    rw [toInt_atoi_digits hdigits (by omega), hnumber]
  simp only [List.length_append, List.length_cons] at hd
  refine ⟨b', _, pre, hbufsz, hpreAt, ?_, hend, ?_⟩
  · simp only [List.length_append, List.length_cons]
    omega
  · rw [hcontent, moreHeader_eq (by dsimp only; omega), hlen]
    rfl

/-- **Behind the status line**: the header and the body. -/
theorem searching_answer (e : Junk) (jobid : Int) (chunks : List (List Byte)) (r : Response) (hbody : 8 ≤ r.body.length)
    (h : b.At i (0 :: 10 :: (header r.lines ++ 13 :: 10 :: r.body))) (hsmall : r.body.length < 2 ^ 31)
    (hd : datsz = i + 2 + (header r.lines).length + 2 + r.body.length) :
    ∃ n, rounds e jobid n (.searching ⟨b, chunks, i, datsz⟩) =
      .done (decide (r.requestId = jobid ∧ r.ippStatus ≤ 255)) := by
  obtain ⟨pre, line, hline, hsplit, hfirst⟩ := r.behind
  have hlength := congrArg List.length hsplit
  simp only [List.length_append, List.length_cons] at hlength
  rw [hsplit] at h
  -- the search
  obtain ⟨n, hn⟩ := searching_found e jobid chunks datsz hline.isKey hfirst h (by
    rw [List.length_append]
    omega)
  obtain ⟨b', i', pre', -, hat', hi', hend, hcontent⟩ := hline.contentLength (e := e)
    chunks datsz h.right (by omega) hsmall
  rw [hcontent] at hn
  -- the end of the header
  simp only [List.length_append, List.length_cons] at hi'
  have hround := ending_answer e jobid chunks datsz r.body.length hend hat' (by omega) (by omega) hbody
  refine ⟨1 + n, ?_⟩
  rw [rounds_add, hn]
  exact hround

theorem StatusLine.length_bytes (l : StatusLine) :
    l.bytes.length = 8 + 1 + 3 + 1 + l.reason.length + 2 := by
  unfold StatusLine.bytes
  simp only [List.length_append, List.length_cons, List.length_nil, l.length_version, l.hcode.1]
  omega

theorem HTTP_SUCCESS_iff (x : Nat) : HTTP_SUCCESS x = true ↔ 200 ≤ x ∧ x ≤ 299 := by
  simp only [HTTP_SUCCESS, Bool.and_eq_true, decide_eq_true_eq]
  omega

/-- **`printer_status`**, when the final response comes in one read: 1 exactly if the printer
accepts the job, and 0 otherwise. -/
theorem printer_status_answer (e : Junk) (jobid : Int) (infos : List (List Byte)) (r : Response)
    (chunks : List (List Byte)) (hinfos : ∀ c ∈ infos, Interim c) (hlen : r.bytes.length < IOBUFSZ)
    (hbody : 8 ≤ r.body.length) : ∃ n, rounds e jobid n (start e (infos ++ r.bytes :: chunks)) =
      .done (decide (r.Accepts jobid)) := by
  obtain ⟨n, b, hb, hn⟩ := reading_interim e jobid (r.bytes :: chunks) hinfos (fits_malloc e)
  obtain ⟨b', hb', hat, hawait⟩ := await_eq e chunks r.status
    (header r.lines ++ 13 :: 10 :: r.body) hb (Nat.le_of_lt hlen)
  have hround : round e jobid (.reading b (r.bytes :: chunks)) =
      (await e b (r.bytes :: chunks)).getD .fault := rfl
  have hbytes : r.bytes = r.status.bytes ++ (header r.lines ++ 13 :: 10 :: r.body) := rfl
  rw [← hbytes, r.final, if_neg nofun] at hawait
  rw [hround, hawait] at hn
  by_cases hok : HTTP_SUCCESS r.status.number = true
  · rw [if_pos hok] at hn
    have hd : r.bytes.length = 8 + 1 + 3 + 1 + r.status.reason.length + 2 +
        (header r.lines).length + 2 + r.body.length := by
      rw [hbytes, List.length_append, r.status.length_bytes, List.length_append, List.length_cons,
        List.length_cons]
      omega
    have hsmall : r.body.length < 2 ^ 31 := by
      have : IOBUFSZ < 2 ^ 31 := by decide
      omega
    obtain ⟨m, hm⟩ := searching_answer e jobid ([] :: chunks) r hbody hat hsmall hd
    refine ⟨m + (n + 1), ?_⟩
    rw [rounds_add, start, hn]
    refine hm.trans (congrArg State.done (decide_eq_decide.mpr ?_))
    exact ⟨fun h => ⟨(HTTP_SUCCESS_iff _).mp hok, h⟩, fun h => h.2⟩
  · rw [if_neg hok, Buf.set_eq (Nat.lt_of_lt_of_le hlen hb'.2)] at hn
    refine ⟨n + 1, ?_⟩
    rw [decide_eq_false fun h => hok ((HTTP_SUCCESS_iff _).mpr h.1)]
    exact hn

set_option maxRecDepth 10000 in
/-- `HTTP/1.1 100 Continue` -/
def continueLine : StatusLine :=
  ⟨49, 49, str "100", str "Continue", by decide, by decide⟩

set_option maxRecDepth 10000 in
/-- A response with the one header line that it must have. -/
def shortResponse : Response where
  status := ⟨49, 49, str "200", str "OK", by decide, by decide⟩
  lines := [str "Content-Length: 8"]
  key := 0
  body := [1, 1, 0, 0, 0, 0, 0, 1]
  final := by decide
  hlines := by decide
  isKey := by decide
  once := by
    intro k hk
    have hlen := hk.1
    rw [List.length_drop] at hlen
    have hlt : k < 5 := by
      have : (header [str "Content-Length: 8"]).length = 19 := by decide
      omega
    have hall : ∀ k < 5, IsKey ((header [str "Content-Length: 8"]).drop k) → k = 0 := by decide
    exact hall k hlt hk
  measures := ⟨[32], [56], [13, 10], by decide, by decide, by decide, by decide, by decide,
    by decide⟩

/-- A `100 Continue` in front of the response does no harm. -/
theorem printer_status_accepted : ∃ n, rounds ⟨fun _ _ => 0, fun _ => 0, fun _ => true⟩ 1 n
    (start ⟨fun _ _ => 0, fun _ => 0, fun _ => true⟩ ([continueLine.bytes] ++ shortResponse.bytes :: [])) =
      .done true := by
  have h := printer_status_answer ⟨fun _ _ => 0, fun _ => 0, fun _ => true⟩ 1 [continueLine.bytes]
    shortResponse [] (by
      intro c hc
      rw [List.mem_singleton.mp hc]
      exact ⟨continueLine, [], (List.append_nil _).symm, by decide, by decide⟩)
    (by decide) (by decide)
  rwa [show decide (shortResponse.Accepts 1) = true by decide] at h

end LearningNotes.Printd
