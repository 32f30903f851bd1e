import LearningNotes.Opend.Request

/-!
# `open.c`

The client's side: `csopen` writes `open`, the name and the flag, with blanks between them and a
null behind them, and reads a descriptor back. The server may get the bytes in any pieces of at most
`MAXLINE` bytes. Only the last piece can be a request that opens something; it is an end of the
text (`last_piece`), and `Carriable` says when no end of the text is a request for another file.

Mirroring notes:
- `sprintf(buf, " %d", oflag)` into 12 bytes has no result when the text and its null need more.
-/

namespace LearningNotes.Opend

/-- `buf` of `csopen`: `sprintf(buf, " %d", oflag)`. -/
def flagText (oflag : Int32) : List Byte := str " " ++ decimalInt oflag.toInt

/-- What `csopen` writes. -/
def csopenText (name : CString) (oflag : Int32) : List Byte :=
  CL_OPEN ++ str " " ++ name.val ++ flagText oflag

def csopenWrites (name : CString) (oflag : Int32) : Option (List Byte) :=
  if (flagText oflag).length + 1 ≤ 12 then some (csopenText name oflag ++ [0]) else none

/-- What the calls of `csopen` return. -/
structure ClientAns where
  cli_conn : Int
  writev : Int
  recvmsg : List Recvmsg
  write : List (List Byte) → List Byte → Int

/-- What has become of a call of `csopen`: the connection that is kept, what `writev` has been given for
it and `write` for the standard error, and the value that is returned. -/
structure Csopen where
  csfd : Int
  writes : List Byte
  passed : List (List Byte)
  ret : RecvFd

/-- `csopen` -/
def csopen (csfd : Int) (a : ClientAns) (name : CString) (oflag : Int32) : Option Csopen :=
  let csfd := if csfd < 0 then a.cli_conn else csfd
  if csfd < 0 then some ⟨csfd, [], [], .ret (-1)⟩
  else
    (csopenWrites name oflag).map fun msg =>
      if a.writev ≠ msg.length then ⟨csfd, msg, [], .ret (-1)⟩
      else
        let (passed, ret) := recvFd a.write a.recvmsg
        ⟨csfd, msg, passed, ret⟩

/-- The request is carried: in whatever pieces the server reads it, whatever it has done before and
whatever `open` returns, it opens nothing but the file, with the flag, or answers with an error. -/
def Carried (strerror : Int → List Byte) (name : CString) (oflag : Int32) : Prop :=
  ∃ msg, csopenWrites name oflag = some msg ∧
    ∀ rs : List Request, rs.flatMap Request.buf = msg → ∀ r ∈ rs, ∀ a v, Vars.Reach strerror v →
      (∃ v' : Vars, (handleRequest strerror a v r).1 = v'.sendErr a.socket r.clifd) ∨
      ∃ rest, (handleRequest strerror a v r).1 = .open name.val oflag :: rest ∧
        ∀ path oflag, .open path oflag ∉ rest

/-- The flag has room, the name has no white space around a single word, and it does not end in
`open`, white space and a single word; the latter two only in requests that are short enough. -/
structure Carriable (name : CString) (oflag : Int32) : Prop where
  flag : -1000000000 < oflag.toInt
  alone : ∀ path, words isWhite name.val = [path] → (csopenText name oflag).length + 1 ≤ MAXLINE →
    path = name.val
  inner : ∀ front c s path, name.val = front ++ CL_OPEN ++ c :: s → isWhite c = true →
    words isWhite s = [path] → MAXLINE < (CL_OPEN ++ c :: s ++ flagText oflag).length + 1

variable {name : CString} {oflag : Int32} {text u t path f : List Byte} {strerror : Int → List Byte}

/-! ## The flag -/

theorem flag_white (i : Int) : ∀ c ∈ decimalInt i, isWhite c = false := by
  intro c hc
  by_contra hw
  have hwhite : c = ' '.toUInt8 ∨ c = '\t'.toUInt8 ∨ c = '\n'.toUInt8 := by
    simpa only [isWhite, Bool.not_eq_false, Bool.or_eq_true, decide_eq_true_eq, or_assoc] using hw
  rcases hwhite with rfl | rfl | rfl
  · exact not_mem_decimalInt (by decide) (by decide) i hc
  · exact not_mem_decimalInt (by decide) (by decide) i hc
  · exact not_mem_decimalInt (by decide) (by decide) i hc

theorem words_flag (i : Int) : words isWhite (decimalInt i) = [decimalInt i] :=
  words_of_word (flag_white i) (decimalInt_ne_nil i)

/-- The server reads the flag that the client has written. -/
theorem atoi_flag (oflag : Int32) : atoi (decimalInt oflag.toInt) = oflag := by
  have hlo := oflag.le_toInt
  have hhi := oflag.toInt_lt
  unfold atoi
  rw [atol_decimalInt, min_eq_right (by omega), max_eq_right (by omega), Int32.ofInt_toInt]

/-- Ten characters are enough for these flags. -/
theorem length_flag_iff (oflag : Int32) :
    (flagText oflag).length + 1 ≤ 12 ↔ -1000000000 < oflag.toInt := by
  have hhi := oflag.toInt_lt
  have hlen : (flagText oflag).length = (decimalInt oflag.toInt).length + 1 := by
    unfold flagText
    rw [List.length_append, Nat.add_comm]
    rfl
  rw [hlen]
  cases hi : oflag.toInt with
  | ofNat n =>
    rw [hi] at hhi
    change (n : Int) < 2 ^ 31 at hhi
    have hn : (decimal n).length ≤ 10 := length_decimal_le (by omega) (by omega)
    refine iff_of_true ?_ ?_
    · show (decimal n).length + 1 + 1 ≤ 12
      omega
    · show -1000000000 < (n : Int)
      omega
  | negSucc n =>
    have hn : (decimal (n + 1)).length ≤ 9 ↔ n + 1 < 10 ^ 9 := length_decimal_le_iff (by omega)
    show (decimal (n + 1)).length + 1 + 1 + 1 ≤ 12 ↔ _
    omega

/-! ## The last piece -/

/-- The only null is at the end. -/
theorem split_null {x y : List Byte} (h : x ++ 0 :: y = text ++ [0]) (htext : 0 ∉ text) :
    x = text ∧ y = [] := by
  rcases List.append_eq_append_iff.mp h with ⟨m, rfl, hm⟩ | ⟨m, rfl, hm⟩
  · cases m with
    | nil => exact ⟨(List.append_nil _).symm, (List.cons.inj hm).2⟩
    | cons c m =>
      refine absurd ?_ htext
      rw [← (List.cons.inj hm).1]
      exact List.mem_append_right _ List.mem_cons_self
  · cases m with
    | nil => exact ⟨List.append_nil _, (List.cons.inj hm).2.symm⟩
    | cons c m => exact absurd (congrArg List.length hm) (by simp)

/-- A piece that ends with a null is an end of the text, and the null. -/
theorem last_piece {rs : List Request} {r : Request} (h : rs.flatMap Request.buf = text ++ [0])
    (htext : 0 ∉ text) (hr : r ∈ rs) (hnull : r.buf.getLast? = some 0) :
    ∃ u t, text = u ++ t ∧ r.buf = t ++ [0] := by
  obtain ⟨l, rest, rfl⟩ := List.append_of_mem hr
  obtain ⟨t, ht⟩ : ∃ t, r.buf = t ++ [0] := List.getLast?_eq_some_iff.mp hnull
  rw [List.flatMap_append, List.flatMap_cons, ht] at h
  have hsplit : (l.flatMap Request.buf ++ t) ++ 0 :: rest.flatMap Request.buf = text ++ [0] := by
    rw [← h]
    simp
  obtain ⟨rfl, -⟩ := split_null hsplit htext
  exact ⟨_, t, rfl, ht⟩

theorem zero_not_mem_text (name : CString) (oflag : Int32) : 0 ∉ csopenText name oflag := by
  have hopen : (0 : Byte) ∉ CL_OPEN ++ str " " := by decide
  have hflag : (0 : Byte) ∉ flagText oflag := by
    unfold flagText
    refine fun h => (List.mem_append.mp h).elim (by decide) ?_
    exact not_mem_decimalInt (by decide) (by decide) _
  unfold csopenText
  refine fun h => (List.mem_append.mp h).elim (fun h => ?_) hflag
  exact (List.mem_append.mp h).elim hopen name.2

/-- An end of the text with more than one word has the whole flag. -/
theorem end_with_flag {p : List Byte} {i : Int} (h : p ++ str " " ++ decimalInt i = u ++ t)
    (hw : 2 ≤ (words isWhite t).length) :
    ∃ s, p = u ++ s ∧ t = s ++ str " " ++ decimalInt i := by
  have hspace : isWhite ' '.toUInt8 = true := by decide
  have hflag := words_flag i
  rw [List.append_assoc] at h
  rcases List.append_eq_append_iff.mp h with ⟨m, rfl, hm⟩ | ⟨s, rfl, hs⟩
  · -- the end starts within the flag, and is one word
    refine absurd hw (Nat.not_le.mpr ?_)
    cases m with
    | nil =>
      change ' '.toUInt8 :: decimalInt i = t at hm
      rw [← hm, words_cons_of_sep _ hspace, hflag]
      exact Nat.lt_succ_self 1
    | cons c m =>
      obtain ⟨-, hm⟩ := List.cons.inj hm
      change decimalInt i = m ++ t at hm
      have hword : ∀ c ∈ t, isWhite c = false := by
        intro c hc
        apply flag_white i
        rw [hm]
        exact List.mem_append_right _ hc
      cases t with
      | nil => exact Nat.zero_lt_two
      | cons b t =>
        rw [words_of_word hword (List.cons_ne_nil b t)]
        exact Nat.lt_succ_self 1
  · exact ⟨s, rfl, by rw [hs, List.append_assoc]⟩

/-- `open` in the text is the one in front, or it stands in the name. -/
theorem open_place {c : Byte} {s : List Byte} (h : CL_OPEN ++ str " " ++ name.val = u ++ (CL_OPEN ++ c :: s)) :
    u = [] ∧ c = ' '.toUInt8 ∧ s = name.val ∨ ∃ front, name.val = front ++ CL_OPEN ++ c :: s := by
  have hopen : CL_OPEN = [111, 112, 101, 110] := by decide
  have hspace : str " " = [32] := by decide
  rw [hopen, hspace] at h
  match u, h with
  | [], h =>
    simp only [List.nil_append, List.cons_append, List.cons.injEq, true_and] at h
    exact Or.inl ⟨rfl, h.1.symm, h.2.symm⟩
  | [_], h => exact absurd h (by simp)
  | [_, _], h => exact absurd h (by simp)
  | [_, _, _], h => exact absurd h (by simp)
  | [_, _, _, _], h => exact absurd h (by simp)
  | _ :: _ :: _ :: _ :: _ :: front, h =>
    simp only [List.nil_append, List.cons_append, List.cons.injEq] at h
    refine Or.inr ⟨front, ?_⟩
    rw [hopen, h.2.2.2.2.2, List.append_assoc]
    rfl

/-- **The ends of the text that are requests**: the whole text, when the name is one word, or the
flag behind an end of the name, when that is `open`, white space and one word. -/
theorem end_of_text (h : csopenText name oflag = u ++ t) (hw : words isWhite t = [CL_OPEN, path, f])
    (hlead : t.takeWhile isWhite = []) :
    f = decimalInt oflag.toInt ∧
      (t = csopenText name oflag ∧ words isWhite name.val = [path] ∨
        ∃ front c s, name.val = front ++ CL_OPEN ++ c :: s ∧ isWhite c = true ∧
          words isWhite s = [path] ∧ t = CL_OPEN ++ c :: s ++ flagText oflag) := by
  unfold csopenText flagText at h
  rw [← List.append_assoc] at h
  obtain ⟨s, hp, ht⟩ := end_with_flag h (hw ▸ Nat.le_of_ble_eq_true rfl)
  have hws : words isWhite t = words isWhite s ++ [decimalInt oflag.toInt] := by
    rw [ht, List.append_assoc, ← words_flag]
    exact words_append_cons s _ (by decide)
  have hsplit : [CL_OPEN, path] ++ [f] = words isWhite s ++ [decimalInt oflag.toInt] := hw.symm.trans hws
  obtain ⟨hs, hf⟩ := List.append_inj' hsplit rfl
  refine ⟨(List.cons.inj hf).1, ?_⟩
  have hhead : ∀ a ∈ s.head?, isWhite a = false := by
    intro a ha
    cases s with
    | nil => exact absurd ha (by simp)
    | cons b s =>
      obtain rfl : b = a := Option.some.inj ha
      by_contra hb
      rw [ht, List.cons_append, List.cons_append,
        List.takeWhile_cons_of_pos (by simpa using hb)] at hlead
      exact absurd hlead (by simp)
  rcases words_eq_cons hs.symm hhead with ⟨-, hnil⟩ | ⟨c, s', rfl, hc, hpath⟩
  · exact absurd hnil (by simp)
  · rcases open_place hp with ⟨rfl, rfl, rfl⟩ | ⟨front, hname⟩
    · refine Or.inl ⟨?_, hpath⟩
      unfold csopenText flagText
      rw [← List.append_assoc]
      exact h.symm
    · refine Or.inr ⟨front, c, s', hname, hc, hpath, ?_⟩
      rw [ht, List.append_assoc]
      rfl

/-! ## What the server opens -/

/-- The request is handled well when no end of the text that fits is a request for another file. -/
theorem Carriable.carried (h : Carriable name oflag) : Carried strerror name oflag := by
  refine ⟨csopenText name oflag ++ [0], if_pos ((length_flag_iff oflag).mpr h.flag), ?_⟩
  intro rs hrs r hr a v _
  rcases handleRequest_opens strerror a v r with ⟨path, f, hnull, ⟨hw, hlead⟩, rest, hcalls, hrest⟩ | ⟨-, herr⟩
  · obtain ⟨u, t, hut, hbuf⟩ := last_piece hrs (zero_not_mem_text name oflag) hr hnull
    have ht : (0 : Byte) ∉ t := by
      intro hmem
      apply zero_not_mem_text name oflag
      rw [hut]
      exact List.mem_append_right _ hmem
    unfold Request.words at hw
    rw [hbuf, cstr_append ht] at hw hlead
    have hfits : t.length + 1 ≤ MAXLINE := by
      have hle := r.le
      rw [hbuf, List.length_append] at hle
      exact hle
    obtain ⟨rfl, ⟨rfl, hone⟩ | ⟨front, c, s, hname, hc, hone, rfl⟩⟩ := end_of_text hut hw hlead
    · rw [h.alone path hone hfits, atoi_flag] at hcalls
      exact Or.inr ⟨rest, hcalls, hrest⟩
    · exact absurd hfits (Nat.not_le.mpr (h.inner front c s path hname hc hone))
  · exact Or.inl herr

/-- The words of `open`, white space, some text and the flag. -/
theorem words_request {c : Byte} (hc : isWhite c = true) (s : List Byte) (oflag : Int32) :
    words isWhite (CL_OPEN ++ c :: s ++ flagText oflag) =
      CL_OPEN :: words isWhite s ++ [decimalInt oflag.toInt] := by
  have hall : CL_OPEN.all (!isWhite ·) = true := by decide
  have hopen : ∀ c ∈ CL_OPEN, isWhite c = false := by
    intro c hc
    simpa using List.all_eq_true.mp hall c hc
  have hflag : CL_OPEN ++ c :: s ++ flagText oflag =
      CL_OPEN ++ c :: (s ++ ' '.toUInt8 :: decimalInt oflag.toInt) := by
    unfold flagText
    rw [List.append_assoc]
    rfl
  rw [hflag, words_word_cons hopen (by decide) _ hc, words_append_cons s _ (by decide), words_flag]
  rfl

/-- A piece that is such a request. -/
theorem opens_of_end {c : Byte} {s : List Byte} {r : Request} (hc : isWhite c = true)
    (hone : words isWhite s = [path]) (hbuf : r.buf = CL_OPEN ++ c :: s ++ flagText oflag ++ [0])
    (hnul : 0 ∉ CL_OPEN ++ c :: s ++ flagText oflag) (a : Answers) (v : Vars) :
    .open path oflag ∈ (handleRequest strerror a v r).1 := by
  have hcstr : cstr r.buf = CL_OPEN ++ c :: s ++ flagText oflag := by
    rw [hbuf]
    exact cstr_append hnul []
  have hopens : r.Opens path (decimalInt oflag.toInt) := by
    constructor
    · unfold Request.words
      rw [hcstr, words_request hc s oflag, hone]
      rfl
    · rw [hcstr]
      exact List.takeWhile_cons_of_neg (by decide)
  rcases handleRequest_opens strerror a v r with ⟨path', f', -, hopens', rest, hcalls, -⟩ | ⟨hno, -⟩
  · have hw := hopens'.1.symm.trans hopens.1
    obtain ⟨rfl, rfl⟩ : path' = path ∧ f' = decimalInt oflag.toInt := by
      simpa using hw
    rw [hcalls, atoi_flag]
    exact List.mem_cons_self
  · rcases hno with hno | hno
    · exact absurd (by rw [hbuf]; exact List.getLast?_concat) hno
    · exact absurd hopens (hno path _)

/-- Nothing but the file is opened. -/
theorem Carried.path_eq (h : Carried strerror name oflag) {rs : List Request} {r : Request}
    (hrs : rs.flatMap Request.buf = csopenText name oflag ++ [0]) (hr : r ∈ rs)
    (hopen : ∀ a v, .open path oflag ∈ (handleRequest strerror a v r).1) : path = name.val := by
  obtain ⟨msg, hmsg, hall⟩ := h
  have htext : csopenText name oflag ++ [0] = msg := by
    unfold csopenWrites at hmsg
    split at hmsg
    · exact Option.some.inj hmsg
    · exact absurd hmsg (by simp)
  have hmem := hopen ⟨.fd 0, ⟨0, 0⟩⟩ .init
  rcases hall rs (hrs.trans htext) r hr ⟨.fd 0, ⟨0, 0⟩⟩ .init .init with ⟨v', herr⟩ | ⟨rest, hcalls, hrest⟩
  · rw [herr] at hmem
    exact absurd hmem (open_not_mem_sendErr v' _ _ path oflag)
  · rw [hcalls] at hmem
    rcases List.mem_cons.mp hmem with heq | hmem
    · exact (Call.open.inj heq).1
    · exact absurd hmem (hrest path oflag)

/-- One byte. -/
def single (b : Byte) : Request := ⟨[b], 0, 0, by simp, by simp⟩

theorem flatMap_single (l : List Byte) : (l.map single).flatMap Request.buf = l := by
  induction l with
  | nil => rfl
  | cons b l ih =>
    rw [List.map_cons, List.flatMap_cons, ih]
    rfl

theorem Carried.carriable (h : Carried strerror name oflag) : Carriable name oflag := by
  have hspace : isWhite ' '.toUInt8 = true := by decide
  have hnul := zero_not_mem_text name oflag
  refine ⟨?_, fun path hone hfits => ?_, fun front c s path hname hc hone => ?_⟩
  · obtain ⟨msg, hmsg, -⟩ := h
    refine (length_flag_iff oflag).mp ?_
    unfold csopenWrites at hmsg
    split at hmsg
    · next hlen => exact hlen
    · exact absurd hmsg (by simp)
  · -- the text in one piece
    have htext : csopenText name oflag = CL_OPEN ++ ' '.toUInt8 :: name.val ++ flagText oflag := rfl
    let r : Request := ⟨csopenText name oflag ++ [0], 0, 0, by simp, by
      rw [List.length_append]
      exact hfits⟩
    have hrs : [r].flatMap Request.buf = csopenText name oflag ++ [0] := List.append_nil _
    refine h.path_eq hrs List.mem_cons_self fun a v => ?_
    exact opens_of_end hspace hone rfl hnul a v
  · -- what is in front, byte by byte, and the end of the text in one piece
    by_contra hfits
    have htext : csopenText name oflag =
        (CL_OPEN ++ str " " ++ front) ++ (CL_OPEN ++ c :: s ++ flagText oflag) := by
      unfold csopenText
      rw [hname]
      simp only [List.append_assoc]
    have hnul' : 0 ∉ CL_OPEN ++ c :: s ++ flagText oflag := by
      intro hmem
      apply hnul
      rw [htext]
      exact List.mem_append_right _ hmem
    let r : Request := ⟨CL_OPEN ++ c :: s ++ flagText oflag ++ [0], 0, 0, by simp, by
      rw [List.length_append]
      exact Nat.not_lt.mp hfits⟩
    have hrs : ((CL_OPEN ++ str " " ++ front).map single ++ [r]).flatMap Request.buf =
        csopenText name oflag ++ [0] := by
      rw [List.flatMap_append, flatMap_single, List.flatMap_singleton, htext]
      exact (List.append_assoc ..).symm
    have hmem : r ∈ (CL_OPEN ++ str " " ++ front).map single ++ [r] :=
      List.mem_append_right _ (List.mem_singleton.mpr rfl)
    have hpath := h.path_eq hrs hmem fun a v => opens_of_end hc hone rfl hnul' a v
    -- the path is a word of the end of the name
    have hle := (word_of_mem (hone ▸ List.mem_singleton.mpr rfl)).2.2.length_le
    have hlen := congrArg List.length hname
    rw [List.length_append, List.length_append, List.length_cons] at hlen
    rw [hpath] at hle
    omega

/-- **What `csopen` asks for is what the server opens**, exactly when the flag is above -1000000000,
and no end of the request that is short enough names another file. -/
theorem csopen_carried (strerror : Int → List Byte) (name : CString) (oflag : Int32) :
    Carried strerror name oflag ↔ Carriable name oflag :=
  ⟨Carried.carriable, Carriable.carried⟩

/-- A name with a blank in front: another file is opened. -/
theorem csopen_blank : ¬ Carried (fun _ => []) ⟨str " x", by decide⟩ 0 := by
  intro h
  have hpath := h.carriable.alone (str "x") (by decide) (by decide)
  exact absurd hpath (by decide)

/-! ## The call as a whole -/

/-- A call writes the request, or nothing. -/
theorem csopen_writes {msg : List Byte} (hmsg : csopenWrites name oflag = some msg) (csfd : Int)
    (ans : ClientAns) :
    ∃ r, csopen csfd ans name oflag = some r ∧ (r.writes = [] ∨ r.writes = msg) := by
  unfold csopen
  dsimp only
  rw [hmsg, Option.map_some]
  generalize (if csfd < 0 then ans.cli_conn else csfd) = csfd
  by_cases hconn : csfd < 0
  · rw [if_pos hconn]
    exact ⟨_, rfl, .inl rfl⟩
  · rw [if_neg hconn]
    refine ⟨_, rfl, .inr ?_⟩
    by_cases hwritev : ans.writev ≠ msg.length
    · rw [if_pos hwritev]
    · rw [if_neg hwritev]

/-- **A call of `csopen`.** Whatever the calls of the client return, a server that reads what has been
written opens nothing but the file. -/
theorem csopen_opens (h : Carriable name oflag) (csfd : Int) (ans : ClientAns) :
    ∃ r, csopen csfd ans name oflag = some r ∧
      ∀ rs : List Request, rs.flatMap Request.buf = r.writes → ∀ q ∈ rs, ∀ a v,
        Vars.Reach strerror v →
          (∃ v' : Vars, (handleRequest strerror a v q).1 = v'.sendErr a.socket q.clifd) ∨
          ∃ rest, (handleRequest strerror a v q).1 = .open name.val oflag :: rest ∧
            ∀ path oflag, .open path oflag ∉ rest := by
  obtain ⟨msg, hmsg, hserved⟩ : Carried strerror name oflag := h.carried
  obtain ⟨r, hr, hwrites⟩ := csopen_writes hmsg csfd ans
  refine ⟨r, hr, fun rs hrs q hq => ?_⟩
  rcases hwrites with hwrites | hwrites
  · -- nothing to read
    rw [hwrites, List.flatMap_eq_nil_iff] at hrs
    exact absurd (hrs q hq) q.ne
  · exact hserved rs (hrs.trans hwrites) q hq

end LearningNotes.Opend
