import LearningNotes.Lib.CString
import LearningNotes.Lib.Decimal
import LearningNotes.Lib.Words
import LearningNotes.Opend.PassFd

/-!
# `request.c`, `cliargs.c`, `bufargs.c`

What the open server does with a request. `buf_args` cuts it into words, `cli_args` checks that
there are three of them and that the first one is `open`, and `handle_request` opens the file and
sends the descriptor, or an error with the text in `errmsg`.

`buf_args_spec` says what `buf_args` makes of the words of a request. It may fail by itself,
and leaves `errmsg` alone then: the text of an earlier request is sent (`reply_own`).

Mirroring notes:
- A pointer into `buf` is the string there after `strtok` has put in its nulls.
- `pathname` is the empty string before the first request; nobody reads it then.
- The log is left out. But `log_msg(errmsg)` takes `errmsg` as its format: there is no next state
  when it has a conversion in it, nor when `log_sys` has ended the server.
-/

namespace LearningNotes.Opend

@[simp, reducible] def MAXARGC : Nat := 50

/-- `CL_OPEN` -/
def CL_OPEN : List Byte := str "open"

/-- A character of `WHITE`. -/
def isWhite (c : Byte) : Bool := c = ' '.toUInt8 || c = '\t'.toUInt8 || c = '\n'.toUInt8

/-- `strtok` with `WHITE`: the token, and where the next call goes on. -/
def strtok (s : List Byte) : Option (List Byte × List Byte) :=
  match s.dropWhile isWhite with
  | [] => none
  | c :: s => some ((c :: s).takeWhile (!isWhite ·), ((c :: s).dropWhile (!isWhite ·)).drop 1)

/-! ## `bufargs.c` -/

/-- An entry of `argv`. -/
inductive Arg where
  | unset
  | null
  | str (s : List Byte)
  deriving DecidableEq

/-- `argv[i] = a`; an index outside of the array has no result. -/
def putArg (argv : List Arg) (i : Nat) (a : Arg) : Option (List Arg) :=
  if i < argv.length then some (argv.set i a) else none

/-- The loop of `buf_args`: the last index and the array; nothing when there are too many arguments.
There are fewer rounds than entries. -/
def putArgs : Nat → List Byte → Nat → List Arg → Option (Option (Nat × List Arg))
  | 0, _, _, _ => none
  | rounds + 1, s, argc, argv =>
    match strtok s with
    | none => some (some (argc, argv))
    | some (ptr, s) =>
      let argc := argc + 1
      if argc ≥ MAXARGC - 1 then some none
      else (putArg argv argc (.str ptr)).bind (putArgs rounds s argc)

/-- `buf_args` -/
def bufArgs {σ : Type} (buf : List Byte) (optfunc : Nat → List Arg → σ → Option (Int × σ)) (v : σ) :
    Option (Int × σ) :=
  match strtok (cstr buf) with
  | none => some (-1, v)
  | some (ptr, s) => do
    -- argv[0] is the start of buf, and not the token
    let argv ← putArg (List.replicate MAXARGC .unset) 0 (.str ((cstr buf).takeWhile isWhite ++ ptr))
    match ← putArgs MAXARGC s 0 argv with
    | none => some (-1, v)
    | some (argc, argv) => do
      let argv ← putArg argv (argc + 1) .null
      optfunc (argc + 1) argv v

/-! ## `cliargs.c` -/

/-- The variables that are not local to a request. -/
structure Vars where
  errmsg : List Byte
  pathname : List Byte
  oflag : Int32
  deriving DecidableEq

def Vars.init : Vars := ⟨[], [], 0⟩

def Vars.usage (v : Vars) : Vars := { v with errmsg := str "usage: <pathname> <oflag>\n" }

/-- `cli_args` -/
def cliArgs (argc : Nat) (argv : List Arg) (v : Vars) : Option (Int × Vars) :=
  if argc ≠ 3 then some (-1, v.usage)
  else
    match argv[0]?, argv[1]?, argv[2]? with
    | some (Arg.str cmd), some (Arg.str pathname), some (Arg.str oflag) =>
      if cmd ≠ CL_OPEN then some (-1, v.usage)
      else some (0, { v with pathname := pathname, oflag := atoi oflag })
    | _, _, _ => none

/-! ## `request.c` -/

/-- A request: what has been read, at least one byte. -/
structure Request where
  buf : List Byte
  clifd : Int
  uid : Uid
  ne : buf ≠ []
  le : buf.length ≤ MAXLINE

/-- What `open` returns: a descriptor, or -1 and `errno`. -/
inductive Opened where
  | fd (fd : Nat)
  | errno (errno : Int)

structure Answers where
  opened : Opened
  socket : SocketAns

/-- A call of `handle_request`. -/
inductive Call where
  | open (pathname : List Byte) (oflag : Int32)
  | send (sent : Sent)
  | close (fd : Int)
  deriving DecidableEq

/-- `snprintf(errmsg, MAXLINE-1, ...)` -/
def Vars.snprintf (v : Vars) (text : List Byte) : Vars := { v with errmsg := text.take (MAXLINE - 2) }

/-- `log_msg(errmsg)` -/
def Vars.logMsg (v : Vars) : Option Vars := if plainFormat v.errmsg then some v else none

/-- `send_err(clifd, -1, errmsg)` -/
def Vars.sendErr (v : Vars) (a : SocketAns) (clifd : Int) : List Call :=
  (Opend.sendErr a clifd (-1) v.errmsg).1.map .send

/-- The text for a request that is not null terminated. -/
def notTerminated (r : Request) : List Byte :=
  str "request from uid " ++ decimalInt r.uid.toInt32.toInt ++ str " not null terminated: " ++
    padLeft r.buf.length (cstr r.buf) ++ str "\n"

/-- `handle_request`: the calls, and the variables for the next request. -/
def handleRequest (strerror : Int → List Byte) (a : Answers) (v : Vars) (r : Request) :
    List Call × Option Vars :=
  if r.buf.getLast? ≠ some 0 then
    let v := v.snprintf (notTerminated r)
    (v.sendErr a.socket r.clifd, some v)
  else
    match bufArgs r.buf cliArgs v with
    | none => ([], none)
    | some (rc, v) =>
      if rc < 0 then (v.sendErr a.socket r.clifd, v.logMsg)
      else
        match a.opened with
        | .errno errno =>
          let v := v.snprintf
            (str "can't open " ++ v.pathname ++ str ": " ++ strerror errno ++ str "\n")
          (.open v.pathname v.oflag :: v.sendErr a.socket r.clifd, v.logMsg)
        | .fd newfd =>
          let (sent, rc) := sendFd a.socket r.clifd newfd
          if rc < 0 then (.open v.pathname v.oflag :: sent.map .send, none)
          else (.open v.pathname v.oflag :: sent.map .send ++ [.close newfd], some v)

/-- The variables between two requests. -/
inductive Vars.Reach (strerror : Int → List Byte) : Vars → Prop where
  | init : Vars.Reach strerror .init
  | request {a : Answers} {v v' : Vars} {r : Request} (h : Vars.Reach strerror v)
      (hs : (handleRequest strerror a v r).2 = some v') : Vars.Reach strerror v'

/-! ## The words of a request -/

section Words

variable {s buf : List Byte} {ws front : List (List Byte)} {w : List Byte} {v : Vars}

/-- `argv` when the arguments are set. -/
def argvOf (ws : List (List Byte)) : List Arg :=
  ws.map .str ++ .null :: List.replicate (MAXARGC - 1 - ws.length) .unset

/-- `strtok` takes the next word. -/
theorem strtok_nil (h : words isWhite s = []) : strtok s = none := by
  unfold strtok
  rw [words_eq_nil.mp h]

theorem strtok_cons (h : words isWhite s = w :: ws) :
    ∃ rest, strtok s = some (w, rest) ∧ words isWhite rest = ws := by
  unfold strtok
  cases hd : s.dropWhile isWhite with
  | nil =>
    rw [words_eq_nil.mpr hd] at h
    exact absurd h (by simp)
  | cons c t =>
    rw [words_next hd] at h
    obtain ⟨rfl, rfl⟩ := List.cons.inj h
    exact ⟨_, rfl, rfl⟩

/-- The entries behind the arguments so far. -/
def unset (front : List (List Byte)) : List Arg := List.replicate (MAXARGC - front.length) .unset

theorem putArg_next {a : Arg} (h : front.length < MAXARGC) :
    putArg (front.map .str ++ unset front) front.length a =
      some (front.map .str ++ a :: List.replicate (MAXARGC - 1 - front.length) .unset) := by
  have hk : MAXARGC - front.length = (MAXARGC - 1 - front.length) + 1 := by omega
  have hlen : (front.map Arg.str).length = front.length := List.length_map ..
  unfold putArg unset
  rw [if_pos (by rw [List.length_append, List.length_map, List.length_replicate]; omega), hk,
    List.replicate_succ, List.set_append_right _ _ (by omega), hlen, Nat.sub_self]
  rfl

/-- **The loop of `buf_args`** with the arguments `front` set, `argc` the last of them: the words
that follow are set, unless they are too many. -/
theorem putArgs_spec : ∀ {rounds : Nat} {s : List Byte} {front : List (List Byte)} {argc : Nat},
    front.length = argc + 1 → argc < MAXARGC - 1 → MAXARGC ≤ argc + rounds →
    putArgs rounds s argc (front.map .str ++ unset front) =
      if argc + (words isWhite s).length ≥ MAXARGC - 1 then some none
      else some (some (argc + (words isWhite s).length,
        (front ++ words isWhite s).map .str ++ unset (front ++ words isWhite s))) := by
  intro rounds
  induction rounds with
  | zero =>
    intro s front argc _ hargc hr
    omega
  | succ rounds ih =>
    intro s front argc hfront hargc hr
    cases hw : words isWhite s with
    | nil =>
      rw [putArgs, strtok_nil hw, List.append_nil]
      exact (if_neg (by simp at hargc ⊢; omega)).symm
    | cons w ws =>
      obtain ⟨rest, htok, hws⟩ := strtok_cons hw
      rw [putArgs, htok]
      dsimp only
      rw [List.length_cons]
      split
      · exact (if_pos (by omega)).symm
      · next hmore =>
        have hput := @putArg_next front (.str w) (by simp at hmore ⊢; omega)
        have hfront' : (front ++ [w]).length = argc + 1 + 1 := by simp [hfront]
        rw [hfront] at hput
        rw [hput, Option.bind_some]
        have hargv : front.map Arg.str ++ .str w :: List.replicate (MAXARGC - 1 - (argc + 1)) .unset =
            (front ++ [w]).map .str ++ unset (front ++ [w]) := by
          have hk : MAXARGC - 1 - (argc + 1) = MAXARGC - (argc + 1 + 1) := by omega
          unfold unset
          rw [List.map_append, List.append_assoc, hfront', hk]
          rfl
        rw [hargv, ih hfront' (by omega) (by omega), hws, List.append_assoc,
          show argc + 1 + ws.length = argc + (ws.length + 1) by omega]
        rfl

/-- **`buf_args`**: without a word, and with `MAXARGC` words or more, it fails by itself. Otherwise
`optfunc` gets the words; what stands in front of the first one belongs to `argv[0]`. -/
theorem buf_args_spec {σ : Type} (buf : List Byte) (optfunc : Nat → List Arg → σ → Option (Int × σ))
    (v : σ) :
    bufArgs buf optfunc v =
      match words isWhite (cstr buf) with
      | [] => some (-1, v)
      | w :: ws =>
        if ws.length ≥ MAXARGC - 1 then some (-1, v)
        else optfunc (ws.length + 1) (argvOf (((cstr buf).takeWhile isWhite ++ w) :: ws)) v := by
  unfold bufArgs
  cases hw : words isWhite (cstr buf) with
  | nil => rw [strtok_nil hw]
  | cons w ws =>
    obtain ⟨rest, htok, hws⟩ := strtok_cons hw
    rw [htok]
    dsimp only
    have hfirst : putArg (List.replicate MAXARGC .unset) 0 (.str ((cstr buf).takeWhile isWhite ++ w)) =
        some ([(cstr buf).takeWhile isWhite ++ w].map .str ++
          unset [(cstr buf).takeWhile isWhite ++ w]) := rfl
    rw [hfirst, Option.bind_eq_bind, Option.bind_some, putArgs_spec rfl (by decide) (by decide), hws,
      Nat.zero_add]
    split
    · rfl
    · next hmore =>
      have hput := @putArg_next ([(cstr buf).takeWhile isWhite ++ w] ++ ws) .null
        (by simp at hmore ⊢; omega)
      have hlen : ([(cstr buf).takeWhile isWhite ++ w] ++ ws).length = ws.length + 1 := by simp
      rw [hlen] at hput
      rw [Option.bind_eq_bind, Option.bind_some]
      dsimp only
      rw [hput, Option.bind_some]
      unfold argvOf
      rw [List.length_cons]
      rfl

/-- `optfunc` gets the words and their number when there are from one to `MAXARGC - 1` of them, and
otherwise `buf_args` returns -1. -/
def BufArgsRight (buf : List Byte) : Prop :=
  ∀ (σ : Type) (optfunc : Nat → List Arg → σ → Option (Int × σ)) (v : σ),
    bufArgs buf optfunc v =
      if 1 ≤ (words isWhite (cstr buf)).length ∧ (words isWhite (cstr buf)).length ≤ MAXARGC - 1 then
        optfunc (words isWhite (cstr buf)).length (argvOf (words isWhite (cstr buf))) v
      else some (-1, v)

/-- An `optfunc` that keeps its `argv` tells whether white space was put before the first word. -/
theorem bufArgs_keeps (buf : List Byte) (hw : words isWhite (cstr buf) = w :: ws)
    (hmore : ws.length < MAXARGC - 1) :
    bufArgs buf (fun _ argv _ => some (0, argv)) ([] : List Arg) =
      some (0, argvOf (((cstr buf).takeWhile isWhite ++ w) :: ws)) := by
  rw [buf_args_spec, hw]
  exact if_neg (by omega)

theorem BufArgsRight.lead (h : BufArgsRight buf) :
    (cstr buf).takeWhile isWhite = [] ∨ words isWhite (cstr buf) = [] ∨
      MAXARGC ≤ (words isWhite (cstr buf)).length := by
  cases hw : words isWhite (cstr buf) with
  | nil => exact .inr (.inl rfl)
  | cons w ws =>
    by_cases hmore : ws.length < MAXARGC - 1
    · have hright := h (List Arg) (fun _ argv _ => some (0, argv)) []
      rw [bufArgs_keeps buf hw hmore, hw, if_pos (by simp at hmore ⊢; omega)] at hright
      have hargv := congrArg (fun r => (r.map Prod.snd).bind List.head?) hright
      have hfirst : Arg.str ((cstr buf).takeWhile isWhite ++ w) = Arg.str w := Option.some.inj hargv
      exact .inl (List.append_left_eq_self.mp (Arg.str.inj hfirst))
    · exact .inr (.inr (by simp at hmore ⊢; omega))

/-- For every buffer `buf_args` is right exactly if the string in it does not begin with white space,
or has no word, or has too many of them. -/
theorem bufArgs_right_iff (buf : List Byte) : BufArgsRight buf ↔
    (cstr buf).takeWhile isWhite = [] ∨ words isWhite (cstr buf) = [] ∨
      MAXARGC ≤ (words isWhite (cstr buf)).length := by
  constructor
  · intro h
    exact h.lead
  · intro h σ optfunc v
    rw [buf_args_spec]
    cases hw : words isWhite (cstr buf) with
    | nil => rfl
    | cons w ws =>
      dsimp only
      rw [hw] at h
      by_cases hmore : ws.length ≥ MAXARGC - 1
      · rw [if_pos hmore, if_neg (by simp at hmore ⊢; omega)]
      · rcases h with hlead | hnone | hmany
        · rw [if_neg hmore, if_pos (by simp at hmore ⊢; omega), hlead]
          rfl
        · cases hnone
        · rw [List.length_cons] at hmany
          omega

/-- A blank before the word: `argv[0]` is `" a"`. -/
theorem bufArgs_leading_blank : ¬BufArgsRight [32, 97, 0] := by
  intro h
  rcases h.lead with h | h | h
  · exact absurd h (by decide)
  · exact absurd h (by decide)
  · exact absurd h (by decide)

/-- `cli_args` accepts three words, the first of which is `open`. -/
theorem cliArgs_three (path oflag : List Byte) (v : Vars) :
    cliArgs 3 (argvOf [w, path, oflag]) v =
      if w ≠ CL_OPEN then some (-1, v.usage)
      else some (0, { v with pathname := path, oflag := atoi oflag }) := rfl

theorem cliArgs_other (h : ws.length ≠ 2) (argv : List Arg) (v : Vars) :
    cliArgs (ws.length + 1) argv v = some (-1, v.usage) := by
  unfold cliArgs
  rw [if_pos (by omega)]

end Words

/-! ## The reply -/

section Reply

variable {strerror : Int → List Byte} {a : Answers} {v v₁ v₂ : Vars} {r : Request}

/-- The words of a request. -/
def Request.words (r : Request) : List (List Byte) := LearningNotes.words isWhite (cstr r.buf)

/-- `buf_args` has words, and not too many. -/
def Request.Parsed (r : Request) : Prop := 1 ≤ r.words.length ∧ r.words.length ≤ MAXARGC - 1

/-- The words are `open`, a path and a flag, and `open` is at the start of the buffer. -/
def Request.Opens (r : Request) (path oflag : List Byte) : Prop :=
  r.words = [CL_OPEN, path, oflag] ∧ (cstr r.buf).takeWhile isWhite = []

theorem bufArgs_spec_cons {w : List Byte} {ws : List (List Byte)} (hw : r.words = w :: ws)
    (hle : ws.length < MAXARGC - 1) (v : Vars) : bufArgs r.buf cliArgs v =
      cliArgs (ws.length + 1) (argvOf (((cstr r.buf).takeWhile isWhite ++ w) :: ws)) v := by
  have hs := buf_args_spec r.buf cliArgs v
  change LearningNotes.words isWhite (cstr r.buf) = w :: ws at hw
  rw [hw] at hs
  exact hs.trans (if_neg (by omega))

theorem bufArgs_open {path oflag : List Byte} (h : r.Opens path oflag) (v : Vars) :
    bufArgs r.buf cliArgs v = some (0, { v with pathname := path, oflag := atoi oflag }) := by
  have htwo : [path, oflag].length < MAXARGC - 1 := Nat.le_of_ble_eq_true rfl
  rw [bufArgs_spec_cons h.1 htwo v, h.2]
  exact (cliArgs_three path oflag v).trans (if_neg fun hne => hne rfl)

/-- White space is not in front of the first argument when that is `open`. -/
theorem takeWhile_append_eq_open {s w : List Byte} (h : s.takeWhile isWhite ++ w = CL_OPEN) :
    s.takeWhile isWhite = [] ∧ w = CL_OPEN := by
  cases hlead : s.takeWhile isWhite with
  | nil =>
    rw [hlead] at h
    exact ⟨rfl, h⟩
  | cons c lead =>
    have hc : isWhite c = true := by
      have hmem : c ∈ s.takeWhile isWhite := by
        rw [hlead]
        exact List.mem_cons_self
      exact List.mem_takeWhile_imp hmem
    rw [hlead] at h
    rw [(List.cons.inj h).1] at hc
    exact absurd hc (by decide)

/-- What `buf_args` and `cli_args` make of a request: an error of their own, with a new text in
`errmsg`, or the path and the flag. -/
theorem bufArgs_parsed (h : r.Parsed) :
    (∀ v, bufArgs r.buf cliArgs v = some (-1, v.usage)) ∨ ∃ path oflag, r.Opens path oflag := by
  obtain ⟨hpos, hle⟩ := h
  cases hw : r.words with
  | nil =>
    rw [hw] at hpos
    exact absurd hpos (by simp)
  | cons w ws =>
    rw [hw, List.length_cons] at hle
    have hspec := bufArgs_spec_cons hw (by omega)
    by_cases htwo : ws.length = 2
    · obtain ⟨path, oflag, rfl⟩ := List.length_eq_two.mp htwo
      by_cases hopen : (cstr r.buf).takeWhile isWhite ++ w = CL_OPEN
      · obtain ⟨hlead, rfl⟩ := takeWhile_append_eq_open hopen
        exact Or.inr ⟨path, oflag, hw, hlead⟩
      · refine Or.inl fun v => (hspec v).trans ?_
        exact (cliArgs_three path oflag v).trans (if_pos hopen)
    · exact Or.inl fun v => (hspec v).trans (cliArgs_other htwo _ v)

/-- `buf_args` fails by itself. -/
theorem bufArgs_fails (h : ¬ r.Parsed) (v : Vars) : bufArgs r.buf cliArgs v = some (-1, v) := by
  rw [buf_args_spec]
  cases hw : LearningNotes.words isWhite (cstr r.buf) with
  | nil => rfl
  | cons w ws =>
    refine if_pos ?_
    by_contra hlt
    refine h ⟨?_, ?_⟩
    · show 1 ≤ (LearningNotes.words isWhite (cstr r.buf)).length
      rw [hw]
      exact Nat.succ_pos _
    · show (LearningNotes.words isWhite (cstr r.buf)).length ≤ MAXARGC - 1
      rw [hw, List.length_cons]
      omega

/-- The reply needs nothing of an earlier request. -/
theorem reply_eq (h : r.buf.getLast? ≠ some 0 ∨ r.Parsed) (v₁ v₂ : Vars) :
    (handleRequest strerror a v₁ r).1 = (handleRequest strerror a v₂ r).1 := by
  unfold handleRequest
  split
  · rfl
  · next hnull =>
    rcases bufArgs_parsed (h.resolve_left hnull) with hbad | ⟨path, oflag, hopens⟩
    · rw [hbad v₁, hbad v₂]
      rfl
    · rw [bufArgs_open hopens v₁, bufArgs_open hopens v₂]
      dsimp only
      rw [if_neg (by decide), if_neg (by decide)]
      cases a.opened with
      | errno errno => rfl
      | fd newfd =>
        dsimp only
        split <;> rfl

theorem open_not_mem_sendErr (v : Vars) (a : SocketAns) (clifd : Int) (path : List Byte)
    (oflag : Int32) : .open path oflag ∉ v.sendErr a clifd := by
  intro h
  obtain ⟨s, -, hs⟩ := List.mem_map.mp h
  exact Call.noConfusion hs

/-- **What `handle_request` does**: it opens the file that the request names, or answers with an
error. -/
theorem handleRequest_opens (strerror : Int → List Byte) (a : Answers) (v : Vars) (r : Request) :
    (∃ path oflag, r.buf.getLast? = some 0 ∧ r.Opens path oflag ∧ ∃ rest,
      (handleRequest strerror a v r).1 = .open path (atoi oflag) :: rest ∧
      ∀ path oflag, .open path oflag ∉ rest) ∨
    (r.buf.getLast? ≠ some 0 ∨ ∀ path oflag, ¬ r.Opens path oflag) ∧
      ∃ v' : Vars, (handleRequest strerror a v r).1 = v'.sendErr a.socket r.clifd := by
  by_cases hnull : r.buf.getLast? = some 0
  · by_cases hopens : ∃ path oflag, r.Opens path oflag
    · obtain ⟨path, oflag, hopens⟩ := hopens
      refine Or.inl ⟨path, oflag, hnull, hopens, ?_⟩
      unfold handleRequest
      -- `open` comes first, and what follows only sends
      rw [if_neg (not_not.mpr hnull), bufArgs_open hopens]
      dsimp only
      rw [if_neg (by decide)]
      cases a.opened with
      | errno errno => exact ⟨_, rfl, open_not_mem_sendErr _ _ _⟩
      | fd newfd =>
        dsimp only
        split
        · refine ⟨_, rfl, fun path oflag h => ?_⟩
          obtain ⟨s, -, hs⟩ := List.mem_map.mp h
          exact Call.noConfusion hs
        · refine ⟨_, rfl, fun path oflag h => ?_⟩
          rcases List.mem_append.mp h with h | h
          · obtain ⟨s, -, hs⟩ := List.mem_map.mp h
            exact Call.noConfusion hs
          · exact Call.noConfusion (List.mem_singleton.mp h)
    · have hno : ∀ path oflag, ¬ r.Opens path oflag := by
        intro path oflag h
        exact hopens ⟨path, oflag, h⟩
      refine Or.inr ⟨Or.inr hno, ?_⟩
      unfold handleRequest
      rw [if_neg (not_not.mpr hnull)]
      by_cases hparsed : r.Parsed
      · -- the words are not `open`, a path and a flag
        rcases bufArgs_parsed hparsed with hbad | ⟨path, oflag, h⟩
        · rw [hbad v]
          exact ⟨_, rfl⟩
        · exact absurd h (hno path oflag)
      · rw [bufArgs_fails hparsed v]
        exact ⟨_, rfl⟩
  · refine Or.inr ⟨Or.inl hnull, ?_⟩
    unfold handleRequest
    rw [if_pos hnull]
    exact ⟨_, rfl⟩

/-- A request that is one word. -/
def oneWord : Request := ⟨[120, 0], 0, 0, by simp, by simp⟩

/-- It leaves the text of `usage`. -/
theorem reach_usage (strerror : Int → List Byte) : Vars.Reach strerror Vars.init.usage :=
  .request (a := ⟨.fd 0, ⟨0, 0⟩⟩) (r := oneWord) .init rfl

/-- **The reply and earlier requests**: whatever has been asked for before, the reply to a request
is the same, exactly when the request is not null terminated, or has at least one word and less
than `MAXARGC` of them. -/
theorem reply_own (strerror : Int → List Byte) (r : Request) :
    (∀ a v₁ v₂, Vars.Reach strerror v₁ → Vars.Reach strerror v₂ →
      (handleRequest strerror a v₁ r).1 = (handleRequest strerror a v₂ r).1) ↔
    r.buf.getLast? ≠ some 0 ∨ r.Parsed := by
  refine ⟨fun h => ?_, fun h a v₁ v₂ _ _ => reply_eq h v₁ v₂⟩
  by_contra hbad
  obtain ⟨hnull, hparsed⟩ := not_or.mp hbad
  -- the text that is sent is the one of the last error
  have hsends : ∀ v, (handleRequest strerror ⟨.fd 0, ⟨0, 0⟩⟩ v r).1 = v.sendErr ⟨0, 0⟩ r.clifd := by
    intro v
    unfold handleRequest
    rw [if_neg hnull, bufArgs_fails hparsed v]
    rfl
  have heq := h ⟨.fd 0, ⟨0, 0⟩⟩ _ _ .init (reach_usage strerror)
  rw [hsends, hsends] at heq
  exact absurd heq (by simp [Vars.sendErr, sendErr, Vars.init, Vars.usage, sendFd, str])

/-- A client asks for a file that cannot be opened, and another one sends an empty request. -/
def asks : Request := ⟨str "open /home/a 0" ++ [0], 5, 100, by decide, by decide⟩

def blank : Request := ⟨[0], 6, 200, by decide, by decide⟩

/-- The second one is told what the first one has asked for. -/
theorem reply_leaks : ∃ v, Vars.Reach (fun _ => str "Permission denied") v ∧
    (handleRequest (fun _ => str "Permission denied") ⟨.errno 13, ⟨38, 2⟩⟩ v blank).1 =
      [.send (.writen 6 (str "can't open /home/a: Permission denied\n")),
        .send (.sendmsg 6 [0, 1] none)] ∧
    (handleRequest (fun _ => str "Permission denied") ⟨.errno 13, ⟨38, 2⟩⟩ .init blank).1 =
      [.send (.sendmsg 6 [0, 1] none)] := by
  have hasks : (handleRequest (fun _ => str "Permission denied") ⟨.errno 13, ⟨38, 2⟩⟩ .init asks).2 =
      some ⟨str "can't open /home/a: Permission denied\n", str "/home/a", 0⟩ := by decide
  exact ⟨_, .request .init hasks, by decide, by decide⟩

end Reply

end LearningNotes.Opend
