import Mathlib.Data.List.Infix
import LearningNotes.Opend.Client

/-!
# `sendfd.c`, `senderr.c`, `recvfd.c`

A descriptor, or a message and an error status, over a stream socket. Both end with two bytes, a
null and the status; the descriptor comes with them. The receiver looks for the null in every
piece that it gets, and knows the status by its place behind the null (`scan`).

`recv_fd_pieces` is the receiver on the bytes of a message that come in any pieces.

Mirroring notes:
- `malloc(CONTROLLEN)` succeeds. A control message shorter than `CONTROLLEN` is none.
- `buf[1] = -fd_to_send` is taken modulo 256, for the least `int` too.
- `status` and `newfd` are set together: `none` is the -1 in front of the loop.
- `userfunc` may answer by what it has been passed so far.
-/

namespace LearningNotes.Opend

@[simp, reducible] def MAXLINE : Nat := 4096

/-- What is handed to a socket: by `writen`, and by `sendmsg`. -/
inductive Sent where
  | writen (fd : Int) (buf : List Byte)
  | sendmsg (fd : Int) (buf : List Byte) (control : Option Int)
  deriving DecidableEq

/-- What `writen` and `sendmsg` return. -/
structure SocketAns where
  writen : Int
  sendmsg : Int

/-- The status byte of an error: -256, etc. would screw up the protocol. -/
def statusByte (fd_to_send : Int) : Byte :=
  if UInt8.ofInt (-fd_to_send) = 0 then 1 else UInt8.ofInt (-fd_to_send)

/-- `send_fd` -/
def sendFd (a : SocketAns) (fd fd_to_send : Int) : List Sent × Int :=
  let sent :=
    if fd_to_send < 0 then Sent.sendmsg fd [0, statusByte fd_to_send] none
    else .sendmsg fd [0, 0] (some fd_to_send)
  ([sent], if a.sendmsg ≠ 2 then -1 else 0)

/-- `send_err` -/
def sendErr (a : SocketAns) (fd errcode : Int) (msg : List Byte) : List Sent × Int :=
  let text := if 0 < msg.length then [Sent.writen fd msg] else []
  if 0 < msg.length ∧ a.writen ≠ msg.length then (text, -1)
  else
    let errcode := if errcode ≥ 0 then -1 else errcode
    let r := sendFd a fd errcode
    (text ++ r.1, if r.2 < 0 then -1 else 0)

/-- What `recvmsg` returns: -1, or the bytes, none at the end of the stream, and the descriptor that
has been received with them. -/
inductive Recvmsg where
  | error
  | data (buf : List Byte) (control : Option Int)
  deriving DecidableEq

/-- How `recv_fd` ends: it returns, it aborts with `err_dump`, or it waits. -/
inductive RecvFd where
  | ret (n : Int)
  | dump
  | wait
  deriving DecidableEq

/-- The loop through a piece, from `ptr` on: `nr`, and `newfd`, when the final data has been found;
nothing when it aborts. -/
def scan (control : Option Int) : List Byte → (ptr nr : Nat) → Option Int → Option (Nat × Option Int)
  | [], _, nr, newfd => some (nr, newfd)
  | b :: rest, ptr, nr, newfd =>
    if ptr < nr then
      if b = 0 then
        -- the final 0 has to be the last byte but one
        if ptr + 1 ≠ nr - 1 then none
        else
          match rest.head? with
          | none => none
          | some status =>
            if status = 0 then
              -- status 0 comes with a descriptor
              match control with
              | none => none
              | some fd => scan control rest (ptr + 1) (nr - 2) (some fd)
            else scan control rest (ptr + 1) (nr - 2) (some (-(status.toNat : Int)))
      else scan control rest (ptr + 1) nr newfd
    else some (nr, newfd)

/-- The loop of `recv_fd`; what has been passed to `userfunc`, and the end. -/
def recvLoop (userfunc : List (List Byte) → List Byte → Int) :
    List Recvmsg → List (List Byte) → List (List Byte) × RecvFd
  | [], passed => (passed, .wait)
  | .error :: _, passed => (passed, .ret (-1))
  | .data [] _ :: _, passed => (passed, .ret (-1))
  | .data buf control :: rest, passed =>
    match scan control buf 0 buf.length none with
    | none => (passed, .dump)
    | some (nr, newfd) =>
      let buf := buf.take nr
      -- what is in front of the final two bytes
      let passed' := if nr > 0 then passed ++ [buf] else passed
      if nr > 0 ∧ userfunc passed buf ≠ nr then (passed', .ret (-1))
      else
        match newfd with
        | some newfd => (passed', .ret newfd)
        | none => recvLoop userfunc rest passed'

/-- `recv_fd` -/
def recvFd (userfunc : List (List Byte) → List Byte → Int) (rs : List Recvmsg) :
    List (List Byte) × RecvFd :=
  recvLoop userfunc rs []

/-! ## The stream -/

def Sent.bytes : Sent → List Byte
  | .writen _ buf | .sendmsg _ buf _ => buf

def Recvmsg.bytes : Recvmsg → List Byte
  | .error => []
  | .data buf _ => buf

/-- The bytes on the stream. -/
def stream (sent : List Sent) : List Byte := sent.flatMap Sent.bytes

def received (rs : List Recvmsg) : List Byte := rs.flatMap Recvmsg.bytes

/-- A descriptor has been sent with a byte between `o` and `o + n`. -/
def SentFd (sent : List Sent) (o n : Nat) : Prop :=
  ∃ s₁ fd buf d s₂, sent = s₁ ++ .sendmsg fd buf (some d) :: s₂ ∧
    o ≤ (stream s₁).length ∧ (stream s₁).length < o + n

/-- A way in which the socket hands over what has been sent, to calls of `recvmsg` with `MAXLINE`
bytes of room: in any pieces, but the two bytes of a `sendmsg` come together unless the buffer is
full between them. A descriptor becomes `newfd`, and comes with the bytes it has been sent with. -/
structure Delivered (sent : List Sent) (newfd : Int) (rs : List Recvmsg) : Prop where
  bytes : received rs = stream sent
  piece : ∀ r ∈ rs, r.bytes ≠ [] ∧ r.bytes.length ≤ MAXLINE
  together : ∀ s₁ fd buf c s₂ l r rest, sent = s₁ ++ .sendmsg fd buf c :: s₂ → rs = l ++ r :: rest →
    (received l).length + r.bytes.length = (stream s₁).length + 1 → r.bytes.length = MAXLINE
  control : ∀ l buf c rest, rs = l ++ .data buf c :: rest →
    (SentFd sent (received l).length buf.length → c = some newfd) ∧
    (¬ SentFd sent (received l).length buf.length → c = none)

/-! ## A piece -/

section Scan

variable {control : Option Int} {s : List Byte}

/-- Bytes without a null are passed over. -/
theorem scan_append (hs : 0 ∉ s) (r : List Byte) (newfd : Option Int) : ∀ {ptr nr : Nat},
    ptr + s.length ≤ nr → scan control (s ++ r) ptr nr newfd = scan control r (ptr + s.length) nr newfd := by
  induction s with
  | nil => exact fun _ => rfl
  | cons b s ih =>
    intro ptr nr hle
    rw [List.length_cons] at hle
    have hb : b ≠ 0 := fun hb => hs (hb ▸ List.mem_cons_self)
    have hrest := @ih (fun hmem => hs (List.mem_cons_of_mem _ hmem)) (ptr + 1) nr (by omega)
    rw [List.cons_append, scan.eq_def]
    dsimp only
    rw [if_pos (by omega), if_neg hb, hrest, List.length_cons, Nat.add_assoc, Nat.add_comm 1]

/-- Behind the last byte. -/
theorem scan_done {ptr nr : Nat} {newfd : Option Int} (h : ¬ ptr < nr) :
    scan control s ptr nr newfd = some (nr, newfd) := by
  cases s with
  | nil => rfl
  | cons b s =>
    unfold scan
    rw [if_neg h]

/-- A piece without a null. -/
theorem scan_text (hs : 0 ∉ s) : scan control s 0 s.length none = some (s.length, none) := by
  have h := @scan_append control s hs [] none 0 s.length (by omega)
  rw [List.append_nil] at h
  rw [h, Nat.zero_add]
  rfl

/-- A piece that ends with an error status. -/
theorem scan_status (hs : 0 ∉ s) {t : Byte} (ht : t ≠ 0) :
    scan control (s ++ [0, t]) 0 (s ++ [0, t]).length none = some (s.length, some (-(t.toNat : Int))) := by
  have hlen : (s ++ [0, t]).length = s.length + 2 := by simp
  rw [hlen, scan_append hs _ _ (by omega), Nat.zero_add]
  unfold scan
  rw [if_pos (by omega), if_pos rfl, if_neg (by omega)]
  dsimp only [List.head?_cons]
  rw [if_neg ht, Nat.add_sub_cancel]
  exact scan_done (by omega)

/-- A piece that ends with a descriptor. -/
theorem scan_fd (hs : 0 ∉ s) (fd : Int) :
    scan (some fd) (s ++ [0, 0]) 0 (s ++ [0, 0]).length none = some (s.length, some fd) := by
  have hlen : (s ++ [0, 0]).length = s.length + 2 := by simp
  rw [hlen, scan_append hs _ _ (by omega), Nat.zero_add]
  unfold scan
  rw [if_pos (by omega), if_pos rfl, if_neg (by omega)]
  dsimp only [List.head?_cons]
  rw [if_pos rfl, Nat.add_sub_cancel]
  exact scan_done (by omega)

end Scan

/-! ## The receiver -/

section Receiver

variable {userfunc : List (List Byte) → List Byte → Int} {rs : List Recvmsg} {m : List Byte} {t : Byte}
  {newfd : Int} {passed : List (List Byte)}

/-- What `recv_fd` returns for a status byte. -/
def result (t : Byte) (newfd : Int) : Int := if t = 0 then newfd else -(t.toNat : Int)

/-- The descriptor comes with the null. -/
def FdWithNull (rs : List Recvmsg) (o : Nat) (newfd : Int) : Prop :=
  ∀ l buf c rest, rs = l ++ .data buf c :: rest → (received l).length ≤ o →
    o < (received l).length + buf.length → c = some newfd

/-- No piece ends with the null. -/
def NullInside (rs : List Recvmsg) (o : Nat) : Prop :=
  ∀ l r rest, rs = l ++ r :: rest → (received l).length + r.bytes.length ≠ o + 1

/-- What the receiver does with the text `m` and a status in front of it: it passes the text on, in
order, and returns; it stops before that only if `userfunc` fails. -/
structure Passes (userfunc : List (List Byte) → List Byte → Int) (m : List Byte) (n : Int)
    (extra : List (List Byte)) (e : Int) : Prop where
  ne : ∀ x ∈ extra, x ≠ []
  text : extra.flatten <+: m
  ends : e = n ∨ e = -1 ∧ extra ≠ []
  all : (∀ passed buf, userfunc passed buf = buf.length) → extra.flatten = m ∧ e = n

/-- The piece with the status. -/
theorem scan_last {control : Option Int} (hm : 0 ∉ m) (hc : t = 0 → control = some newfd) :
    scan control (m ++ [0, t]) 0 (m ++ [0, t]).length none = some (m.length, some (result t newfd)) := by
  unfold result
  by_cases ht : t = 0
  · rw [if_pos ht, hc ht, ht]
    exact scan_fd hm newfd
  · rw [if_neg ht]
    exact scan_status hm ht

/-- A piece of text is passed on. -/
theorem recvLoop_text {buf : List Byte} {c : Option Int} (hbuf : buf ≠ []) (h : 0 ∉ buf) :
    recvLoop userfunc (.data buf c :: rs) passed =
      if userfunc passed buf ≠ buf.length then (passed ++ [buf], .ret (-1))
      else recvLoop userfunc rs (passed ++ [buf]) := by
  obtain ⟨b, s, rfl⟩ := List.exists_cons_of_ne_nil hbuf
  have hpos : (b :: s).length > 0 := Nat.succ_pos _
  rw [recvLoop.eq_def]
  dsimp only
  rw [scan_text h]
  dsimp only
  rw [List.take_length, if_pos hpos]
  simp only [hpos, true_and]

/-- The piece with the status: what is left of the text is passed on, and the loop ends. -/
theorem recvLoop_last {c : Option Int} (hm : 0 ∉ m) (hc : t = 0 → c = some newfd) :
    recvLoop userfunc (.data (m ++ [0, t]) c :: rs) passed =
      if m = [] then (passed, .ret (result t newfd))
      else if userfunc passed m ≠ m.length then (passed ++ [m], .ret (-1))
      else (passed ++ [m], .ret (result t newfd)) := by
  obtain ⟨b, s, hs⟩ : ∃ b s, m ++ [0, t] = b :: s := List.exists_cons_of_ne_nil (by simp)
  have hscan := @scan_last _ t newfd c hm hc
  have htake : (m ++ [0, t]).take m.length = m := List.take_left
  rw [hs] at hscan htake ⊢
  rw [recvLoop.eq_def]
  dsimp only
  rw [hscan]
  dsimp only
  rw [htake]
  cases m with
  | nil =>
    have hzero : ¬ ([] : List Byte).length > 0 := Nat.lt_irrefl 0
    rw [if_neg fun h => hzero h.1, if_neg hzero, if_pos rfl]
  | cons a m =>
    have hpos : (a :: m).length > 0 := Nat.succ_pos _
    rw [if_pos hpos, if_neg (List.cons_ne_nil a m)]
    simp only [hpos, true_and]

theorem NullInside.tail {buf m' : List Byte} {c : Option Int}
    (h : NullInside (.data buf c :: rs) (buf ++ m').length) : NullInside rs m'.length := by
  intro l r rest he hlen
  refine h (.data buf c :: l) r rest (by rw [he]; rfl) ?_
  show (buf ++ received l).length + r.bytes.length = _
  rw [List.length_append, List.length_append]
  omega

theorem FdWithNull.tail {buf m' : List Byte} {c : Option Int}
    (h : FdWithNull (.data buf c :: rs) (buf ++ m').length newfd) : FdWithNull rs m'.length newfd := by
  intro l buf' c' rest he hle hlt
  refine h (.data buf c :: l) buf' c' rest (by rw [he]; rfl) ?_ ?_
  · show (buf ++ received l).length ≤ _
    rw [List.length_append, List.length_append]
    omega
  · show _ < (buf ++ received l).length + _
    rw [List.length_append, List.length_append]
    omega

/-- One more piece of text. -/
theorem Passes.cons {n e : Int} {buf m' : List Byte} {extra : List (List Byte)} (hbuf : buf ≠ [])
    (h : Passes userfunc m' n extra e) : Passes userfunc (buf ++ m') n (buf :: extra) e := by
  refine ⟨fun x hx => ?_, ?_, ?_, fun hu => ?_⟩
  · rcases List.mem_cons.mp hx with rfl | hx
    · exact hbuf
    · exact h.ne x hx
  · rw [List.flatten_cons]
    exact (List.prefix_append_right_inj buf).mpr h.text
  · exact h.ends.imp id fun hbad => ⟨hbad.1, List.cons_ne_nil buf extra⟩
  · obtain ⟨hall, hen⟩ := h.all hu
    rw [List.flatten_cons, hall]
    exact ⟨rfl, hen⟩

/-- `userfunc` fails. -/
theorem Passes.fails {n : Int} {m' : List Byte} (hm : m ≠ [])
    (hu : userfunc passed m ≠ m.length) : Passes userfunc (m ++ m') n [m] (-1) := by
  refine ⟨fun x hx => ?_, ?_, Or.inr ⟨rfl, List.cons_ne_nil m []⟩,
    fun hall => absurd (hall passed m) hu⟩
  · rw [List.mem_singleton.mp hx]
    exact hm
  · rw [List.flatten_singleton]
    exact List.prefix_append m m'

/-- **The receiver, on any pieces**: the induction is on the pieces, with what is still to come of
the text. -/
theorem recv_fd_pieces : ∀ {rs : List Recvmsg} {m : List Byte} {passed : List (List Byte)}, 0 ∉ m →
    received rs = m ++ [0, t] → (∀ r ∈ rs, r.bytes ≠ []) → NullInside rs m.length →
    (t = 0 → FdWithNull rs m.length newfd) →
    ∃ extra e, recvLoop userfunc rs passed = (passed ++ extra, .ret e) ∧
      Passes userfunc m (result t newfd) extra e := by
  intro rs
  induction rs with
  | nil => exact fun _ hr => absurd hr (by simp [received])
  | cons r rs ih =>
    intro m passed hm hr hne hin hfd
    cases r with
    | error => exact absurd rfl (hne .error List.mem_cons_self)
    | data buf c =>
      have hbuf : buf ≠ [] := hne (.data buf c) List.mem_cons_self
      change buf ++ received rs = m ++ [0, t] at hr
      -- the piece is text
      have htext : ∀ m', m = buf ++ m' → received rs = m' ++ [0, t] →
          ∃ extra e, recvLoop userfunc (.data buf c :: rs) passed = (passed ++ extra, .ret e) ∧
            Passes userfunc m (result t newfd) extra e := by
        rintro m' rfl hr'
        rw [recvLoop_text hbuf fun h => hm (List.mem_append_left _ h)]
        split
        · next hu => exact ⟨[buf], -1, rfl, .fails hbuf hu⟩
        · obtain ⟨extra, e, hloop, hp⟩ := @ih m' (passed ++ [buf])
            (fun h => hm (List.mem_append_right _ h)) hr'
            (fun r h => hne r (List.mem_cons_of_mem _ h)) hin.tail fun ht => (hfd ht).tail
          refine ⟨buf :: extra, e, ?_, hp.cons hbuf⟩
          rw [hloop, List.append_assoc]
          rfl
      rcases List.append_eq_append_iff.mp hr with ⟨m', hm', hr'⟩ | ⟨s, rfl, hr'⟩
      · exact htext m' hm' hr'
      · match s, hr' with
        | [], hr' => exact htext [] (by simp) hr'.symm
        | [a], _ =>
          -- a piece does not end with the null
          refine absurd ?_ (hin [] (.data (m ++ [a]) c) rs rfl)
          show 0 + (m ++ [a]).length = m.length + 1
          rw [List.length_append, Nat.zero_add]
          rfl
        | a :: b :: s, hr' =>
          -- the piece with the status
          obtain ⟨rfl, htail⟩ := List.cons.inj hr'
          obtain ⟨rfl, -⟩ := List.cons.inj htail
          obtain ⟨rfl, -⟩ := List.append_eq_nil_iff.mp (List.cons.inj htail).2.symm
          have hc : t = 0 → c = some newfd := by
            intro ht
            refine hfd ht [] _ c rs rfl (Nat.zero_le _) ?_
            show m.length < 0 + (m ++ [0, t]).length
            simp
          rw [recvLoop_last hm hc]
          by_cases hnil : m = []
          · rw [if_pos hnil]
            refine ⟨[], _, by rw [List.append_nil], by simp, List.nil_prefix, Or.inl rfl, fun _ => ?_⟩
            exact ⟨hnil.symm, rfl⟩
          · rw [if_neg hnil]
            split
            · next hu =>
              have hp := @Passes.fails userfunc m passed (result t newfd) [] hnil hu
              rw [List.append_nil] at hp
              exact ⟨[m], -1, rfl, hp⟩
            · refine ⟨[m], _, rfl, by simpa using hnil, ?_, Or.inl rfl, fun _ => ?_⟩
              · rw [List.flatten_singleton]
              · exact ⟨List.flatten_singleton .., rfl⟩

end Receiver

/-! ## Sending and receiving -/

section Protocol

variable {fd newfd n : Int} {m : List Byte} {rs : List Recvmsg} {sent : List Sent}

theorem statusByte_ne (n : Int) : statusByte n ≠ 0 := by
  unfold statusByte
  split
  · decide
  · next h => exact h

theorem toNat_statusByte (hlo : -255 ≤ n) (hhi : n ≤ -1) : (statusByte n).toNat = -n := by
  have hmod : (UInt8.ofInt (-n)).toNat = -n := by
    have hofNat : (UInt8.ofInt (-n)).toNat = (-n % 2 ^ 8).toNat % 2 ^ 8 := UInt8.toNat_ofNat'
    rw [hofNat]
    omega
  have hb : UInt8.ofInt (-n) ≠ 0 := by
    intro h
    rw [h] at hmod
    have hzero : ((0 : UInt8).toNat : Int) = 0 := rfl
    omega
  unfold statusByte
  rw [if_neg hb, hmod]

/-- What is sent in front of the status. -/
def text (fd : Int) (m : List Byte) : List Sent := if 0 < m.length then [.writen fd m] else []

theorem stream_text (fd : Int) (m : List Byte) : stream (text fd m) = m := by
  unfold text
  split
  · exact List.append_nil m
  · next h => exact (List.eq_nil_of_length_eq_zero (by omega)).symm

/-- `send_err` sends an error. -/
theorem sendErr_sent {a : SocketAns} {errcode : Int} (h : (sendErr a fd errcode m).2 = 0) :
    (sendErr a fd errcode m).1 = text fd m ++
      [.sendmsg fd [0, statusByte (if errcode ≥ 0 then -1 else errcode)] none] := by
  have hneg : (if errcode ≥ 0 then -1 else errcode) < 0 := by
    split
    · decide
    · omega
  unfold sendErr at h ⊢
  dsimp only at h ⊢
  split at h
  · exact absurd h (by simp)
  · next hw =>
    rw [if_neg hw]
    unfold sendFd text
    rw [if_pos hneg]

/-- The text of a message leaves room in the buffer: no piece ends with the null. -/
theorem Delivered.nullInside {s₁ s₂ : List Sent} {buf : List Byte} {c : Option Int}
    (h : Delivered sent newfd rs) (hsent : sent = s₁ ++ .sendmsg fd buf c :: s₂)
    (hlen : (stream s₁).length + 1 < MAXLINE) : NullInside rs (stream s₁).length := by
  intro l r rest hrs he
  have hfull := h.together s₁ fd buf c s₂ l r rest hsent hrs he
  omega

/-- **Messages and descriptors arrive.** The message that `send_err` sends is passed to `userfunc`
in order, in whatever pieces it comes, and `recv_fd` returns the error status; a descriptor that
`send_fd` sends is returned, and nothing is passed to `userfunc`. -/
theorem recv_fd_result :
    (∀ (a : SocketAns) (fd errcode newfd : Int) (m : List Byte) (rs : List Recvmsg)
      (userfunc : List (List Byte) → List Byte → Int),
      0 ∉ m → m.length ≤ MAXLINE - 2 → (sendErr a fd errcode m).2 = 0 →
      Delivered (sendErr a fd errcode m).1 newfd rs →
      ∃ passed n, recvFd userfunc rs = (passed, .ret n) ∧ passed.flatten <+: m ∧ n < 0 ∧
        ((∀ passed buf, userfunc passed buf = buf.length) →
          passed.flatten = m ∧ (-255 ≤ errcode → errcode ≤ -1 → n = errcode))) ∧
    (∀ (a : SocketAns) (fd fd_to_send newfd : Int) (rs : List Recvmsg)
      (userfunc : List (List Byte) → List Byte → Int),
      0 ≤ fd_to_send → (sendFd a fd fd_to_send).2 = 0 →
      Delivered (sendFd a fd fd_to_send).1 newfd rs → recvFd userfunc rs = ([], .ret newfd)) := by
  constructor
  · intro a fd errcode newfd m rs userfunc hm hlen hok hd
    rw [sendErr_sent hok] at hd
    have hst := statusByte_ne (if errcode ≥ 0 then -1 else errcode)
    have hbytes : received rs = m ++ [0, statusByte (if errcode ≥ 0 then -1 else errcode)] := by
      rw [hd.bytes, stream, List.flatMap_append]
      exact congrArg (· ++ _) (stream_text fd m)
    have hnull := hd.nullInside rfl (by rw [stream_text]; simp at hlen ⊢; omega)
    rw [stream_text] at hnull
    obtain ⟨extra, n, hloop, hp⟩ := @recv_fd_pieces userfunc _ newfd rs m [] hm hbytes
      (fun r hr => (hd.piece r hr).1) hnull fun h => absurd h hst
    have hres : result (statusByte (if errcode ≥ 0 then -1 else errcode)) newfd =
      -((statusByte (if errcode ≥ 0 then -1 else errcode)).toNat : Int) := if_neg hst
    have hpos : 0 < (statusByte (if errcode ≥ 0 then -1 else errcode)).toNat :=
      Nat.pos_of_ne_zero fun h => hst (UInt8.toNat_inj.mp h)
    refine ⟨extra, n, hloop, hp.text, ?_, fun hu => ⟨(hp.all hu).1, fun hlo hhi => ?_⟩⟩
    · rcases hp.ends with rfl | ⟨rfl, -⟩
      · omega
      · decide
    · rw [(hp.all hu).2, hres, if_neg (by omega), toNat_statusByte hlo hhi, Int.neg_neg]
  · intro a fd fd_to_send newfd rs userfunc hfd _ hd
    have hsent : (sendFd a fd fd_to_send).1 = [.sendmsg fd [0, 0] (some fd_to_send)] := by
      unfold sendFd
      dsimp only
      rw [if_neg (by omega)]
    rw [hsent] at hd
    have hnull := @Delivered.nullInside fd newfd rs _ [] [] _ _ hd rfl (by decide)
    obtain ⟨extra, n, hloop, hp⟩ := @recv_fd_pieces userfunc 0 newfd rs [] [] (by simp) hd.bytes
      (fun r hr => (hd.piece r hr).1) hnull fun _ l buf c rest hrs hle hlt =>
        (hd.control l buf c rest hrs).1 ⟨[], fd, _, _, [], rfl, hle, hlt⟩
    -- there is no text, so `userfunc` cannot fail
    have hextra : extra = [] := by
      refine List.eq_nil_iff_forall_not_mem.mpr fun x hx => hp.ne x hx ?_
      exact List.flatten_eq_nil_iff.mp (List.prefix_nil.mp hp.text) x hx
    subst hextra
    have hn : n = newfd := hp.ends.elim id fun h => absurd rfl h.2
    rw [recvFd, hloop, hn]
    rfl

theorem split_two {α : Type} {x y r : α} {l rest : List α} (h : [x, y] = l ++ r :: rest) :
    l = [] ∧ r = x ∨ l = [x] ∧ r = y := by
  match l, h with
  | [], h => exact Or.inl ⟨rfl, (List.cons.inj h).1.symm⟩
  | [_], h =>
    obtain ⟨rfl, htail⟩ := List.cons.inj h
    exact Or.inr ⟨rfl, (List.cons.inj htail).1.symm⟩
  | _ :: _ :: l, h => exact absurd (congrArg List.length h) (by simp)

/-- An error with the text "no" that comes in two pieces, and a descriptor. -/
theorem recv_fd_result_two :
    (∃ passed n, recvFd (fun _ buf => buf.length) [.data [110] none, .data [111, 0, 5] none] =
      (passed, .ret n) ∧ passed.flatten = [110, 111] ∧ n = -5) ∧
    recvFd (fun _ buf => buf.length) [.data [0, 0] (some 9)] = ([], .ret 9) := by
  have herr : Delivered (sendErr ⟨2, 2⟩ 7 (-5) [110, 111]).1 9
      [.data [110] none, .data [111, 0, 5] none] := by
    have hsent : (sendErr ⟨2, 2⟩ 7 (-5) [110, 111]).1 =
      [.writen 7 [110, 111], .sendmsg 7 [0, 5] none] := by decide
    rw [hsent]
    refine ⟨rfl, by decide, fun s₁ fd buf c s₂ l r rest hs hrs hlen => ?_, fun l buf c rest hrs => ⟨?_, ?_⟩⟩
    · rcases split_two hs with ⟨-, hs⟩ | ⟨rfl, -⟩
      · exact absurd hs (by simp)
      · rcases split_two hrs with ⟨rfl, rfl⟩ | ⟨rfl, rfl⟩
        · exact absurd hlen (by decide)
        · exact absurd hlen (by decide)
    · rintro ⟨s₁, fd, buf', d, s₂, hs, -⟩
      rcases split_two hs with ⟨-, hs⟩ | ⟨-, hs⟩
      · exact absurd hs (by simp)
      · exact absurd hs (by simp)
    · intro _
      rcases split_two hrs with ⟨-, hc⟩ | ⟨-, hc⟩
      · exact (Recvmsg.data.inj hc).2
      · exact (Recvmsg.data.inj hc).2
  have hfd : Delivered (sendFd ⟨0, 2⟩ 7 4).1 9 [.data [0, 0] (some 9)] := by
    have hone : ∀ {x r : Recvmsg} {l rest : List Recvmsg}, [x] = l ++ r :: rest → l = [] ∧ r = x := by
      intro x r l rest h
      cases l with
      | nil => exact ⟨rfl, (List.cons.inj h).1.symm⟩
      | cons y l => exact absurd (congrArg List.length h) (by simp)
    refine ⟨rfl, by decide, fun s₁ fd buf c s₂ l r rest hs hrs hlen => ?_, fun l buf c rest hrs => ?_⟩
    · obtain ⟨rfl, rfl⟩ := hone hrs
      match s₁, hs with
      | [], _ => exact absurd hlen (by decide)
      | _ :: s₁, hs => exact absurd (congrArg List.length hs) (by simp [sendFd])
    · obtain ⟨rfl, hc⟩ := hone hrs
      obtain ⟨rfl, rfl⟩ := Recvmsg.data.inj hc
      exact ⟨fun _ => rfl, fun hno => absurd ⟨[], 7, [0, 0], 4, [], rfl, by decide, by decide⟩ hno⟩
  obtain ⟨passed, n, hrecv, -, -, hall⟩ := recv_fd_result.1 ⟨2, 2⟩ 7 (-5) 9 [110, 111] _
    (fun _ buf => buf.length) (by decide) (by decide) (by decide) herr
  obtain ⟨hpassed, hn⟩ := hall fun _ _ => rfl
  exact ⟨⟨passed, n, hrecv, hpassed, hn (by decide) (by decide)⟩,
    recv_fd_result.2 ⟨0, 2⟩ 7 4 9 _ _ (by decide) (by decide) hfd⟩

end Protocol

end LearningNotes.Opend
