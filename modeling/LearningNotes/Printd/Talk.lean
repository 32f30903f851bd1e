import LearningNotes.Printd.Headers

/-!
# Sending a job to the printer

`printer_thread` from `writev` of the two headers up to the call of `printer_status`, or to
`defer`. A step is one system call, and `Ans` is what it answers. The length that the HTTP header
announces is that of what follows it, whatever the sizes of the pieces are, exactly when there is
room for the headers in their buffers (`sent_length_iff`).

Mirroring notes:
- The file is not changed while it is sent, so `st_size` is its length, and `read` returns 0 only
  at its end.
- When a write has been behind the end of its buffer, the thread may be anywhere, and may have sent
  anything.
-/

namespace LearningNotes.Printd

/-- What `printer_thread` sends: the job, the memory behind it, and the file. -/
structure Print where
  jp : Job
  behind : List Byte
  printer_name : CString
  file : List Byte

namespace Print

variable (r : Print)

/-- `ibuf` and `icp`. -/
def ibuf : Pen := ippHeader r.jp r.behind r.printer_name

/-- `hbuf` and `hcp`. -/
def hbuf : Pen := httpHeader r.printer_name (announced r.file.length r.ibuf.cp r.jp.text)

/-- The two pieces of `iov`. -/
def iov : List Byte := r.hbuf.mem.take r.hbuf.cp ++ r.ibuf.mem.take r.ibuf.cp

end Print

/-- Where the thread is. -/
inductive Talk where
  | writev
  /-- `write(sockfd, "\b", 1)` -/
  | backspace
  | read
  /-- `writen` with `ptr` still to be written -/
  | writen (ptr : List Byte)
  /-- `printer_status` is called. -/
  | status
  | defer
  deriving DecidableEq

/-- Where the thread is, what is left of the file, and what has been written to the socket. -/
structure Sending where
  pc : Talk
  rest : List Byte
  sent : List Byte
  deriving DecidableEq

/-- `write` of `buf` to the socket: whether it has written all of it, and what it has written. -/
def sockWrite (buf : List Byte) : Ans → Option (Bool × List Byte)
  | .ok => some (true, buf)
  | .count n => if n < buf.length then some (false, buf.take n) else none
  | .fail _ => some (false, [])
  | _ => none

/-- One system call. -/
def Print.step (r : Print) (s : Sending) (a : Ans) : Option Sending :=
  match s.pc with
  | .writev =>
    (sockWrite r.iov a).map fun w =>
      { s with
        pc := if w.1 then if r.jp.text then .backspace else .read else .defer
        sent := s.sent ++ w.2 }
  | .backspace =>
    (sockWrite [8] a).map fun w =>
      { s with pc := if w.1 then .read else .defer, sent := s.sent ++ w.2 }
  | .read =>
    match a with
    | .count n =>
      if 0 < n ∧ n ≤ IOBUFSZ ∧ n ≤ s.rest.length then
        some { s with pc := .writen (s.rest.take n), rest := s.rest.drop n }
      else none
    | .eof => if s.rest = [] then some { s with pc := .status } else none
    | .fail _ => some { s with pc := .defer }
    | _ => none
  | .writen ptr =>
    (sockWrite ptr a).map fun w =>
      -- nothing written, or an error, ends `writen`
      { s with
        pc := if w.1 then .read else if w.2 = [] then .defer else .writen (ptr.drop w.2.length)
        sent := s.sent ++ w.2 }
  | .status => none
  | .defer => none

/-- The calls, with what they answer. -/
def Print.run (r : Print) : List Ans → Sending → Option Sending
  | [], s => some s
  | a :: as, s => (r.step s a).bind (r.run as)

/-- The headers are put together, and nothing has been sent. -/
def Print.start (r : Print) : Sending := ⟨.writev, r.file, []⟩

/-- Where the thread can be when it has put the headers together. -/
def Print.Starts (r : Print) (s : Sending) : Prop :=
  headers r.jp r.behind r.printer_name r.file.length = some (r.ibuf, r.hbuf) → s = r.start

/-! ## What has been sent -/

variable {r : Print} {s s' : Sending} {a : Ans} {as : List Ans} {buf w : List Byte}

/-- Behind the headers: one backspace for text. -/
def Print.prologue (r : Print) : List Byte := if r.jp.text then [8] else []

/-- The invariant: what has been sent, and what is left, is the message. -/
def Print.Sent (r : Print) (s : Sending) : Prop :=
  match s.pc with
  | .writev => s.rest = r.file ∧ s.sent = []
  | .backspace => s.rest = r.file ∧ s.sent = r.iov ∧ r.jp.text
  | .read => s.sent ++ s.rest = r.iov ++ r.prologue ++ r.file
  | .writen ptr => s.sent ++ ptr ++ s.rest = r.iov ++ r.prologue ++ r.file
  | .status => s.sent = r.iov ++ r.prologue ++ r.file
  | .defer => True

theorem sockWrite_all (h : sockWrite buf a = some (true, w)) : w = buf := by
  cases a with
  | ok =>
    cases h
    rfl
  | count n =>
    simp only [sockWrite] at h
    split at h <;> cases h
  | _ => cases h

theorem sockWrite_part {done : Bool} (h : sockWrite buf a = some (done, w)) :
    w ++ buf.drop w.length = buf := by
  cases a with
  | ok =>
    cases h
    rw [List.drop_length, List.append_nil]
  | count n =>
    simp only [sockWrite] at h
    split at h
    next hn =>
      cases h
      rw [List.length_take, Nat.min_eq_left (Nat.le_of_lt hn), List.take_append_drop]
    next => cases h
  | fail e =>
    cases h
    rfl
  | _ => cases h

/-- **One call.** -/
theorem Print.Sent.step (h : r.Sent s) (hs : r.step s a = some s') : r.Sent s' := by
  obtain ⟨pc, rest, sent⟩ := s
  cases pc with
  | writev =>
    obtain ⟨hrest, hsent⟩ := h
    dsimp only at hrest hsent
    simp only [Print.step, Option.map_eq_some_iff] at hs
    obtain ⟨⟨done, w⟩, hw, rfl⟩ := hs
    cases done with
    | false => trivial
    | true =>
      have hall := sockWrite_all hw
      cases htext : r.jp.text with
      | true => simp [Print.Sent, htext, hrest, hsent, hall]
      | false => simp [Print.Sent, Print.prologue, htext, hrest, hsent, hall]
  | backspace =>
    obtain ⟨hrest, hsent, htext⟩ := h
    dsimp only at hrest hsent
    simp only [Print.step, Option.map_eq_some_iff] at hs
    obtain ⟨⟨done, w⟩, hw, rfl⟩ := hs
    cases done with
    | false => trivial
    | true =>
      have hall := sockWrite_all hw
      simp [Print.Sent, Print.prologue, htext, hrest, hsent, hall]
  | read =>
    cases a with
    | count n =>
      simp only [Print.step] at hs
      split at hs
      next =>
        cases hs
        change sent ++ rest.take n ++ rest.drop n = _
        rw [List.append_assoc, List.take_append_drop]
        exact h
      next => cases hs
    | eof =>
      simp only [Print.step] at hs
      split at hs
      next hrest =>
        cases hs
        subst hrest
        rw [Print.Sent, List.append_nil] at h
        exact h
      next => cases hs
    | fail e =>
      cases hs
      trivial
    | _ => cases hs
  | writen ptr =>
    simp only [Print.step, Option.map_eq_some_iff] at hs
    obtain ⟨⟨done, w⟩, hw, rfl⟩ := hs
    cases done with
    | true =>
      have hall := sockWrite_all hw
      subst hall
      exact h
    | false =>
      -- a short write leaves the rest to the next call
      by_cases hnil : w = []
      · simp [Print.Sent, hnil]
      · have hpart := sockWrite_part hw
        simp only [Print.Sent, if_neg hnil, Bool.false_eq_true, if_false]
        rw [List.append_assoc sent, hpart]
        exact h
  | status => cases hs
  | defer => cases hs

theorem Print.Sent.run (h : r.Sent s) (hs : r.run as s = some s') : r.Sent s' := by
  induction as generalizing s with
  | nil =>
    cases hs
    exact h
  | cons a as ih =>
    obtain ⟨s₁, hstep, hs⟩ := Option.bind_eq_some_iff.mp hs
    exact ih (h.step hstep) hs

/-- The headers, as they are sent. -/
theorem Print.iov_eq (r : Print) : r.iov =
    headerBytes (httpLines r.printer_name (announced r.file.length r.ibuf.cp r.jp.text)) ++
      ippBytes r.jp r.behind r.printer_name := by
  have hhttp := (httpHeader_wrote r.printer_name
    (announced r.file.length r.ibuf.cp r.jp.text)).bytes
  have hipp := (ippHeader_wrote r.jp r.behind r.printer_name).bytes
  exact congrArg₂ (· ++ ·) hhttp hipp

/-- The HTTP header with the length of what follows, the IPP header, a backspace if the job is text,
and the file. -/
def Print.Right (r : Print) (sent : List Byte) : Prop :=
  ∃ n body, sent = headerBytes (httpLines r.printer_name n) ++ body ∧ body.length = n ∧
    body = ippBytes r.jp r.behind r.printer_name ++ (if r.jp.text then [8] else []) ++ r.file

/-- From the headers on. -/
theorem Print.right_of_run (r : Print) (hrun : r.run as r.start = some s) (hpc : s.pc = .status) :
    r.Right s.sent := by
  have hstart : r.Sent r.start := ⟨rfl, rfl⟩
  have hsent := hstart.run hrun
  rw [Print.Sent, hpc] at hsent
  refine ⟨announced r.file.length r.ibuf.cp r.jp.text, _, ?_, ?_, rfl⟩
  · have hsent' : s.sent = r.iov ++ r.prologue ++ r.file := hsent
    rw [hsent', r.iov_eq, Print.prologue]
    simp only [List.append_assoc]
  · have hcp : r.ibuf.cp = (ippBytes r.jp r.behind r.printer_name).length := by
      rw [Print.ibuf, (ippHeader_wrote r.jp r.behind r.printer_name).cp, Nat.zero_add]
    rw [announced, hcp, extra]
    split
    · simp only [List.length_append, List.length_cons, List.length_nil]
      omega
    · simp only [List.length_append, List.length_nil]
      omega

/-- Something is always sent. -/
theorem Print.not_right_nil (r : Print) : ¬ r.Right [] := by
  rintro ⟨n, body, hnil, -⟩
  have hlen := congrArg List.length hnil
  rw [List.length_append, length_headerBytes, List.length_nil] at hlen
  omega

/-- **What is sent before `printer_status` is called** is right in every run exactly if there is room
for the headers. -/
theorem sent_length_iff (r : Print) :
    (∀ s₀ as s, r.Starts s₀ → r.run as s₀ = some s → s.pc = .status → r.Right s.sent) ↔
      Room r.jp r.behind r.printer_name r.file.length := by
  constructor
  · intro hright
    by_contra hroom
    refine r.not_right_nil (hright ⟨.status, [], []⟩ [] _ (fun hsome => ?_) rfl rfl)
    rw [headers_none hroom] at hsome
    exact absurd hsome nofun
  · intro hroom s₀ as s hstarts hrun hpc
    rw [hstarts (headers_eq _ _ _ _ hroom)] at hrun
    exact r.right_of_run hrun hpc

/-- The longest names as PostScript, for a printer with a name in a domain. -/
def longestPrint : Print :=
  ⟨namesJob 0 63 255 (by decide) (by decide), [], ⟨str "laser.example.com", by decide⟩, str "hi"⟩

/-- There is no room for them. -/
theorem sent_length_longest : ¬ ∀ (r : Print) (s₀ : Sending) (as : List Ans) (s : Sending),
    r.Starts s₀ → r.run as s₀ = some s → s.pc = .status → r.Right s.sent := by
  intro h
  have hroom : ¬ Room longestPrint.jp longestPrint.behind longestPrint.printer_name
      longestPrint.file.length := fun hroom => absurd hroom.ibuf (by decide +kernel)
  refine longestPrint.not_right_nil (h longestPrint ⟨.status, [], []⟩ [] _ (fun hsome => ?_) rfl rfl)
  rw [headers_none hroom] at hsome
  exact absurd hsome nofun

/-- Two bytes as text are read in one piece, and written one by one. -/
example : let r : Print :=
      ⟨namesJob PR_TEXT 3 4 (by decide) (by decide), [], ⟨str "laser", by decide⟩, str "hi"⟩
    ((r.run [.ok, .ok, .count 2, .count 1, .ok, .eof] r.start).any (·.pc = .status)) = true := by
  decide +kernel

end LearningNotes.Printd
