import LearningNotes.Printd.Acts

/-!
# A submission, from end to end

`submit_file` (`print.c`) sends a request that announces the size of the file, and then the file.
`client_thread` reads what arrives, in pieces of any size, until `tread` returns 0 or -1, and it
takes both for the end of the file: it compares nothing with `req.size`, and it does not tell an
end of the stream from a timeout or an error, as `treadn` does for the request and
`printer_thread` for the spooled file.

So the spooled file is the submitted one exactly if all of the stream has arrived when `tread`
returns 0 or -1 (`spooled_iff`).

Mirroring notes:
- The fields of a request are buffers on the stack: what `strcpy` does not write keeps its bytes.
- The connection may be cut, or stall, behind any byte. That `submit_file` fails to write is the
  same for the daemon.
-/

namespace LearningNotes.Printd

/-! ## `submit_file` -/

/-- `strcpy` into a buffer. -/
def strcpy (buf s : List Byte) : List Byte := overwrite 0 buf 0 (s ++ [0])

/-- `strncpy` into a buffer: the rest of the `n` bytes is filled with zeros. -/
def strncpy (buf s : List Byte) (n : Nat) : List Byte :=
  overwrite 0 buf 0 (s.take n ++ List.replicate (n - s.length) 0)

/-- A buffer keeps its size. -/
theorem length_strcpy {buf s : List Byte} (h : s.length < buf.length) :
    (strcpy buf s).length = buf.length := by
  apply length_overwrite_of_le
  rw [List.length_append, List.length_singleton]
  omega

theorem length_strncpy {buf s : List Byte} {n : Nat} (h : n ≤ buf.length) :
    (strncpy buf s n).length = buf.length := by
  apply length_overwrite_of_le
  rw [List.length_append, List.length_take, List.length_replicate]
  omega

/-- `req.usernm`; `pw` is the name in the password file, if there is an entry. -/
def setUsernm (old : { s : List Byte // s.length = USERNM_MAX }) (pw : Option (List Byte)) :
    { s : List Byte // s.length = USERNM_MAX } :=
  match pw with
  | none => ⟨strcpy old.val (str "unknown"), by
      rw [length_strcpy (by rw [old.property]; decide), old.property]⟩
  | some name => ⟨overwrite 0 (strncpy old.val name (USERNM_MAX - 1)) (USERNM_MAX - 1) [0], by
      have hlen : (strncpy old.val name (USERNM_MAX - 1)).length = USERNM_MAX := by
        rw [length_strncpy (by rw [old.property]; decide), old.property]
      rw [length_overwrite_of_le _ (by rw [hlen]; decide), hlen]⟩

/-- `req.jobnm`: a name that is too long keeps its end. -/
def setJobnm (old : { s : List Byte // s.length = JOBNM_MAX }) (fname : List Byte) :
    { s : List Byte // s.length = JOBNM_MAX } :=
  if h : JOBNM_MAX ≤ fname.length then
    ⟨strcpy old.val (str "... " ++ fname.drop (fname.length - JOBNM_MAX + 5)), by
      have h' : 256 ≤ fname.length := h
      have hlen : (str "... " ++ fname.drop (fname.length - JOBNM_MAX + 5)).length = 255 := by
        rw [List.length_append, List.length_drop]
        show 4 + (fname.length - (fname.length - 256 + 5)) = 255
        omega
      rw [length_strcpy (by rw [hlen, old.property]; decide), old.property]⟩
  else
    ⟨strcpy old.val fname, by rw [length_strcpy (by rw [old.property]; omega), old.property]⟩

/-- The request that `submit_file` sends; `old` is what was on the stack. -/
def submitReq (old : PrintReq) (pw : Option (List Byte)) (fname : List Byte) (nbytes : Nat)
    (text : Bool) : PrintReq where
  size := ntohl (UInt32.ofNat nbytes)
  flags := if text then ntohl PR_TEXT else 0
  usernm := setUsernm old.usernm pw
  jobnm := setJobnm old.jobnm fname

/-- The loop that sends the file: `read` returns any number of bytes, and 0 at the end. -/
inductive Sends : List Byte → List Byte → Prop where
  | eof : Sends [] []
  | read {file sent : List Byte} (n : Nat) (hpos : 0 < n) (hbuf : n ≤ IOBUFSZ)
      (hn : n ≤ file.length) (h : Sends (file.drop n) sent) : Sends file (file.take n ++ sent)

/-- The file is sent as it is. -/
theorem Sends.eq {file sent : List Byte} (h : Sends file sent) : sent = file := by
  induction h with
  | eof => rfl
  | @read file sent n _ _ _ _ ih => rw [ih, List.take_append_drop]

/-! ## The client thread at work -/

/-- The number of the job that the thread works on, until it has been passed to `add_job`. -/
def Client.number : Client → Option Int
  | .jobUnlock _ i | .creatData _ i | .readData _ i _ _ | .writeData _ i _ _ | .creatReq _ i
  | .writeReq _ i | .reply _ i => some i
  | .adding (.malloc job) => some job.jobid
  | _ => none

/-- What the thread and the others lead to, from the connection `k₀` on. The others do not work on
the data file under the number of this thread. -/
inductive Serve (who : Who) (k₀ : Conn) : Client → Conn → Sys → Prop where
  | accept (s : Sys) : Serve who k₀ (.header []) k₀ s
  | run {c c' : Client} {k k' : Conn} {s s' : Sys} {a : Ans} (h : Serve who k₀ c k s)
      (hs : clientThread who c k s a = some (some c', k', s')) : Serve who k₀ c' k' s'
  | others {c : Client} {k : Conn} {s s' : Sys} (h : Serve who k₀ c k s)
      (hs : ∀ i, c.number = some i →
        s'.spool.data.get (fileName i) = s.spool.data.get (fileName i)) : Serve who k₀ c k s'

/-- How much of the file is in the spool, and how much is still to come. -/
def Taken (s : Sys) (i : Int) (file rest : List Byte) : Prop :=
  ∃ done, s.spool.data.get (fileName i) = some done ∧ done ++ rest = file

/-- The invariant: of the stream, which is the request `net` and the `file`, what has been read is
in the buffer or in the spool. The announced size stays in the request. -/
def Serving (net : PrintReq) (file : List Byte) (k : Conn) (s : Sys) : Client → Prop
  | .header got => got.length < REQSZ ∧ got ++ k.stream = net.bytes ++ file
  | .jobLock req | .jobInc req | .jobUnlock req _ | .creatData req _ =>
    req.size = ntohl net.size ∧ k.stream = file
  | .readData req i _ off => req.size = ntohl net.size ∧ ∃ done,
      s.spool.data.get (fileName i) = some done ∧ off = done.length ∧ done ++ k.stream = file
  | .writeData req i nr off => req.size = ntohl net.size ∧ ∃ done,
      s.spool.data.get (fileName i) = some done ∧ off = done.length ∧ nr ≤ k.buf.length ∧
        done ++ (k.buf.take nr ++ k.stream) = file
  | .creatReq req i | .writeReq req i | .reply req i =>
    req.size = ntohl net.size ∧ Taken s i file k.stream
  | .adding (.malloc job) => job.req.size = ntohl net.size ∧ Taken s job.jobid file k.stream
  | _ => True

theorem tread_ok {stream rest new : List Byte} {n : Nat} {a : Ans}
    (h : tread stream n a = some (.ok new, rest)) : new ++ rest = stream ∧ new.length ≤ n := by
  unfold tread at h
  split at h
  · split at h
    · next hn =>
      cases h
      refine ⟨List.take_append_drop .., ?_⟩
      rw [List.length_take]
      omega
    · exact absurd h (by simp)
  · cases h
    exact ⟨rfl, Nat.zero_le _⟩
  · exact absurd h (by simp)
  · exact absurd h (by simp)

theorem tread_error {stream rest : List Byte} {n : Nat} {a : Ans} {e : Errno}
    (h : tread stream n a = some (.error e, rest)) : rest = stream := by
  unfold tread at h
  split at h
  · split at h
    · exact absurd h (by simp)
    · exact absurd h (by simp)
  · exact absurd h (by simp)
  · cases h
    rfl
  · exact absurd h (by simp)

section Steps

variable {who : Who} {net : PrintReq} {file : List Byte} {k k' : Conn} {s s' : Sys} {a : Ans}
  {c c' : Client}

theorem ofBytes_length {b : List Byte} (h : b.length ≠ REQSZ) : PrintReq.ofBytes b = none :=
  dif_neg h

/-- The request as the thread has it in memory. -/
def PrintReq.received (net : PrintReq) : PrintReq :=
  { net with size := ntohl net.size, flags := ntohl net.flags }

/-- A step of `treadn`: it fails, or it goes on, or the request is complete and the file comes
next. -/
theorem header_cases {got : List Byte} (hlen : got.length < REQSZ)
    (hgot : got ++ k.stream = net.bytes ++ file)
    (hs : clientThread who (.header got) k s a = some (some c', k', s')) :
    (∃ r u, c' = .reject r u) ∨ (c' = .jobLock net.received ∧ k' = ⟨file, k.buf⟩) ∨
      ∃ got', c' = .header got' ∧ got'.length < REQSZ ∧ got' ++ k'.stream = net.bytes ++ file := by
  simp only [clientThread] at hs
  split at hs
  · exact absurd hs (by simp)
  · cases hs
    exact Or.inl ⟨_, _, rfl⟩
  · next new rest ht =>
    obtain ⟨hnew, hle⟩ := tread_ok ht
    split at hs
    · cases hs
      exact Or.inl ⟨_, _, rfl⟩
    · have hall : (got ++ new) ++ rest = net.bytes ++ file := by
        rw [List.append_assoc, hnew, hgot]
      have hmax : (got ++ new).length ≤ REQSZ := by
        rw [List.length_append]
        omega
      split at hs
      · next hnone =>
        cases hs
        refine Or.inr (Or.inr ⟨_, rfl, Nat.lt_of_le_of_ne hmax fun he => ?_, hall⟩)
        unfold PrintReq.ofBytes at hnone
        rw [dif_pos he] at hnone
        exact absurd hnone (by simp)
      · next req hreq =>
        cases hs
        have he : (got ++ new).length = REQSZ := by
          by_contra hne
          exact absurd ((ofBytes_length hne).symm.trans hreq) (by simp)
        obtain ⟨hbytes, hrest⟩ := List.append_inj hall (he.trans net.length_bytes.symm)
        rw [hbytes, PrintReq.ofBytes_bytes] at hreq
        cases hreq
        exact Or.inr (Or.inl ⟨rfl, by rw [hrest]⟩)

/-- **A step of the client thread.** -/
theorem Serving.run (h : Serving net file k s c)
    (hs : clientThread who c k s a = some (some c', k', s')) : Serving net file k' s' c' := by
  cases c with
  | header got =>
    obtain ⟨hlen, hgot⟩ := h
    rcases header_cases hlen hgot hs with ⟨r, u, rfl⟩ | ⟨rfl, rfl⟩ | ⟨got', rfl, h'⟩
    · trivial
    · exact ⟨rfl, rfl⟩
    · exact h'
  | jobLock req =>
    simp only [clientThread] at hs
    split at hs
    · cases hs
      exact h
    · exact absurd hs (by simp)
  | jobInc req =>
    cases hs
    exact h
  | jobUnlock req i =>
    cases hs
    exact h
  | creatData req i =>
    obtain ⟨hsize, hstream⟩ := h
    cases a with
    | ok =>
      cases hs
      exact ⟨hsize, [], Dir.get_set_self .., rfl, hstream⟩
    | fail e =>
      cases hs
      trivial
    | _ => exact absurd hs (by simp [clientThread])
  | readData req i first off =>
    obtain ⟨hsize, done, hdone, hoff, hfile⟩ := h
    simp only [clientThread] at hs
    split at hs
    · exact absurd hs (by simp)
    · next e rest ht =>
      cases hs
      exact ⟨hsize, done, hdone, tread_error ht ▸ hfile⟩
    · next new rest ht =>
      obtain ⟨hnew, -⟩ := tread_ok ht
      split at hs
      · next he =>
        cases hs
        subst he
        exact ⟨hsize, done, hdone, (show rest = k.stream from hnew) ▸ hfile⟩
      · cases hs
        refine ⟨?_, done, hdone, hoff, ?_, ?_⟩
        · unfold PrintReq.setText
          split
          · exact hsize
          · exact hsize
        · rw [List.length_append]
          exact Nat.le_add_right _ _
        · show done ++ ((new ++ k.buf.drop new.length).take new.length ++ rest) = file
          rw [List.take_left, hnew]
          exact hfile
  | writeData req i nr off =>
    obtain ⟨hsize, done, hdone, rfl, hnr, hfile⟩ := h
    simp only [clientThread] at hs
    split at hs
    · cases hs
      refine ⟨hsize, done ++ k.buf.take nr, ?_, ?_, ?_⟩
      · show (s.spool.data.write (fileName i) done.length (k.buf.take nr)).get (fileName i) = _
        rw [Dir.get_write_self hdone, overwrite_end]
      · rw [List.length_append, List.length_take, Nat.min_eq_left hnr]
      · rw [List.append_assoc]
        exact hfile
    · split at hs
      · cases hs
        trivial
      · exact absurd hs (by simp)
    · cases hs
      trivial
    · exact absurd hs (by simp)
  | creatReq req i =>
    cases a with
    | ok =>
      cases hs
      exact h
    | fail e =>
      cases hs
      trivial
    | _ => exact absurd hs (by simp [clientThread])
  | writeReq req i =>
    simp only [clientThread] at hs
    split at hs
    · cases hs
      exact h
    · split at hs
      · cases hs
        trivial
      · exact absurd hs (by simp)
    · cases hs
      trivial
    · exact absurd hs (by simp)
  | reply req i =>
    cases hs
    exact h
  | adding x =>
    obtain ⟨⟨x', m⟩, hx, he⟩ := Option.map_eq_some_iff.mp hs
    cases x' with
    | none => exact absurd he (by simp)
    | some x' =>
      cases he
      -- `add_job` does not start again
      cases x' with
      | malloc job => exact absurd (addJob_stage hx).1 (by simp [addStage, Adding.stage])
      | _ => trivial
  | reject r u =>
    cases u <;> cases hs <;> trivial
  | unlinkReq i =>
    cases hs
    trivial
  | unlinkData i => exact absurd hs (by simp [clientThread])

end Steps

/-- **The invariant holds as long as the thread runs.** -/
theorem Serve.serving {who : Who} {net : PrintReq} {file buf : List Byte} {c : Client} {k : Conn}
    {s : Sys} (h : Serve who ⟨net.bytes ++ file, buf⟩ c k s) : Serving net file k s c := by
  induction h with
  | accept s => exact ⟨by decide, rfl⟩
  | run _ hs ih => exact ih.run hs
  | @others c k s s' _ hs ih =>
    -- the file under the number of this thread is the same
    have hsame : ∀ i rest, c.number = some i → Taken s i file rest → Taken s' i file rest := by
      rintro i rest hi ⟨done, hdone, hfile⟩
      exact ⟨done, (hs i hi).trans hdone, hfile⟩
    cases c with
    | header got | jobLock req | jobInc req | jobUnlock req i | creatData req i => exact ih
    | readData req i first off =>
      obtain ⟨hsize, done, hdone, hoff⟩ := ih
      exact ⟨hsize, done, (hs i rfl).trans hdone, hoff⟩
    | writeData req i nr off =>
      obtain ⟨hsize, done, hdone, hoff⟩ := ih
      exact ⟨hsize, done, (hs i rfl).trans hdone, hoff⟩
    | creatReq req i | writeReq req i | reply req i => exact ⟨ih.1, hsame i _ rfl ih.2⟩
    | adding x =>
      cases x with
      | malloc job => exact ⟨ih.1, hsame job.jobid _ rfl ih.2⟩
      | _ => trivial
    | _ => trivial

/-- **The spooled file is the submitted one**, with the announced size, if and only if all of the
file has arrived when `tread` returns 0 or -1, and its size fits into `req.size`. -/
theorem spooled_iff {who : Who} {old : PrintReq} {pw : Option (List Byte)}
    {fname file sent buf : List Byte} {text : Bool} {job : Job} {k : Conn} {s : Sys}
    (hsend : Sends file sent)
    (h : Serve who ⟨(submitReq old pw fname file.length text).bytes ++ sent, buf⟩
      (.adding (.malloc job)) k s) :
    (s.spool.data.get (fileName job.jobid) = some file ∧ file.length = job.req.size.toNat) ↔
      k.stream = [] ∧ file.length < 2 ^ 32 := by
  rw [hsend.eq] at h
  obtain ⟨hsize, done, hdone, hfile⟩ := h.serving
  have hreq : job.req.size.toNat = file.length % 2 ^ 32 := by
    rw [hsize]
    show (ntohl (ntohl (UInt32.ofNat file.length))).toNat = _
    rw [ntohl_ntohl, UInt32.toNat_ofNat']
  rw [hdone, hreq]
  constructor
  · rintro ⟨hall, hlen⟩
    obtain rfl : done = file := Option.some.inj hall
    refine ⟨List.append_cancel_left (hfile.trans (List.append_nil _).symm), ?_⟩
    omega
  · rintro ⟨hrest, hlen⟩
    rw [hrest, List.append_nil] at hfile
    exact ⟨congrArg some hfile, (Nat.mod_eq_of_lt hlen).symm⟩

/-! ## Two submissions -/

/-- The thread alone, with what its calls answer. -/
def serve (who : Who) : List Ans → Client × Conn × Sys → Option (Client × Conn × Sys)
  | [], x => some x
  | a :: as, (c, k, s) =>
    match clientThread who c k s a with
    | some (some c', k', s') => serve who as (c', k', s')
    | _ => none

theorem Serve.serve {who : Who} {k₀ : Conn} {as : List Ans} : ∀ {c c' : Client} {k k' : Conn}
    {s s' : Sys}, Serve who k₀ c k s → serve who as (c, k, s) = some (c', k', s') →
      Serve who k₀ c' k' s' := by
  induction as with
  | nil =>
    intro c c' k k' s s' h hs
    cases hs
    exact h
  | cons a as ih =>
    intro c c' k k' s s' h hs
    unfold Printd.serve at hs
    split at hs
    · next hstep => exact ih (h.run hstep) hs
    · exact absurd hs (by simp)

/-- A request with zeros on the stack. -/
def zeroReq : PrintReq :=
  ⟨0, 0, ⟨List.replicate USERNM_MAX 0, List.length_replicate⟩,
    ⟨List.replicate JOBNM_MAX 0, List.length_replicate⟩⟩

/-- The file `hi`, as text, of a user without a name. -/
def hiConn : Conn := ⟨(submitReq zeroReq none (str "f") 2 true).bytes ++ str "hi", []⟩

theorem sends_hi : Sends (str "hi") (str "hi") :=
  .read 2 (by decide) (by decide) (by decide) .eof

/-- An empty spool when the daemon has been started. -/
def emptySys : Sys := ⟨⟨[], [], []⟩, initRequest ⟨[], [], []⟩, []⟩

/-- What `job`, `stream` and spooled file the thread passes on, if it does. -/
def passes (P : Job → List Byte → Option (List Byte) → Bool) : Client × Conn × Sys → Bool
  | (.adding (.malloc job), k, s) => P job k.stream (s.spool.data.get (fileName job.jobid))
  | _ => false

theorem passes_spec {who : Who} {as : List Ans} {P : Job → List Byte → Option (List Byte) → Bool}
    (h : ((serve who as (.header [], hiConn, emptySys)).any (passes P)) = true) :
    ∃ job k s, Serve who hiConn (.adding (.malloc job)) k s ∧
      P job k.stream (s.spool.data.get (fileName job.jobid)) = true := by
  obtain ⟨⟨c, k, s⟩, hserve, hP⟩ := (Option.any_eq_true _ _).mp h
  unfold passes at hP
  split at hP
  · next job k' s' he =>
    cases he
    exact ⟨job, k, s, (Serve.accept emptySys).serve hserve, hP⟩
  · exact absurd hP (by simp)

set_option maxRecDepth 10000 in
/-- The two bytes arrive one by one, and then there is a timeout. -/
theorem spooled_hi : ∃ job k s, Serve (.client 0) hiConn (.adding (.malloc job)) k s ∧
    s.spool.data.get (fileName job.jobid) = some (str "hi") ∧
    (str "hi").length = job.req.size.toNat := by
  obtain ⟨job, k, s, hserve, hP⟩ := @passes_spec (.client 0)
    [.count REQSZ, .ok, .ok, .ok, .ok, .count 1, .ok, .count 1, .ok, .fail ⟨62, by decide⟩, .ok, .ok,
      .ok] (fun _ rest _ => rest = []) (by decide +kernel)
  exact ⟨job, k, s, hserve, (spooled_iff sends_hi hserve).mpr ⟨of_decide_eq_true hP, by decide⟩⟩

set_option maxRecDepth 10000 in
/-- After the first byte the connection stalls past the timeout: the job is queued with one byte of
two. -/
theorem spooled_short : ∃ job k s, Serve (.client 0) hiConn (.adding (.malloc job)) k s ∧
    s.spool.data.get (fileName job.jobid) = some (str "h") ∧ job.req.size.toNat = 2 := by
  obtain ⟨job, k, s, hserve, hP⟩ := @passes_spec (.client 0)
    [.count REQSZ, .ok, .ok, .ok, .ok, .count 1, .ok, .fail ⟨62, by decide⟩, .ok, .ok, .ok]
    (fun job _ data => data = some (str "h") ∧ job.req.size.toNat = 2) (by decide +kernel)
  exact ⟨job, k, s, hserve, of_decide_eq_true hP⟩

end LearningNotes.Printd
