import LearningNotes.Printd.Submit

/-!
# Text or PostScript

`client_thread` decides with the first piece of the file whether it is text: it compares the
first four bytes of its buffer with `%!PS`, however few bytes have just been read. If fewer than
four have, what was on the stack decides with them.

So the control record depends on the pieces, and on the stack, exactly if the file begins with
`%` and the request does not say yet that it is text (`stored_iff`).
-/

namespace LearningNotes.Printd

/-- The first byte of `%!PS`. -/
@[reducible] def PERCENT : Byte := 37

/-- What the thread and the others lead to, as in `Serve`. The others work neither on the data
file nor on the control file under the number of this thread. -/
inductive Works (who : Who) (k₀ : Conn) : Client → Conn → Sys → Prop where
  | accept (s : Sys) : Works who k₀ (.header []) k₀ s
  | run {c c' : Client} {k k' : Conn} {s s' : Sys} {a : Ans} (h : Works who k₀ c k s)
      (hs : clientThread who c k s a = some (some c', k', s')) : Works who k₀ c' k' s'
  | others {c : Client} {k : Conn} {s s' : Sys} (h : Works who k₀ c k s)
      (hs : ∀ i, c.number = some i →
        s'.spool.data.get (fileName i) = s.spool.data.get (fileName i) ∧
          s'.spool.reqs.get (fileName i) = s.spool.reqs.get (fileName i)) : Works who k₀ c k s'

/-- The thread has received `net` and `file`, with `buf` on its stack before, and has stored the
control record `record` and the data file `data`. What else has been sent comes too late. -/
def Stored (net : PrintReq) (file buf record data : List Byte) : Prop :=
  ∃ who late req i k s, Works who ⟨net.bytes ++ (file ++ late), buf⟩ (.reply req i) k s ∧
    k.stream = late ∧ s.spool.reqs.get (fileName i) = some record ∧
      s.spool.data.get (fileName i) = some data

variable {who : Who} {k₀ k k' : Conn} {s s' : Sys} {c c' : Client} {a : Ans} {net req : PrintReq}
  {file buf rest done : List Byte} {i : Int} {first : Bool} {off n : Nat}

theorem Works.serve (h : Works who k₀ c k s) : Serve who k₀ c k s := by
  induction h with
  | accept s => exact .accept s
  | run _ hs ih => exact ih.run hs
  | others _ hs ih => exact ih.others fun i hi => (hs i hi).1

/-! ## What the thread writes -/

/-- The request after a first piece of `n` bytes, with `buf` behind it on the stack. -/
def PrintReq.marked (net : PrintReq) (file : List Byte) (n : Nat) (buf : List Byte) : PrintReq :=
  net.received.setText true (file.take n ++ buf)

/-- A piece has been read. -/
def Marked (net : PrintReq) (file : List Byte) (k : Conn) (req : PrintReq) : Prop :=
  ∃ n buf, 0 < n ∧ n + k.stream.length ≤ file.length ∧ req = net.marked file n buf

/-- A piece has been read, or there was none. -/
def Decided (net : PrintReq) (file : List Byte) (k : Conn) (req : PrintReq) : Prop :=
  (req = net.received ∧ k.stream = file) ∨ Marked net file k req

/-- What is known of the request that the thread has in memory, and of the control file. -/
def Marking (net : PrintReq) (file : List Byte) (k : Conn) (s : Sys) : Client → Prop
  | .header got => got.length < REQSZ ∧ got ++ k.stream = net.bytes ++ file
  | .jobLock req | .jobInc req | .jobUnlock req _ | .creatData req _ =>
    req = net.received ∧ k.stream = file
  | .readData req _ first _ =>
    (first = true ∧ req = net.received ∧ k.stream = file) ∨ (first = false ∧ Marked net file k req)
  | .writeData req _ _ _ => Marked net file k req
  | .creatReq req _ => Decided net file k req
  | .writeReq req i => Decided net file k req ∧ s.spool.reqs.get (fileName i) = some []
  | .reply req i => Decided net file k req ∧ s.spool.reqs.get (fileName i) = some req.bytes
  | _ => True

theorem tread_take {stream new : List Byte} {n : Nat}
    (h : tread stream n a = some (.ok new, rest)) :
    ∃ m, m ≤ stream.length ∧ new = stream.take m ∧ rest = stream.drop m := by
  unfold tread at h
  split at h
  · split at h
    · next hn =>
      cases h
      exact ⟨_, hn.2.2, rfl, rfl⟩
    · exact absurd h (by simp)
  · cases h
    exact ⟨0, Nat.zero_le _, rfl, rfl⟩
  · exact absurd h (by simp)
  · exact absurd h (by simp)

/-- **A step of the client thread.** -/
theorem Marking.run (h : Marking net file k s c)
    (hs : clientThread who c k s a = some (some c', k', s')) : Marking net file k' s' c' := by
  cases c with
  | header got =>
    obtain ⟨hlen, hgot⟩ := h
    rcases header_cases hlen hgot hs with ⟨r, u, rfl⟩ | ⟨rfl, rfl⟩ | ⟨got', rfl, h'⟩
    · trivial
    · exact ⟨rfl, rfl⟩
    · exact h'
  | jobLock req =>
    simp only [clientThread] at hs
    split at hs
    · cases hs
      exact h
    · exact absurd hs (by simp)
  | jobInc req =>
    cases hs
    exact h
  | jobUnlock req i =>
    cases hs
    exact h
  | creatData req i =>
    cases a with
    | ok =>
      cases hs
      exact Or.inl ⟨rfl, h⟩
    | fail e =>
      cases hs
      trivial
    | _ => exact absurd hs (by simp [clientThread])
  | readData req i first off =>
    -- an error, or the end of the data, leaves what is decided as it is
    have hdecided : Decided net file k req := by
      rcases h with ⟨-, h⟩ | ⟨-, h⟩
      · exact Or.inl h
      · exact Or.inr h
    simp only [clientThread] at hs
    split at hs
    · exact absurd hs (by simp)
    · next e rest ht =>
      cases hs
      rw [tread_error ht]
      exact hdecided
    · next new rest ht =>
      obtain ⟨m, hm, rfl, rfl⟩ := tread_take ht
      split at hs
      · next he =>
        cases hs
        have hm₀ : m = 0 ∨ k.stream = [] := List.take_eq_nil_iff.mp he
        have hdrop : k.stream.drop m = k.stream := by
          rcases hm₀ with rfl | hnil
          · rfl
          · rw [hnil, List.drop_nil]
        rw [hdrop]
        exact hdecided
      · next hne =>
        cases hs
        rcases h with ⟨rfl, rfl, hstream⟩ | ⟨rfl, hmarked⟩
        · -- the first piece
          rw [hstream] at hm hne ⊢
          have hpos : 0 < m := Nat.pos_of_ne_zero fun h0 => hne (by rw [h0, List.take_zero])
          refine ⟨m, _, hpos, ?_, rfl⟩
          simp only [List.length_drop]
          omega
        · -- a later piece: the first one has set the flag
          obtain ⟨n, buf, hpos, hn, rfl⟩ := hmarked
          refine ⟨n, buf, hpos, ?_, rfl⟩
          simp only [List.length_drop]
          omega
  | writeData req i nr off =>
    simp only [clientThread] at hs
    split at hs
    · cases hs
      exact Or.inr ⟨rfl, h⟩
    · split at hs
      · cases hs
        trivial
      · exact absurd hs (by simp)
    · cases hs
      trivial
    · exact absurd hs (by simp)
  | creatReq req i =>
    cases a with
    | ok =>
      cases hs
      exact ⟨h, Dir.get_set_self ..⟩
    | fail e =>
      cases hs
      trivial
    | _ => exact absurd hs (by simp [clientThread])
  | writeReq req i =>
    obtain ⟨hdecided, hreqs⟩ := h
    simp only [clientThread] at hs
    split at hs
    · cases hs
      refine ⟨hdecided, ?_⟩
      -- the file was empty, so it is now what has been written
      show (s.spool.reqs.write (fileName i) 0 req.bytes).get (fileName i) = _
      rw [Dir.get_write_self hreqs]
      exact congrArg some (overwrite_end 0 [] req.bytes)
    · split at hs
      · cases hs
        trivial
      · exact absurd hs (by simp)
    · cases hs
      trivial
    · exact absurd hs (by simp)
  | reply req i =>
    cases hs
    trivial
  | adding x =>
    obtain ⟨⟨x', m⟩, -, he⟩ := Option.map_eq_some_iff.mp hs
    cases x' with
    | none => exact absurd he (by simp)
    | some x' =>
      cases he
      trivial
  | reject r u =>
    cases u <;> cases hs <;> trivial
  | unlinkReq i =>
    cases hs
    trivial
  | unlinkData i => exact absurd hs (by simp [clientThread])

/-- **The invariant holds as long as the thread runs.** -/
theorem Works.marking (h : Works who ⟨net.bytes ++ file, buf⟩ c k s) : Marking net file k s c := by
  induction h with
  | accept s => exact ⟨by decide, rfl⟩
  | run _ hs ih => exact ih.run hs
  | @others c k s s' _ hs ih =>
    cases c with
    | writeReq req i => exact ⟨ih.1, (hs i rfl).2.trans ih.2⟩
    | reply req i => exact ⟨ih.1, (hs i rfl).2.trans ih.2⟩
    | _ => exact ih

/-- What is stored. -/
theorem Stored.eq {record data : List Byte} (h : Stored net file buf record data) :
    data = file ∧ ((file = [] ∧ record = net.received.bytes) ∨
      ∃ n buf, 0 < n ∧ n ≤ file.length ∧ record = (net.marked file n buf).bytes) := by
  obtain ⟨who, late, req, i, k, s, hw, hstream, hreqs, hdata⟩ := h
  obtain ⟨hdecided, hrecord⟩ := hw.marking
  obtain ⟨-, done, hdone, hfile⟩ := hw.serve.serving
  rw [hdata] at hdone
  rw [hreqs] at hrecord
  cases hdone
  cases hrecord
  rw [hstream] at hfile
  refine ⟨List.append_cancel_right hfile, ?_⟩
  rcases hdecided with ⟨rfl, hall⟩ | ⟨n, buf, hpos, hn, rfl⟩
  · exact Or.inl ⟨List.self_eq_append_left.mp (hstream.symm.trans hall), rfl⟩
  · rw [hstream, List.length_append] at hn
    have hle : n ≤ file.length := by omega
    refine Or.inr ⟨n, buf, hpos, hle, ?_⟩
    unfold PrintReq.marked
    rw [List.take_append_of_le_length hle]

/-! ## What the pieces decide -/

/-- The request is for text. -/
def PrintReq.IsText (r : PrintReq) : Prop := r.flags &&& PR_TEXT = PR_TEXT

instance (r : PrintReq) : Decidable r.IsText := inferInstanceAs (Decidable (_ = _))

theorem or_and_self (x y : UInt32) : x ||| (x &&& y) = x := by
  apply UInt32.toBitVec_inj.mp
  apply BitVec.eq_of_getLsbD_eq
  intro i hi
  rw [UInt32.toBitVec_or, UInt32.toBitVec_and, BitVec.getLsbD_or, BitVec.getLsbD_and]
  exact sup_inf_self

theorem and_or_self (x y : UInt32) : (x ||| y) &&& y = y := by
  apply UInt32.toBitVec_inj.mp
  apply BitVec.eq_of_getLsbD_eq
  intro i hi
  rw [UInt32.toBitVec_and, UInt32.toBitVec_or, BitVec.getLsbD_and, BitVec.getLsbD_or]
  cases x.toBitVec.getLsbD i <;> cases y.toBitVec.getLsbD i <;> rfl

theorem PrintReq.isText_iff (r : PrintReq) : r.IsText ↔ r.flags ||| PR_TEXT = r.flags := by
  unfold PrintReq.IsText
  constructor
  · intro h
    have hor := or_and_self r.flags PR_TEXT
    rwa [h] at hor
  · intro h
    have hand := and_or_self r.flags PR_TEXT
    rwa [h] at hand

/-- The request, for text. -/
def PrintReq.asText (r : PrintReq) : PrintReq := { r with flags := r.flags ||| PR_TEXT }

theorem PrintReq.asText_eq {r : PrintReq} (h : r.IsText) : r.asText = r := by
  unfold PrintReq.asText
  rw [r.isText_iff.mp h]

theorem PrintReq.asText_ne {r : PrintReq} (h : ¬ r.IsText) : r.asText ≠ r := fun he =>
  h (r.isText_iff.mpr (congrArg PrintReq.flags he))

theorem PrintReq.bytes_inj {r r' : PrintReq} (h : r.bytes = r'.bytes) : r = r' := by
  have hof := congrArg PrintReq.ofBytes h
  rw [ofBytes_bytes, ofBytes_bytes] at hof
  exact Option.some.inj hof

/-- If the file does not begin with `%`, or the request is for text, every piece decides the
same. -/
theorem marked_eq (hn : 0 < n) (hfile : n ≤ file.length)
    (h : net.received.IsText ∨ file.head? ≠ some PERCENT) :
    net.marked file n buf = net.received.asText := by
  unfold PrintReq.marked PrintReq.setText
  split
  · rfl
  · next hps =>
    rcases h with htext | hhead
    · exact (PrintReq.asText_eq htext).symm
    · -- the first byte of the piece is the first byte of the file
      refine absurd ⟨rfl, fun he => hhead ?_⟩ hps
      obtain ⟨b, bs, rfl⟩ := List.exists_cons_of_length_pos (Nat.lt_of_lt_of_le hn hfile)
      obtain ⟨m, rfl⟩ := Nat.exists_eq_succ_of_ne_zero (Nat.ne_of_gt hn)
      rw [List.take_succ_cons, List.cons_append, List.take_succ_cons] at he
      exact congrArg some (List.cons.inj he).1

/-! ## Every piece is possible -/

/-- The rest of the file arrives byte by byte. -/
theorem Works.drain (tail : List Byte) : ∀ {off : Nat} {buf : List Byte} {s : Sys},
    Works who k₀ (.readData req i false off) ⟨tail, buf⟩ s →
      ∃ off' buf' s', Works who k₀ (.readData req i false off') ⟨[], buf'⟩ s' := by
  induction tail with
  | nil => exact fun {off buf s} h => ⟨off, buf, s, h⟩
  | cons b tail ih =>
    intro off buf s h
    have hread : tread (b :: tail) IOBUFSZ (.count 1) = some (.ok [b], tail) := by
      simp [tread]
    have hstep : clientThread who (.readData req i false off) ⟨b :: tail, buf⟩ s (.count 1) =
        some (some (.writeData req i 1 off), ⟨tail, [b] ++ buf.drop 1⟩, s) := by
      simp only [clientThread, hread]
      rfl
    exact ih ((h.run hstep).run (a := .ok) rfl)

/-- The end of the file. -/
theorem Works.stored (h : Works who k₀ (.readData req i false off) ⟨[], buf⟩ s) :
    ∃ s', Works who k₀ (.reply req i) ⟨[], buf⟩ s' := by
  have heof : clientThread who (.readData req i false off) ⟨[], buf⟩ s .eof =
      some (some (.creatReq req i), ⟨[], buf⟩, s) := rfl
  exact ⟨_, ((h.run heof).run (a := .ok) rfl).run (a := .ok) rfl⟩

/-- The header arrives in one piece, and the job gets a number. -/
theorem works_readData (net : PrintReq) (file buf : List Byte) :
    ∃ who i s, Works who ⟨net.bytes ++ file, buf⟩ (.readData net.received i true 0) ⟨file, buf⟩ s ∧
      s.spool.data.get (fileName i) = some [] := by
  have hlen := net.length_bytes
  have hread : tread (net.bytes ++ file) REQSZ (.count REQSZ) = some (.ok net.bytes, file) := by
    unfold tread
    dsimp only
    rw [if_pos ⟨by decide, Nat.le_refl _, by rw [List.length_append, hlen]; omega⟩,
      List.take_left' hlen, List.drop_left' hlen]
  have hne : net.bytes ≠ [] := by
    intro he
    rw [he] at hlen
    exact absurd hlen (by decide)
  have hhead : clientThread (.client 0) (.header []) ⟨net.bytes ++ file, buf⟩ emptySys
      (.count REQSZ) = some (some (.jobLock net.received), ⟨file, buf⟩, emptySys) := by
    simp only [clientThread, List.length_nil, Nat.sub_zero, hread, if_neg hne, List.nil_append,
      PrintReq.ofBytes_bytes]
    rfl
  have hlock := (Works.accept emptySys).run hhead
  have hinc := hlock.run (a := .ok) rfl
  have hunlock := hinc.run (a := .ok) rfl
  have hcreat := hunlock.run (a := .ok) rfl
  exact ⟨_, _, _, hcreat.run (a := .ok) rfl, Dir.get_set_self ..⟩

/-- **Any first piece.** -/
theorem stored_marked (net : PrintReq) (file buf : List Byte) (hn : 0 < n) (hfile : n ≤ file.length)
    (hbuf : n ≤ IOBUFSZ) :
    Stored net file buf (net.marked file n (buf.drop n)).bytes file := by
  obtain ⟨who, i, s, hread, -⟩ := works_readData net file buf
  have hfirst : tread file IOBUFSZ (.count n) = some (.ok (file.take n), file.drop n) := by
    unfold tread
    dsimp only
    rw [if_pos ⟨hn, hbuf, hfile⟩]
  have hne : file.take n ≠ [] := by
    intro he
    rcases List.take_eq_nil_iff.mp he with h0 | h0
    · omega
    · rw [h0] at hfile
      exact absurd hn (Nat.not_lt.mpr hfile)
  have hstep : clientThread who (.readData net.received i true 0) ⟨file, buf⟩ s (.count n) =
      some (some (.writeData (net.marked file n (buf.drop n)) i n 0),
        ⟨file.drop n, file.take n ++ buf.drop n⟩, s) := by
    simp only [clientThread, hfirst, if_neg hne, List.length_take_of_le hfile]
    rfl
  obtain ⟨off, buf', s₁, hdrained⟩ := Works.drain _ ((hread.run hstep).run (a := .ok) rfl)
  obtain ⟨s₂, hreply⟩ := hdrained.stored
  obtain ⟨-, hreqs⟩ := hreply.marking
  obtain ⟨-, done, hdata, hdone⟩ := hreply.serve.serving
  rw [List.append_nil] at hdone
  rw [hdone] at hdata
  rw [← List.append_nil file] at hreply
  exact ⟨_, [], _, _, _, _, hreply, rfl, hreqs, hdata⟩

theorem marked_ps (h : (file.take n ++ buf).take 4 = str "%!PS") :
    net.marked file n buf = net.received := if_neg fun hne => hne.2 h

theorem marked_other (h : (file.take n ++ buf).take 4 ≠ str "%!PS") :
    net.marked file n buf = net.received.asText := if_pos ⟨rfl, h⟩

/-- A stack on which the rest of `%!PS` comes after the first byte. -/
def markedStack : List Byte := 0 :: (str "!PS" ++ List.replicate (IOBUFSZ - 4) 0)

theorem length_markedStack : markedStack.length = IOBUFSZ := by
  unfold markedStack
  rw [List.length_cons, List.length_append, List.length_replicate]
  rfl

/-- A stack of zeros. -/
def zeroStack : List Byte := List.replicate IOBUFSZ 0

theorem take_zeroStack : (zeroStack.drop 1).take 3 = [0, 0, 0] := by
  unfold zeroStack
  rw [List.drop_replicate, List.take_replicate]
  rfl

/-- If the file begins with `%` and the request is not for text, the first byte alone leaves it to
the stack. -/
theorem marked_stale (hfile : file.head? = some PERCENT) (h : ¬ net.received.IsText) :
    net.marked file 1 (markedStack.drop 1) ≠ net.marked file 1 (zeroStack.drop 1) := by
  cases file with
  | nil => exact absurd hfile (by simp)
  | cons b bs =>
    cases hfile
    have hzero : (List.take 1 (PERCENT :: bs) ++ zeroStack.drop 1).take 4 ≠ str "%!PS" := by
      rw [List.take_succ_cons, List.take_zero, List.cons_append, List.nil_append,
        List.take_succ_cons, take_zeroStack]
      decide
    rw [marked_ps rfl, marked_other hzero]
    exact (PrintReq.asText_ne h).symm

/-- **What is stored depends only on what has been received exactly if the request says that it is
text, or the file does not begin with `%`.** -/
theorem stored_iff (net : PrintReq) (file : List Byte) :
    (∀ buf₁ buf₂ record₁ record₂ data₁ data₂, buf₁.length = IOBUFSZ → buf₂.length = IOBUFSZ →
      Stored net file buf₁ record₁ data₁ → Stored net file buf₂ record₂ data₂ →
        record₁ = record₂ ∧ data₁ = data₂) ↔
      net.received.IsText ∨ file.head? ≠ some PERCENT := by
  constructor
  · intro h
    by_contra hne
    obtain ⟨htext, hhead⟩ := not_or.mp hne
    have hhead := not_not.mp hhead
    have hpos : 1 ≤ file.length := by
      cases file with
      | nil => exact absurd hhead (by simp)
      | cons b bs => exact Nat.succ_le_succ (Nat.zero_le _)
    have hone : 1 ≤ IOBUFSZ := by decide
    have hsame := (h _ _ _ _ _ _ length_markedStack List.length_replicate
      (stored_marked net file markedStack Nat.one_pos hpos hone)
      (stored_marked net file zeroStack Nat.one_pos hpos hone)).1
    exact marked_stale hhead htext (PrintReq.bytes_inj hsame)
  · intro h buf₁ buf₂ record₁ record₂ data₁ data₂ _ _ h₁ h₂
    obtain ⟨rfl, hrecord₁⟩ := h₁.eq
    obtain ⟨rfl, hrecord₂⟩ := h₂.eq
    refine ⟨?_, rfl⟩
    rcases hrecord₁ with ⟨he, rfl⟩ | ⟨n, buf, hn, hle, rfl⟩
    · rcases hrecord₂ with ⟨-, rfl⟩ | ⟨n, buf, hn, hle, rfl⟩
      · rfl
      · rw [he] at hle
        exact absurd hn (Nat.not_lt.mpr hle)
    · rcases hrecord₂ with ⟨he, rfl⟩ | ⟨n', buf', hn', hle', rfl⟩
      · rw [he] at hle
        exact absurd hn (Nat.not_lt.mpr hle)
      · rw [marked_eq hn hle h, marked_eq hn' hle' h]

/-- `%!PS` in one piece, and with its first byte alone, on a stack of zeros. -/
theorem stored_split : ∃ record₁ record₂, record₁ ≠ record₂ ∧
    Stored zeroReq (str "%!PS") zeroStack record₁ (str "%!PS") ∧
      Stored zeroReq (str "%!PS") zeroStack record₂ (str "%!PS") := by
  have hone : 1 ≤ (str "%!PS").length := by decide
  have hfour : 4 ≤ (str "%!PS").length := by decide
  refine ⟨_, _, fun he => ?_,
    stored_marked zeroReq (str "%!PS") zeroStack Nat.one_pos hone (by decide),
    stored_marked zeroReq (str "%!PS") zeroStack (Nat.succ_pos 3) hfour (by decide)⟩
  have hfirst : (List.take 1 (str "%!PS") ++ zeroStack.drop 1).take 4 ≠ str "%!PS" := by
    have htake : List.take 1 (str "%!PS") = [PERCENT] := by decide
    rw [htake, List.cons_append, List.nil_append, List.take_succ_cons, take_zeroStack]
    decide
  have hsame := PrintReq.bytes_inj he
  rw [marked_other hfirst, marked_ps rfl] at hsame
  exact PrintReq.asText_ne (by decide) hsame

end LearningNotes.Printd
