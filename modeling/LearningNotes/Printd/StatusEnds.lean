import LearningNotes.Printd.Status
import Mathlib.Logic.Function.Iterate

/-!
# When `printer_status` ends

Each read uses up bytes of the printer, of which there are finitely many, and each round of the
search for the `Content-Length` without a read brings `i` nearer to `datsz`. So it is always left.

The loop that looks for the end of the header stops two bytes before `datsz`, but reads more only
from `datsz` on; when it has not found the end by then, it makes the same round for ever. So
`printer_status` ends exactly if the end of the header is in the data whenever it gets to that loop.
-/

namespace LearningNotes.Printd

variable {e : Junk} {jobid : Int} {b b' : Buf} {v v' : View} {s : State} {n i j : Nat} {len : Int}
  {chunks chunks' : List (List Byte)} {bytes : List Byte}

/-- The bytes that are still to come. -/
def left (chunks : List (List Byte)) : Nat := chunks.flatten.length

/-- Where the loop for the end of the header leaves off: its test succeeds, or an access is outside
of the memory. -/
def Escapes (v : View) : Prop := ∃ j, v.i ≤ j ∧ j + 2 < v.datsz ∧ v.b.isEnd j ≠ some false

instance : Decidable (Escapes v) :=
  decidable_of_iff (∃ j < v.datsz, v.i ≤ j ∧ j + 2 < v.datsz ∧ v.b.isEnd j ≠ some false)
    ⟨fun ⟨j, _, h⟩ => ⟨j, h⟩, fun ⟨j, hi, hj, h⟩ => ⟨j, by omega, hi, hj, h⟩⟩

/-! ## Reads -/

/-- Every read takes something from the stream. -/
theorem recv_left {n : Option Nat} (h : recv chunks n = some (bytes, chunks')) :
    0 < bytes.length ∧ left chunks' + bytes.length = left chunks := by
  induction chunks with
  | nil => cases h
  | cons c cs ih =>
    cases c with
    | nil =>
      have := ih h
      simpa [left] using this
    | cons c bs =>
      match n with
      | none =>
        cases h
        refine ⟨Nat.succ_pos _, ?_⟩
        simp only [left, List.flatten_cons, List.length_append]
        omega
      | some 0 => cases h
      | some (n + 1) =>
        cases h
        refine ⟨Nat.succ_pos _, ?_⟩
        have hsplit : (bs.take n).length + (bs.drop n).length = bs.length := by
          rw [← List.length_append, List.take_append_drop]
        simp only [left, List.flatten_cons, List.length_append, List.length_cons]
        omega

/-- What a successful `readmore` does to the counters. -/
theorem readmore_counters (h : readmore e v = some (some v')) :
    v'.i = v.i ∧ v.i < v'.datsz ∧ left v'.chunks < left v.chunks := by
  unfold readmore at h
  dsimp only at h
  split at h
  next => cases h
  next bytes chunks hrecv =>
    obtain ⟨hpos, hleft⟩ := recv_left hrecv
    obtain ⟨b', -, hv⟩ := Option.map_eq_some_iff.mp h
    cases hv
    refine ⟨rfl, ?_, ?_⟩
    · dsimp only
      omega
    · dsimp only
      omega

/-- With `i` before `datsz` nothing is read; otherwise there are fewer bytes to come. -/
theorem moreHeader_counters (h : moreHeader e v = some (some v')) :
    v'.i = v.i ∧ v'.i < v'.datsz ∧ (v' = v ∨ left v'.chunks < left v.chunks) := by
  unfold moreHeader at h
  split at h
  next =>
    obtain ⟨hi, hd, hleft⟩ := readmore_counters h
    exact ⟨hi, hi ▸ hd, .inr hleft⟩
  next hlt =>
    cases h
    exact ⟨rfl, by omega, .inl rfl⟩

/-- A loop that skips bytes goes forward. -/
theorem skipFrom_le {pass : Nat → Byte → Bool} (h : b.skipFrom pass n i = some j) : i ≤ j := by
  induction n generalizing i with
  | zero => cases h
  | succ n ih =>
    unfold Buf.skipFrom at h
    split at h
    · have := ih h
      omega
    · cases h
      exact Nat.le_refl _

/-! ## The counters -/

theorem skipFrom_lt {pass : Nat → Byte → Bool} (h : b.skipFrom pass n i = some j) : j < i + n := by
  induction n generalizing i with
  | zero => cases h
  | succ n ih =>
    unfold Buf.skipFrom at h
    split at h
    · have := ih h
      omega
    · cases h
      omega

/-- It stops in the buffer. -/
theorem skip_lt {pass : Nat → Byte → Bool} (h : b.skip pass i = some j) : j < b.limit := by
  have hle := skipFrom_le h
  have hlt := skipFrom_lt h
  omega

theorem set_limit {c : Byte} (h : b.set j c = some b') : b'.limit = b.limit := by
  unfold Buf.set at h
  split at h
  · cases h
    rfl
  · cases h

theorem get_lt {c : Byte} (h : b.get j = some c) : j < b.limit := by
  unfold Buf.get at h
  split at h
  · assumption
  · cases h

/-- What is stored fits. -/
theorem store_limit (h : b.store j bytes = some b') :
    b'.limit = b.limit ∧ j + bytes.length ≤ b.limit := by
  unfold Buf.store at h
  split at h
  · next hle =>
    cases h
    exact ⟨rfl, hle⟩
  · cases h

/-- `i` and `datsz`, against the memory that can be accessed. -/
def View.Counted (v : View) : Prop := v.i ≤ v.b.limit ∧ v.datsz ≤ 2 * v.b.limit

def State.Counted : State → Prop
  | .searching v => v.Counted
  | .ending v _ => v.Counted
  | _ => True

/-- More data does no harm to the counts. -/
theorem moreHeader_counted (hv : v.Counted) (h : moreHeader e v = some (some v')) : v'.Counted := by
  unfold moreHeader at h
  split at h
  next hle =>
    unfold readmore at h
    dsimp only at h
    split at h
    next => cases h
    next bytes chunks hrecv =>
      obtain ⟨b', hb', hv'⟩ := Option.map_eq_some_iff.mp h
      obtain ⟨hlimit, hfits⟩ := store_limit hb'
      cases hv'
      constructor
      · dsimp only
        omega
      · dsimp only
        omega
  next =>
    cases h
    exact hv

/-- The search for the end stays in the buffer. -/
theorem scanEnd_le {datsz i' : Nat} {found : Bool} (h : scanEnd b datsz n i = some (found, i'))
    (hi : i ≤ b.limit) : i' ≤ b.limit := by
  induction n generalizing i with
  | zero =>
    cases h
    exact hi
  | succ n ih =>
    unfold scanEnd at h
    split at h
    · obtain ⟨hit, hend, h⟩ := Option.bind_eq_some_iff.mp h
      simp only [Buf.isEnd, Option.bind_eq_bind] at hend
      obtain ⟨x, hx, hend⟩ := Option.bind_eq_some_iff.mp hend
      have hlt := get_lt hx
      split at h
      · next htrue =>
        -- all three bytes have been read
        subst htrue
        cases h
        split at hend
        · cases hend
        · obtain ⟨y, hy, hend⟩ := Option.bind_eq_some_iff.mp hend
          split at hend
          · cases hend
          · obtain ⟨z, hz, -⟩ := Option.bind_eq_some_iff.mp hend
            exact get_lt hz
      · exact ih h hlt
    · cases h
      exact hi

/-! ## The search for the `Content-Length` -/

/-- What a round of the search leads to. -/
theorem search_cases (h : search e v = some s) :
    s = .done false ∨ (∃ v' len, s = .ending v' len ∧ v'.i < v'.datsz) ∨
    ∃ v', s = .searching v' ∧ (left v'.chunks < left v.chunks ∨
      (left v'.chunks = left v.chunks ∧ v'.datsz = v.datsz ∧ v.i < v'.i ∧ v.i < v.datsz)) := by
  simp only [search, Option.bind_eq_bind] at h
  obtain ⟨i, hskip, h⟩ := Option.bind_eq_some_iff.mp h
  obtain ⟨m, hmore, h⟩ := Option.bind_eq_some_iff.mp h
  cases m with
  | none =>
    cases h
    exact .inl rfl
  | some w =>
    obtain ⟨hit, hhit, h⟩ := Option.bind_eq_some_iff.mp h
    obtain ⟨hi, hlt, hleft⟩ := moreHeader_counters hmore
    split at h
    next =>
      -- the header: behind its number, more may have to be read
      simp only [contentLength, Option.bind_eq_bind] at h
      obtain ⟨contentlen, -, h⟩ := Option.bind_eq_some_iff.mp h
      obtain ⟨cp, -, h⟩ := Option.bind_eq_some_iff.mp h
      obtain ⟨b', -, h⟩ := Option.bind_eq_some_iff.mp h
      obtain ⟨m, hmore', h⟩ := Option.bind_eq_some_iff.mp h
      cases m with
      | none =>
        cases h
        exact .inl rfl
      | some w' =>
        cases h
        exact .inr (.inl ⟨w', _, rfl, (moreHeader_counters hmore').2.1⟩)
    next =>
      cases h
      refine .inr (.inr ⟨_, rfl, ?_⟩)
      have hle := skipFrom_le hskip
      rcases hleft with rfl | hleft
      · dsimp only at hi hlt ⊢
        exact .inr ⟨rfl, rfl, by omega, by omega⟩
      · exact .inl hleft

/-- One of the states behind the search, or the end. -/
def State.Settled : State → Prop
  | .ending _ _ => True
  | .done _ => True
  | .fault => True
  | _ => False

/-- The state after `n` rounds. -/
abbrev rounds (e : Junk) (jobid : Int) (n : Nat) (s : State) : State := (round e jobid)^[n] s

/-- A round that reads. -/
theorem round_reading (h : await e b chunks = some s) : round e jobid (.reading b chunks) = s := by
  show (await e b chunks).getD .fault = s
  rw [h]
  rfl

/-- A round of the search. -/
theorem round_searching (h : search e v = some s) : round e jobid (.searching v) = s := by
  show (search e v).getD .fault = s
  rw [h]
  rfl

theorem rounds_succ (n : Nat) (s : State) :
    rounds e jobid (n + 1) s = rounds e jobid n (round e jobid s) :=
  Function.iterate_succ_apply ..

/-- **The search is left.** -/
theorem searching_settles (v : View) : ∃ n, (rounds e jobid n (.searching v)).Settled := by
  induction hleft : left v.chunks using Nat.strong_induction_on generalizing v with
  | _ k ihleft =>
    induction hdist : v.datsz - v.i using Nat.strong_induction_on generalizing v with
    | _ dist ihdist =>
      cases hs : search e v with
      | none => exact ⟨1, by simp [rounds, round, hs, State.Settled]⟩
      | some s =>
        have hround : round e jobid (.searching v) = s := by simp [round, hs]
        rcases search_cases hs with rfl | ⟨v', len, rfl, -⟩ | ⟨v', rfl, hless⟩
        · exact ⟨1, by simp [rounds, hround, State.Settled]⟩
        · exact ⟨1, by simp [rounds, hround, State.Settled]⟩
        · obtain ⟨n, hn⟩ : ∃ n, (rounds e jobid n (.searching v')).Settled := by
            rcases hless with hless | ⟨hsame, hd, hi, hlt⟩
            · exact ihleft _ (by omega) v' rfl
            · exact ihdist (v'.datsz - v'.i) (by omega) v' (by omega) rfl
          exact ⟨n + 1, by rw [rounds_succ, hround]; exact hn⟩

/-- What a response leads to. -/
theorem statusLine_cases {datsz : Nat} (h : statusLine e b chunks datsz = some s) :
    (∃ b', s = .reading b' chunks) ∨ s = .done false ∨ ∃ v, s = .searching v := by
  simp only [statusLine, Option.bind_eq_bind] at h
  obtain ⟨statcode, -, h⟩ := Option.bind_eq_some_iff.mp h
  obtain ⟨cp, -, h⟩ := Option.bind_eq_some_iff.mp h
  split at h
  next =>
    obtain ⟨_, -, rfl⟩ := Option.map_eq_some_iff.mp h
    exact .inl ⟨b, rfl⟩
  next =>
    obtain ⟨b₁, -, h⟩ := Option.bind_eq_some_iff.mp h
    obtain ⟨cp₁, -, h⟩ := Option.bind_eq_some_iff.mp h
    obtain ⟨b₂, -, h⟩ := Option.bind_eq_some_iff.mp h
    split at h
    next =>
      cases h
      exact .inl ⟨b₂, rfl⟩
    next =>
      split at h
      next =>
        cases h
        exact .inr (.inr ⟨_, rfl⟩)
      next =>
        obtain ⟨b₃, -, h⟩ := Option.bind_eq_some_iff.mp h
        cases h
        exact .inr (.inl rfl)

/-- What a read leads to. -/
theorem await_cases (h : await e b chunks = some s) :
    (∃ b' chunks', s = .reading b' chunks' ∧ left chunks' < left chunks) ∨ s = .done false ∨
    ∃ v, s = .searching v := by
  unfold await at h
  split at h
  next =>
    cases h
    exact .inr (.inl rfl)
  next bytes chunks' hrecv =>
    obtain ⟨hpos, hless⟩ := recv_left hrecv
    obtain ⟨b₁, -, h⟩ := Option.bind_eq_some_iff.mp h
    rcases statusLine_cases h with ⟨b', rfl⟩ | h | h
    · exact .inl ⟨b', chunks', rfl, by omega⟩
    · exact .inr (.inl h)
    · exact .inr (.inr h)

/-- **The responses are read.** -/
theorem reading_settles (b : Buf) (chunks : List (List Byte)) :
    ∃ n, (rounds e jobid n (.reading b chunks)).Settled := by
  induction hleft : left chunks using Nat.strong_induction_on generalizing b chunks with
  | _ k ih =>
    cases hs : await e b chunks with
    | none => exact ⟨1, by simp [rounds, round, hs, State.Settled]⟩
    | some s =>
      have hround : round e jobid (.reading b chunks) = s := by simp [round, hs]
      obtain ⟨n, hn⟩ : ∃ n, (rounds e jobid n s).Settled := by
        rcases await_cases hs with ⟨b', chunks', rfl, hless⟩ | rfl | ⟨v, rfl⟩
        · exact ih _ (by omega) b' chunks' rfl
        · exact ⟨0, trivial⟩
        · exact searching_settles v
      exact ⟨n + 1, by rw [rounds_succ, hround]; exact hn⟩

/-! ## The loop for the end of the header -/

/-- The scan, if the end is there or the memory is left: it is found, or the program is ended. -/
theorem scanEnd_escapes (hj : i ≤ j ∧ j + 2 < v.datsz ∧ v.b.isEnd j ≠ some false)
    (hn : v.datsz ≤ i + n) (i' : Nat) : scanEnd v.b v.datsz n i ≠ some (false, i') := by
  induction n generalizing i with
  | zero => omega
  | succ n ih =>
    unfold scanEnd
    rw [if_pos (by omega)]
    cases hend : v.b.isEnd i with
    | none => simp
    | some found =>
      cases found with
      | true => simp
      | false =>
        have hne : i ≠ j := by
          rintro rfl
          exact hj.2.2 hend
        exact ih ⟨by omega, hj.2⟩ (by omega)

/-- The scan, if the end is not there: `i` stops before the end of the data. -/
theorem scanEnd_stuck (hnone : ∀ j, i ≤ j → j + 2 < v.datsz → v.b.isEnd j = some false)
    (hi : i < v.datsz) : ∃ i', scanEnd v.b v.datsz n i = some (false, i') ∧ i ≤ i' ∧
      i' < v.datsz := by
  induction n generalizing i with
  | zero => exact ⟨i, rfl, Nat.le_refl i, hi⟩
  | succ n ih =>
    unfold scanEnd
    split
    next hlt =>
      obtain ⟨i', hrun, hle, hi'⟩ := ih (i := i + 1) (fun j hj => hnone j (by omega)) (by omega)
      refine ⟨i', ?_, by omega, hi'⟩
      rw [hnone i (Nat.le_refl i) hlt, Option.bind_eq_bind, Option.bind_some, if_neg nofun, hrun]
    next => exact ⟨i, rfl, Nat.le_refl i, hi⟩

/-- With the status of the reply read, the program has ended. -/
theorem ippStatus_ended (h : ippStatus jobid v = some s) : s.Ended := by
  simp only [ippStatus, Option.bind_eq_bind] at h
  obtain ⟨st, -, h⟩ := Option.bind_eq_some_iff.mp h
  obtain ⟨r, -, h⟩ := Option.bind_eq_some_iff.mp h
  split at h
  · cases h
    trivial
  · cases h
    trivial

/-- With the whole body there, the program has ended. -/
theorem body_ended (h : body e jobid len v = some s) : s.Ended := by
  unfold body at h
  split at h
  next =>
    obtain ⟨m, -, h⟩ := Option.bind_eq_some_iff.mp h
    cases m with
    | none =>
      cases h
      trivial
    | some w => exact ippStatus_ended h
  next => exact ippStatus_ended h

/-- **With the end in the data, the loop is left** in one round. -/
theorem round_escapes (h : Escapes v) : (round e jobid (.ending v len)).Ended := by
  obtain ⟨j, hij, hj, hend⟩ := h
  have hscan := scanEnd_escapes (n := v.datsz - v.i) ⟨hij, hj, hend⟩ (by omega)
  change ((findEnd e jobid v len).getD .fault).Ended
  cases hs : findEnd e jobid v len with
  | none => trivial
  | some s =>
    simp only [findEnd, Option.bind_eq_bind] at hs
    obtain ⟨⟨found, i'⟩, hrun, hs⟩ := Option.bind_eq_some_iff.mp hs
    obtain ⟨m, -, hs⟩ := Option.bind_eq_some_iff.mp hs
    cases m with
    | none =>
      cases hs
      trivial
    | some w =>
      cases found with
      | true => exact body_ended hs
      | false => exact absurd hrun (hscan i')

/-- The loop cannot be left: the end is not in the data, and `i` is not behind it. -/
def State.Stuck (s : State) : Prop := ∃ v len, s = .ending v len ∧ v.i < v.datsz ∧ ¬ Escapes v

instance : DecidablePred State.Stuck
  | .ending v len => decidable_of_iff (v.i < v.datsz ∧ ¬ Escapes v)
      ⟨fun h => ⟨v, len, rfl, h⟩, fun ⟨_, _, hw, h⟩ => by
        cases hw
        exact h⟩
  | .reading _ _ => isFalse nofun
  | .searching _ => isFalse nofun
  | .done _ => isFalse nofun
  | .fault => isFalse nofun

/-- **Without it, the loop makes the same round again.** -/
theorem round_stuck (h : s.Stuck) : (round e jobid s).Stuck := by
  obtain ⟨v, len, rfl, hi, hnone⟩ := h
  have hfalse : ∀ j, v.i ≤ j → j + 2 < v.datsz → v.b.isEnd j = some false := by
    intro j hij hj
    by_contra hend
    exact hnone ⟨j, hij, hj, hend⟩
  obtain ⟨i', hrun, hle, hi'⟩ := scanEnd_stuck (n := v.datsz - v.i) hfalse hi
  have hround : round e jobid (.ending v len) = .ending { v with i := i' } len := by
    simp [round, findEnd, hrun, moreHeader, Nat.not_le.mpr hi', orOut]
  exact ⟨_, len, hround, hi', fun ⟨j, hij, hj, hend⟩ => hnone ⟨j, hle.trans hij, hj, hend⟩⟩

/-- A program that is stuck stays stuck. -/
theorem rounds_stuck (h : s.Stuck) (n : Nat) : (rounds e jobid n s).Stuck := by
  induction n generalizing s with
  | zero => exact h
  | succ n ih =>
    rw [rounds_succ]
    exact ih (round_stuck h)

/-- The end of the program is the end. -/
theorem rounds_ended (h : s.Ended) (n : Nat) : rounds e jobid n s = s := by
  induction n with
  | zero => rfl
  | succ n ih =>
    rw [rounds_succ]
    cases s with
    | done success => exact ih
    | fault => exact ih
    | _ => exact h.elim

/-- Once the loop cannot be left, the program does not end, and it had not ended before. -/
theorem not_ended_of_stuck {k : Nat} (hk : (rounds e jobid k s).Stuck) (n : Nat) :
    ¬ (rounds e jobid n s).Ended := by
  intro hn
  -- neither is the other's state, but one comes behind the other
  have hboth : rounds e jobid k (rounds e jobid n s) = rounds e jobid n (rounds e jobid k s) := by
    rw [rounds, rounds, rounds, rounds, ← Function.iterate_add_apply,
      ← Function.iterate_add_apply, Nat.add_comm]
  rw [rounds_ended hn] at hboth
  obtain ⟨v, len, hv, -⟩ := rounds_stuck hk n
  rw [← hboth] at hv
  rw [hv] at hn
  exact hn

/-- There is data left when the search goes on. -/
theorem findEnd_ending {len' : Int} (h : findEnd e jobid v' len' = some (.ending v len)) : v.i < v.datsz := by
  simp only [findEnd, Option.bind_eq_bind] at h
  obtain ⟨⟨found, i'⟩, -, h⟩ := Option.bind_eq_some_iff.mp h
  obtain ⟨m, hmore, h⟩ := Option.bind_eq_some_iff.mp h
  cases m with
  | none => cases h
  | some w =>
    cases found with
    | true => exact (body_ended h).elim
    | false =>
      cases h
      exact (moreHeader_counters hmore).2.1

/-- The loop for the end of the header is before the end of the data. -/
theorem round_ending (h : round e jobid s = .ending v len) : v.i < v.datsz := by
  have hsome : ∀ {m : Option State}, m.getD .fault = .ending v len → m = some (.ending v len) := by
    intro m hm
    cases m with
    | none => cases hm
    | some s => exact congrArg some hm
  cases s with
  | reading b chunks =>
    rcases await_cases (hsome h) with ⟨_, _, hr, -⟩ | hd | ⟨_, hv⟩
    · cases hr
    · cases hd
    · cases hv
  | searching w =>
    rcases search_cases (hsome h) with hd | ⟨v', len', hv, hlt⟩ | ⟨v', hv, -⟩
    · cases hd
    · cases hv
      exact hlt
    · cases hv
  | ending w len' => exact findEnd_ending (hsome h)
  | done success => cases h
  | fault => cases h

/-- The first read. -/
theorem await_counted (h : await e b chunks = some s) : s.Counted := by
  unfold await at h
  split at h
  next =>
    cases h
    trivial
  next bytes chunks' hrecv =>
    obtain ⟨b₁, hb₁, h⟩ := Option.bind_eq_some_iff.mp h
    obtain ⟨hlimit, hfits⟩ := store_limit hb₁
    simp only [statusLine, Option.bind_eq_bind] at h
    obtain ⟨statcode, -, h⟩ := Option.bind_eq_some_iff.mp h
    obtain ⟨cp, -, h⟩ := Option.bind_eq_some_iff.mp h
    split at h
    · obtain ⟨_, -, rfl⟩ := Option.map_eq_some_iff.mp h
      trivial
    · obtain ⟨b₂, hb₂, h⟩ := Option.bind_eq_some_iff.mp h
      obtain ⟨cp', hcp', h⟩ := Option.bind_eq_some_iff.mp h
      obtain ⟨b₃, hb₃, h⟩ := Option.bind_eq_some_iff.mp h
      have hlt := skip_lt hcp'
      have hlimit₂ := set_limit hb₂
      have hlimit₃ := set_limit hb₃
      split at h
      · cases h
        trivial
      · split at h
        · cases h
          constructor
          · dsimp only
            omega
          · dsimp only
            omega
        · obtain ⟨b₄, -, h⟩ := Option.bind_eq_some_iff.mp h
          cases h
          trivial

/-- The search for the length. -/
theorem search_counted (hv : v.Counted) (h : search e v = some s) : s.Counted := by
  simp only [search, Option.bind_eq_bind] at h
  obtain ⟨i, hskip, h⟩ := Option.bind_eq_some_iff.mp h
  obtain ⟨m, hmore, h⟩ := Option.bind_eq_some_iff.mp h
  cases m with
  | none =>
    cases h
    trivial
  | some w =>
    have hw : w.Counted :=
      moreHeader_counted (v := { v with i := i }) ⟨Nat.le_of_lt (skip_lt hskip), hv.2⟩ hmore
    obtain ⟨hit, hhit, h⟩ := Option.bind_eq_some_iff.mp h
    split at h
    · simp only [contentLength, Option.bind_eq_bind] at h
      obtain ⟨contentlen, -, h⟩ := Option.bind_eq_some_iff.mp h
      obtain ⟨cp, hcp, h⟩ := Option.bind_eq_some_iff.mp h
      obtain ⟨b', hb', h⟩ := Option.bind_eq_some_iff.mp h
      obtain ⟨m, hmore', h⟩ := Option.bind_eq_some_iff.mp h
      have hlt := skip_lt hcp
      have hlimit := set_limit hb'
      cases m with
      | none =>
        cases h
        trivial
      | some w' =>
        cases h
        refine moreHeader_counted (v := { w with b := b', i := cp + 1 }) ⟨?_, ?_⟩ hmore'
        · dsimp only
          omega
        · dsimp only
          rw [hlimit]
          exact hw.2
    · cases h
      -- the comparison has looked at the byte at `i`
      have hlt : w.i < w.b.limit := by
        obtain ⟨c, key, hkey⟩ : ∃ c key, str "content-length:" = c :: key := ⟨_, _, rfl⟩
        rw [hkey] at hhit
        obtain ⟨x, hx, -⟩ := Option.bind_eq_some_iff.mp hhit
        exact get_lt hx
      exact ⟨hlt, hw.2⟩

/-- The search for the end of the header. -/
theorem findEnd_counted (hv : v.Counted) (h : findEnd e jobid v len = some s) : s.Counted := by
  simp only [findEnd, Option.bind_eq_bind] at h
  obtain ⟨⟨found, i'⟩, hrun, h⟩ := Option.bind_eq_some_iff.mp h
  obtain ⟨m, hmore, h⟩ := Option.bind_eq_some_iff.mp h
  cases m with
  | none =>
    cases h
    trivial
  | some w =>
    cases found with
    | true =>
      have hended := body_ended h
      cases s with
      | searching v => exact hended.elim
      | ending v len => exact hended.elim
      | _ => trivial
    | false =>
      cases h
      exact moreHeader_counted (v := { v with i := i' }) ⟨scanEnd_le hrun hv.1, hv.2⟩ hmore

/-- Any round. -/
theorem round_counted (h : s.Counted) : (round e jobid s).Counted := by
  have hnext : ∀ {m : Option State}, (∀ s, m = some s → s.Counted) → (m.getD .fault).Counted := by
    intro m hm
    cases m with
    | none => trivial
    | some s => exact hm s rfl
  cases s with
  | reading b chunks => exact hnext fun _ => await_counted
  | searching v => exact hnext fun _ => search_counted h
  | ending v len => exact hnext fun _ => findEnd_counted h
  | done success => trivial
  | fault => trivial

/-- **The counters** of every state: `i` is at most `limit`, and `datsz` at most twice that. -/
theorem rounds_counters (e : Junk) (jobid : Int) (chunks : List (List Byte)) (n : Nat) :
    (rounds e jobid n (start e chunks)).Counted := by
  induction n with
  | zero => trivial
  | succ n ih =>
    rw [rounds, Function.iterate_succ_apply']
    exact round_counted ih

/-- **`printer_status`** ends exactly if, whenever the loop for the end of the header is reached,
its test succeeds somewhere between `i` and two bytes before `datsz`, or leaves the memory there. -/
theorem printer_status_ends_iff (e : Junk) (jobid : Int) (chunks : List (List Byte)) :
    (∃ n, (rounds e jobid n (start e chunks)).Ended) ↔
      ∀ n v len, rounds e jobid n (start e chunks) = .ending v len → Escapes v := by
  constructor
  · intro ⟨n, hn⟩ k v len hk
    by_contra hnone
    have hi : v.i < v.datsz := by
      cases k with
      | zero => cases hk
      | succ k =>
        rw [rounds, Function.iterate_succ_apply'] at hk
        exact round_ending hk
    have hstuck : (rounds e jobid k (start e chunks)).Stuck := ⟨v, len, hk, hi, hnone⟩
    exact not_ended_of_stuck hstuck n hn
  · intro hends
    obtain ⟨n, hn⟩ := reading_settles e.malloc chunks
    cases hs : rounds e jobid n (start e chunks) with
    | reading b cs =>
      rw [start] at hs
      rw [hs] at hn
      exact hn.elim
    | searching v =>
      rw [start] at hs
      rw [hs] at hn
      exact hn.elim
    | ending v len =>
      refine ⟨n + 1, ?_⟩
      rw [rounds, Function.iterate_succ_apply', show (round e jobid)^[n] (start e chunks) = _ from hs]
      exact round_escapes (hends n v len hs)
    | done success => exact ⟨n, by rw [hs]; trivial⟩
    | fault => exact ⟨n, by rw [hs]; trivial⟩

/-- A header in two pieces, of which the first ends with the line of the `Content-Length`: the
program never ends. -/
theorem printer_status_split : ∃ (e : Junk) (jobid : Int) (chunks : List (List Byte)),
    ∀ n, ¬ (rounds e jobid n (start e chunks)).Ended := by
  refine ⟨⟨fun _ _ => 0, fun _ => 0, fun _ => true⟩, 1,
    [str "HTTP/1.1 200 OK\r\nContent-Length: 8\r\n", str "\r\n" ++ [1, 1, 0, 0, 0, 0, 0, 1]], ?_⟩
  apply not_ended_of_stuck (k := 2)
  decide +kernel

end LearningNotes.Printd
