import LearningNotes.Lib.Runs
import Mathlib.Logic.Function.Basic

/-!
# The modes of a terminal

`tty_cbreak` and `tty_raw` are one procedure for two lists of bits (`enter`): it asks for the changes,
reads the settings back, since `tcsetattr` may make only some of the changes, and puts the old
settings back when they are not all there. `Inv` is what the calls keep between them: a terminal
other than the one in a mode has the settings it started with, and `save_termios` has those of the one.

Mirroring notes:
- What the system calls return, and which settings `tcsetattr` leaves behind, is in the `Answers`.
- The values of the bits are the system's.
- A terminal's settings change through these functions only, and descriptors stand for different
  terminals.
- Settings that no function looks at are `rest`.
-/

namespace LearningNotes.Tty

/-- Errors: `EINVAL` set here, or what a system call left in `errno`. -/
inductive Errno where
  | EINVAL
  | sys (e : Nat)
  deriving DecidableEq, Repr

variable {R : Type}

/-- A `struct termios`; `rest` stands for the members that no function changes. -/
structure Termios (R : Type) where
  c_iflag : BitVec 32
  c_oflag : BitVec 32
  c_cflag : BitVec 32
  c_lflag : BitVec 32
  VMIN : UInt8
  VTIME : UInt8
  rest : R

/-- The values of the bits. -/
structure Flags where
  (ECHO ICANON IEXTEN ISIG : BitVec 32)
  (BRKINT ICRNL INPCK ISTRIP IXON : BitVec 32)
  (CSIZE PARENB CS8 : BitVec 32)
  OPOST : BitVec 32

/-- `ttystate` -/
inductive Ttystate where
  | RESET
  | RAW
  | CBREAK
  deriving DecidableEq, Repr

/-- The bits a mode turns off in each word, and those it turns on in `c_cflag`. -/
structure Mode where
  state : Ttystate
  iflag : BitVec 32
  oflag : BitVec 32
  cflag : BitVec 32
  lflag : BitVec 32
  on : BitVec 32

/-- What `tty_cbreak` sets, and what it checks. -/
def cbreak (f : Flags) : Mode where
  state := .CBREAK
  iflag := 0
  oflag := 0
  cflag := 0
  lflag := f.ECHO ||| f.ICANON
  on := 0

/-- What `tty_raw` sets, and what it checks. -/
def raw (f : Flags) : Mode where
  state := .RAW
  iflag := f.BRKINT ||| f.ICRNL ||| f.INPCK ||| f.ISTRIP ||| f.IXON
  oflag := f.OPOST
  cflag := f.CSIZE ||| f.PARENB
  lflag := f.ECHO ||| f.ICANON ||| f.IEXTEN ||| f.ISIG
  on := f.CS8

/-- The settings that are asked for: also one byte at a time, and no timer. -/
def Mode.request (m : Mode) (buf : Termios R) : Termios R :=
  { buf with
    c_iflag := buf.c_iflag &&& ~~~m.iflag
    c_oflag := buf.c_oflag &&& ~~~m.oflag
    c_cflag := buf.c_cflag &&& ~~~m.cflag ||| m.on
    c_lflag := buf.c_lflag &&& ~~~m.lflag
    VMIN := 1
    VTIME := 0 }

/-- The test that all the changes were made. -/
def Mode.stuck (m : Mode) (buf : Termios R) : Bool :=
  buf.c_lflag &&& m.lflag = 0 ∧ buf.c_iflag &&& m.iflag = 0 ∧
    buf.c_cflag &&& (m.cflag ||| m.on) = m.on ∧ buf.c_oflag &&& m.oflag = 0 ∧ buf.VMIN = 1 ∧
      buf.VTIME = 0

/-- The terminals and the variables of the source. -/
structure State (R : Type) where
  tty : Nat → Termios R
  save_termios : Termios R
  ttysavefd : Option Nat
  ttystate : Ttystate

/-- The answers of `tcgetattr` and `tcsetattr` in the order of the calls; `tcsetattr` returns the
settings that the terminal has then. -/
structure Answers (R : Type) where
  get : Except Nat Unit
  set : Except Nat (Termios R)
  get' : Except Nat Unit
  restore : Except Nat (Termios R)

/-- `tcsetattr` in a call whose value is ignored. -/
def State.setIgnored (s : State R) (fd : Nat) : Except Nat (Termios R) → State R
  | .ok t => { s with tty := Function.update s.tty fd t }
  | .error _ => s

/-- The common part of `tty_cbreak` and `tty_raw`. -/
def enter (m : Mode) (fd : Nat) (ans : Answers R) (s : State R) : Except Errno Unit × State R :=
  if s.ttystate ≠ .RESET then (.error .EINVAL, s)
  else
    match ans.get with
    | .error e => (.error (.sys e), s)
    | .ok _ =>
      let s := { s with save_termios := s.tty fd }
      match ans.set with
      | .error e => (.error (.sys e), s)
      | .ok t =>
        let s := { s with tty := Function.update s.tty fd t }
        match ans.get' with
        | .error e => (.error (.sys e), s.setIgnored fd ans.restore)
        | .ok _ =>
          if m.stuck t then (.ok (), { s with ttystate := m.state, ttysavefd := some fd })
          else (.error .EINVAL, s.setIgnored fd ans.restore)

def tty_cbreak (f : Flags) := enter (R := R) (cbreak f)

def tty_raw (f : Flags) := enter (R := R) (raw f)

/-- `tty_reset`: nothing to do in the state `RESET`. -/
def tty_reset (fd : Nat) (set : Except Nat (Termios R)) (s : State R) : Except Errno Unit × State R :=
  if s.ttystate = .RESET then (.ok (), s)
  else
    match set with
    | .error e => (.error (.sys e), s)
    | .ok t => (.ok (), { s with tty := Function.update s.tty fd t, ttystate := .RESET })

/-- `tty_atexit`: resets the terminal that was saved, if there is one. -/
def tty_atexit (set : Except Nat (Termios R)) (s : State R) : State R :=
  match s.ttysavefd with
  | some fd => (tty_reset fd set s).2
  | none => s

/-- `tty_termios`: the attributes that were saved. -/
def tty_termios (s : State R) : Termios R := s.save_termios

/-- A call, with the answers of the system. -/
inductive Act (R : Type) where
  | cbreak (fd : Nat) (ans : Answers R)
  | raw (fd : Nat) (ans : Answers R)
  | reset (fd : Nat) (set : Except Nat (Termios R))
  | atexit (set : Except Nat (Termios R))

/-- What a call does. -/
def act (f : Flags) : Act R → State R → Option (State R)
  | .cbreak fd ans, s => some (tty_cbreak f fd ans s).2
  | .raw fd ans, s => some (tty_raw f fd ans s).2
  | .reset fd set, s => some (tty_reset fd set s).2
  | .atexit set, s => some (tty_atexit set s)

/-- Old settings are put back completely: the settings that a `tcsetattr` leaves behind are the ones
it was asked for. `tty_reset` is called for the terminal that is in a mode. -/
def Legal : Act R → State R → Prop
  | .cbreak fd ans, s => ans.restore = .ok (s.tty fd)
  | .raw fd ans, s => ans.restore = .ok (s.tty fd)
  | .reset fd set, s => s.ttysavefd = some fd ∧ ∀ t, set = .ok t → t = s.save_termios
  | .atexit set, s => ∀ t, set = .ok t → t = s.save_termios

/-- The mode that a state of the library stands for. -/
def mode (f : Flags) : Ttystate → Option Mode
  | .RESET => none
  | .RAW => some (raw f)
  | .CBREAK => some (cbreak f)

/-- `orig` are the settings that the terminals had at the start. -/
structure Inv (f : Flags) (orig : Nat → Termios R) (s : State R) : Prop where
  other : ∀ fd, s.ttystate = .RESET ∨ s.ttysavefd ≠ some fd → s.tty fd = orig fd
  changed : s.ttystate ≠ .RESET → ∃ fd, s.ttysavefd = some fd ∧ s.save_termios = orig fd ∧
    ∃ m, mode f s.ttystate = some m ∧ m.stuck (s.tty fd) = true

variable {f : Flags} {orig : Nat → Termios R} {s s' : State R} {m : Mode} {fd : Nat}
  {ans : Answers R} {set : Except Nat (Termios R)} {r : Except Errno Unit} {e : Errno}

/-- What a call of `enter` can do, when the old settings can be put back. -/
theorem enter_cases (hc : ans.restore = .ok (s.tty fd)) (h : enter m fd ans s = (r, s')) :
    (∃ e, r = .error e ∧ s'.tty = s.tty ∧ s'.ttystate = s.ttystate ∧ s'.ttysavefd = s.ttysavefd ∧
      (s.ttystate ≠ .RESET → s' = s)) ∨
    ∃ t, r = .ok () ∧ s.ttystate = .RESET ∧ ans.set = .ok t ∧ m.stuck t = true ∧
      s' = ⟨Function.update s.tty fd t, s.tty fd, some fd, m.state⟩ := by
  have hrestore : ∀ (s₁ : State R) (t : Termios R), s₁.tty = s.tty →
      ({ s₁ with tty := Function.update s₁.tty fd t }.setIgnored fd ans.restore).tty = s.tty := by
    intro s₁ t hs₁
    rw [hc]
    simp [State.setIgnored, hs₁]
  unfold enter at h
  split at h
  next hstate =>
    cases h
    exact .inl ⟨_, rfl, rfl, rfl, rfl, fun _ => rfl⟩
  next hstate =>
    have hreset : s.ttystate = .RESET := Decidable.not_not.1 hstate
    split at h
    next =>
      cases h
      exact .inl ⟨_, rfl, rfl, rfl, rfl, fun _ => rfl⟩
    next =>
      split at h
      next =>
        cases h
        exact .inl ⟨_, rfl, rfl, rfl, rfl, fun hne => absurd hreset hne⟩
      next t hset =>
        split at h
        next =>
          cases h
          exact .inl ⟨_, rfl, hrestore _ t rfl, by simp [hc, State.setIgnored],
            by simp [hc, State.setIgnored], fun hne => absurd hreset hne⟩
        next =>
          split at h
          next hm =>
            cases h
            exact .inr ⟨t, rfl, hreset, hset, hm, rfl⟩
          next =>
            cases h
            exact .inl ⟨_, rfl, hrestore _ t rfl, by simp [hc, State.setIgnored],
              by simp [hc, State.setIgnored], fun hne => absurd hreset hne⟩

/-- Before the first call. -/
theorem Inv.start {save : Termios R} : Inv f orig ⟨orig, save, none, .RESET⟩ where
  other _ _ := rfl
  changed h := absurd rfl h

/-- `tty_cbreak` and `tty_raw` save what was found, or leave all as it was. -/
theorem Inv.enter (h : Inv f orig s) (hm : mode f m.state = some m)
    (hc : ans.restore = .ok (s.tty fd)) : Inv f orig (enter m fd ans s).2 := by
  obtain ⟨r, s', hs⟩ : ∃ r s', Tty.enter m fd ans s = (r, s') := ⟨_, _, rfl⟩
  rw [hs]
  rcases enter_cases hc hs with ⟨e, -, htty, hstate, hfd, hsame⟩ | ⟨t, -, hreset, -, hstuck, rfl⟩
  · by_cases hreset : s.ttystate = .RESET
    · refine ⟨fun k _ => ?_, fun hne => absurd (hstate.trans hreset) hne⟩
      rw [htty]
      exact h.other k (.inl hreset)
    · rw [hsame hreset]
      exact h
  · refine ⟨fun k hk => ?_, fun _ => ⟨fd, rfl, h.other fd (.inl hreset), m, hm, ?_⟩⟩
    · have hne : k ≠ fd := by
        rintro rfl
        rcases hk with hk | hk
        · simp only at hk
          rw [hk] at hm
          simp [mode] at hm
        · exact hk rfl
      simp only [Function.update_of_ne hne]
      exact h.other k (.inl hreset)
    · simpa using hstuck

/-- `tty_reset` puts back what was saved. -/
theorem Inv.reset (h : Inv f orig s) (hfd : s.ttysavefd = some fd)
    (hc : ∀ t, set = .ok t → t = s.save_termios) : Inv f orig (tty_reset fd set s).2 := by
  unfold tty_reset
  split
  next => exact h
  next hne =>
    cases set with
    | error e => exact h
    | ok t =>
      obtain ⟨fd', hfd', hsave, -⟩ := h.changed hne
      obtain rfl : fd' = fd := Option.some.inj (hfd'.symm.trans hfd)
      have hreset : ∀ k, Function.update s.tty fd' t k = orig k := by
        intro k
        by_cases hk : k = fd'
        · rw [hk, Function.update_self, hc t rfl, hsave]
        · rw [Function.update_of_ne hk]
          refine h.other k (.inr fun he => hk ?_)
          exact Option.some.inj (he.symm.trans hfd)
      exact ⟨fun k _ => hreset k, fun hne' => absurd rfl hne'⟩

/-- Every call keeps the invariant. -/
theorem Inv.act {a : Act R} (h : Inv f orig s) (hc : Legal a s) (hs : act f a s = some s') :
    Inv f orig s' := by
  cases a with
  | cbreak fd ans =>
    cases hs
    exact h.enter rfl hc
  | raw fd ans =>
    cases hs
    exact h.enter rfl hc
  | reset fd set =>
    cases hs
    exact h.reset hc.1 hc.2
  | atexit set =>
    cases hs
    unfold tty_atexit
    cases hfd : s.ttysavefd with
    | none => exact h
    | some fd => exact h.reset hfd hc

/-- The settings asked for pass the test. -/
theorem stuck_request (m : Mode) (buf : Termios R) : m.stuck (m.request buf) = true := by
  have hoff : ∀ x y : BitVec 32, x &&& ~~~y &&& y = 0 := by
    intro x y
    rw [BitVec.and_assoc, BitVec.and_comm (~~~y), BitVec.and_not_self]
    simp
  have hon : ∀ x y z : BitVec 32, (x &&& ~~~y ||| z) &&& (y ||| z) = z := by
    intro x y z
    ext i hi
    simp only [BitVec.getElem_and, BitVec.getElem_or, BitVec.getElem_not]
    cases x[i] <;> cases y[i] <;> cases z[i] <;> rfl
  simp [Mode.stuck, Mode.request, hoff, hon]

/-- **The settings come back.** In every run from a terminal's first settings on, the terminals have
them whenever the library is in the state `RESET`, and all but the one in `ttysavefd` have them
otherwise; that one has all bits of its mode, and `save_termios` what `tty_atexit` puts back. A call
that fails leaves the terminals alone. -/
theorem modes_restored {save : Termios R}
    (h : Run (act f) ⟨orig, save, none, .RESET⟩ Legal s) :
    (s.ttystate = .RESET → s.tty = orig) ∧
      (s.ttystate ≠ .RESET → ∃ fd, s.ttysavefd = some fd ∧ tty_termios s = orig fd ∧
        (∀ k, k ≠ fd → s.tty k = orig k) ∧ (tty_atexit (.ok (tty_termios s)) s).tty = orig ∧
        ∃ m, mode f s.ttystate = some m ∧ m.stuck (s.tty fd) = true) ∧
      (∀ m fd ans e s', ans.restore = .ok (s.tty fd) → enter m fd ans s = (.error e, s') →
        s'.tty = s.tty ∧ s'.ttystate = s.ttystate) ∧
      ∀ m fd ans, s.ttystate = .RESET → ans.get = .ok () → ans.get' = .ok () →
        ans.set = .ok (m.request (orig fd)) →
        enter m fd ans s =
          (.ok (), ⟨Function.update orig fd (m.request (orig fd)), orig fd, some fd, m.state⟩) := by
  have hinv : Inv f orig s := h.inv .start fun _ _ _ _ hc hs hi => hi.act hc hs
  have hreset : s.ttystate = .RESET → s.tty = orig := by
    intro hr
    exact funext fun fd => hinv.other fd (.inl hr)
  refine ⟨hreset, fun hne => ?_, fun m fd ans e s' hc hs => ?_, fun m fd ans hr hget hget' hset => ?_⟩
  · obtain ⟨fd, hfd, hsave, m, hm, hstuck⟩ := hinv.changed hne
    have hother : ∀ k, k ≠ fd → s.tty k = orig k := by
      intro k hk
      exact hinv.other k (.inr fun he => hk (Option.some.inj (he.symm.trans hfd)))
    refine ⟨fd, hfd, hsave, hother, funext fun k => ?_, m, hm, hstuck⟩
    simp only [tty_atexit, hfd, tty_reset, if_neg hne, tty_termios]
    by_cases hk : k = fd
    · rw [hk, Function.update_self, hsave]
    · rw [Function.update_of_ne hk, hother k hk]
  · rcases enter_cases hc hs with ⟨-, -, htty, hstate, -⟩ | ⟨t, hr, -⟩
    · exact ⟨htty, hstate⟩
    · cases hr
  · simp only [enter, hr, ne_eq, not_true_eq_false, if_false, hget, hget', hset, stuck_request, if_true,
      hreset hr]

/-- A terminal on which `tcsetattr` first makes only some of the changes. -/
theorem modes_restored_raw : ∃ s : State Unit,
    s.ttystate = .RAW ∧ (tty_atexit (.ok (tty_termios s)) s).tty = fun _ => ⟨7, 1, 0, 15, 4, 0, ()⟩ := by
  let f : Flags := ⟨1, 2, 4, 8, 1, 2, 4, 8, 16, 3, 4, 3, 1⟩
  let old : Termios Unit := ⟨7, 1, 0, 15, 4, 0, ()⟩
  let s₀ : State Unit := ⟨fun _ => old, old, none, .RESET⟩
  let partly : Answers Unit := ⟨.ok (), .ok { old with c_lflag := 0 }, .ok (), .ok old⟩
  let fully : Answers Unit := ⟨.ok (), .ok ((raw f).request old), .ok (), .ok old⟩
  let s₁ : State Unit := (tty_raw f 0 partly s₀).2
  let s₂ : State Unit := (tty_raw f 0 fully s₁).2
  have h₁ : Legal (.raw 0 partly) s₀ := rfl
  have hback : s₁.tty 0 = old := by
    simp [s₁, tty_raw, enter, s₀, partly, f, old, raw, Mode.stuck, State.setIgnored]
  have h₂ : Legal (.raw 0 fully) s₁ := congrArg Except.ok hback.symm
  have hs₁ : act f (.raw 0 partly) s₀ = some s₁ := rfl
  have hs₂ : act f (.raw 0 fully) s₁ = some s₂ := rfl
  have hstate : s₂.ttystate = .RAW := by decide
  have hne : s₂.ttystate ≠ .RESET := by decide
  obtain ⟨fd, -, -, -, horig, -⟩ := (modes_restored ((Run.one h₁ hs₁).step h₂ hs₂)).2.1 hne
  exact ⟨s₂, hstate, horig⟩

end LearningNotes.Tty
