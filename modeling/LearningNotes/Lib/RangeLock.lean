/-!
# Advisory byte-range locks

The lock table behind `fcntl` record locks: a lock belongs to a process, covers a
range of bytes of one file (`stop = none` means up to the end of the file, however
large it grows), and is shared or exclusive. A request waits while a *different*
process holds a conflicting lock on a common byte; when granted it replaces what
the process itself held in that range, and an unlock gives up the process's locks
in the range, splitting a lock that sticks out (`clip`).

All reasoning goes through `Held`: which process holds which kind of lock on which
byte. `held_clip`, `held_acquire` and `exclusive_of_acquire` describe the table
operations by it, so the shape of the table never matters.

The last section is the order argument against deadlock: if a waiting process that
is waited for always ranks above the process waiting for it, no set of processes
waits for itself.
-/

namespace LearningNotes

/-- `F_RDLCK` and `F_WRLCK`. -/
inductive LockType where
  | rdlck
  | wrlck
  deriving DecidableEq, Repr

/-- A lock of process `owner` on the bytes `start, …` of `file`, up to `stop`
(exclusive). -/
structure RangeLock (π φ : Type) where
  owner : π
  file : φ
  type : LockType
  start : Nat
  stop : Option Nat
  deriving DecidableEq, Repr

/-- `n` lies below the end of a range. -/
def below (n : Nat) : Option Nat → Bool
  | none => true
  | some e => n < e

@[simp] theorem below_none (n : Nat) : below n none = true := rfl

@[simp] theorem below_some {n e : Nat} : below n (some e) = true ↔ n < e := by
  simp [below]

/-- Whatever is smaller lies below the end, too. -/
theorem below_mono {m n : Nat} {e : Option Nat} (hmn : m ≤ n) (h : below n e = true) :
    below m e = true := by
  cases e with
  | none => rfl
  | some e =>
    rw [below_some] at h ⊢
    omega

/-- The smaller of a bound and a number. -/
def capped (stop : Option Nat) (n : Nat) : Nat :=
  match stop with
  | none => n
  | some e => min e n

namespace RangeLock

variable {π φ : Type} [DecidableEq π] [DecidableEq φ]

/-- The lock covers byte `n`. -/
def Covers (l : RangeLock π φ) (n : Nat) : Prop := l.start ≤ n ∧ below n l.stop = true

/-- A lock of another process stands in the way of a request. -/
def blocks (l : RangeLock π φ) (p : π) (f : φ) (t : LockType) (start : Nat) (stop : Option Nat) :
    Bool :=
  l.owner ≠ p && l.file = f && below l.start stop && below start l.stop &&
    (l.type = .wrlck || t = .wrlck)

/-- What is left of a lock when the range from `start` to `stop` is cut out. -/
def pieces (l : RangeLock π φ) (start : Nat) (stop : Option Nat) : List (RangeLock π φ) :=
  (if l.start < start then [{ l with stop := some (capped l.stop start) }] else []) ++
    match stop with
    | none => []
    | some e => if below e l.stop then [{ l with start := max l.start e }] else []

/-- Process `p` gives up the range in file `f`. -/
def clip (table : List (RangeLock π φ)) (p : π) (f : φ) (start : Nat) (stop : Option Nat) :
    List (RangeLock π φ) :=
  table.flatMap fun l => if l.owner = p ∧ l.file = f then l.pieces start stop else [l]

/-- Grant a request, unless it has to wait. -/
def acquire (table : List (RangeLock π φ)) (p : π) (f : φ) (t : LockType) (start : Nat)
    (stop : Option Nat) : Option (List (RangeLock π φ)) :=
  if table.any (·.blocks p f t start stop) then none
  else some (⟨p, f, t, start, stop⟩ :: clip table p f start stop)

/-- Everything a process holds goes when the process ends. -/
def releaseAll (table : List (RangeLock π φ)) (p : π) : List (RangeLock π φ) :=
  table.filter (·.owner ≠ p)

/-- Process `p` holds a lock of type `t` on byte `n` of file `f`. -/
def Held (table : List (RangeLock π φ)) (p : π) (f : φ) (t : LockType) (n : Nat) : Prop :=
  ∃ l ∈ table, l.owner = p ∧ l.file = f ∧ l.type = t ∧ l.Covers n

/-- The byte lies in the range from `start` to `stop`. -/
def InRange (start : Nat) (stop : Option Nat) (n : Nat) : Prop := start ≤ n ∧ below n stop = true

theorem below_capped {n m : Nat} {e : Option Nat} :
    below n (some (capped e m)) = true ↔ below n e = true ∧ n < m := by
  cases e with
  | none => simp [capped]
  | some e => simp only [capped, below_some, Nat.lt_min]

omit [DecidableEq π] [DecidableEq φ] in
/-- A piece is a lock like the original one, on the bytes outside the range. -/
theorem covers_pieces {l : RangeLock π φ} {start : Nat} {stop : Option Nat} {n : Nat} :
    (∃ l' ∈ l.pieces start stop, l'.owner = l.owner ∧ l'.file = l.file ∧ l'.type = l.type ∧
      l'.Covers n) ↔ l.Covers n ∧ ¬ InRange start stop n := by
  -- the piece in front of the range
  have hleft : (∃ l' ∈ (if l.start < start then [{ l with stop := some (capped l.stop start) }]
      else []), l'.owner = l.owner ∧ l'.file = l.file ∧ l'.type = l.type ∧ l'.Covers n)
      ↔ l.Covers n ∧ n < start := by
    split
    next h =>
      simp only [List.mem_singleton, exists_eq_left, true_and, Covers, below_capped, and_assoc]
    next h =>
      simp only [List.not_mem_nil, false_and, exists_false, Covers, false_iff, not_and]
      rintro ⟨h₁, -⟩
      omega
  unfold pieces
  simp only [List.mem_append, or_and_right, exists_or]
  rw [hleft]
  cases stop with
  | none =>
    simp only [List.not_mem_nil, false_and, exists_false, or_false, InRange, below_none, and_true,
      Nat.not_le]
  | some e =>
    simp only [InRange, below_some, not_and, Nat.not_lt]
    split
    next h =>
      simp only [List.mem_singleton, exists_eq_left, true_and, Covers, Nat.max_le]
      constructor
      · rintro (⟨⟨h₁, h₂⟩, h₃⟩ | ⟨⟨h₁, h₂⟩, h₃⟩)
        · exact ⟨⟨h₁, h₂⟩, by omega⟩
        · exact ⟨⟨h₁, h₃⟩, fun _ => h₂⟩
      · rintro ⟨⟨h₁, h₂⟩, h₃⟩
        rcases Nat.lt_or_ge n start with hn | hn
        · exact Or.inl ⟨⟨h₁, h₂⟩, hn⟩
        · exact Or.inr ⟨⟨h₁, h₃ hn⟩, h₂⟩
    next h =>
      simp only [List.not_mem_nil, false_and, exists_false, or_false, Covers]
      constructor
      · rintro ⟨h₁, h₂⟩
        -- no piece behind the range: the lock does not reach so far
        exact ⟨h₁, by omega⟩
      · rintro ⟨⟨h₁, h₂⟩, h₃⟩
        refine ⟨⟨h₁, h₂⟩, ?_⟩
        rcases Nat.lt_or_ge n start with hn | hn
        · exact hn
        · refine absurd (below_mono (h₃ hn) h₂) h

/-- Giving up a range: exactly the process's own locks in it go. -/
theorem held_clip {table : List (RangeLock π φ)} {p q : π} {f g : φ} {start : Nat}
    {stop : Option Nat} {t : LockType} {n : Nat} :
    Held (clip table p f start stop) q g t n ↔
      Held table q g t n ∧ ¬ (q = p ∧ g = f ∧ InRange start stop n) := by
  unfold Held clip
  simp only [List.mem_flatMap]
  constructor
  · rintro ⟨l', ⟨l, hl, hl'⟩, rfl, rfl, rfl, hc⟩
    split at hl'
    next h =>
      have hsame : l'.owner = l.owner ∧ l'.file = l.file ∧ l'.type = l.type := by
        unfold pieces at hl'
        rcases List.mem_append.mp hl' with hm | hm
        · split at hm
          · rw [List.mem_singleton.mp hm]
            exact ⟨rfl, rfl, rfl⟩
          · exact absurd hm List.not_mem_nil
        · cases stop with
          | none => exact absurd hm List.not_mem_nil
          | some e =>
            dsimp only at hm
            split at hm
            · rw [List.mem_singleton.mp hm]
              exact ⟨rfl, rfl, rfl⟩
            · exact absurd hm List.not_mem_nil
      obtain ⟨ho, hf, ht⟩ := hsame
      obtain ⟨hcov, hout⟩ := covers_pieces.mp ⟨l', hl', ho, hf, ht, hc⟩
      exact ⟨⟨l, hl, ho.symm, hf.symm, ht.symm, hcov⟩, fun hin => hout hin.2.2⟩
    next h =>
      cases List.mem_singleton.mp hl'
      exact ⟨⟨l', hl, rfl, rfl, rfl, hc⟩, fun hin => h ⟨hin.1, hin.2.1⟩⟩
  · rintro ⟨⟨l, hl, rfl, rfl, rfl, hc⟩, hout⟩
    by_cases h : l.owner = p ∧ l.file = f
    · have hr : ¬ InRange start stop n := fun hin => hout ⟨h.1, h.2, hin⟩
      obtain ⟨l', hl', ho, hf, ht, hcov⟩ := covers_pieces.mpr ⟨hc, hr⟩
      exact ⟨l', ⟨l, hl, by rw [if_pos h]; exact hl'⟩, ho, hf, ht, hcov⟩
    · exact ⟨l, ⟨l, hl, by rw [if_neg h]; exact List.mem_singleton_self l⟩, rfl, rfl, rfl, hc⟩

/-- A granted request: the process holds the range in the new way, nothing else changes. -/
theorem held_acquire {table table' : List (RangeLock π φ)} {p q : π} {f g : φ} {start : Nat}
    {stop : Option Nat} {t t' : LockType} {n : Nat}
    (h : acquire table p f t start stop = some table') :
    Held table' q g t' n ↔ (q = p ∧ g = f ∧ t' = t ∧ InRange start stop n) ∨
      (Held table q g t' n ∧ ¬ (q = p ∧ g = f ∧ InRange start stop n)) := by
  unfold acquire at h
  split at h
  · exact absurd h (by simp)
  · cases h
    rw [← held_clip]
    unfold Held
    simp only [List.mem_cons, or_and_right, exists_or, exists_eq_left]
    constructor
    · rintro (⟨rfl, rfl, rfl, hc⟩ | h)
      · exact Or.inl ⟨rfl, rfl, rfl, hc⟩
      · exact Or.inr h
    · rintro (⟨rfl, rfl, rfl, hc⟩ | h)
      · exact Or.inl ⟨rfl, rfl, rfl, hc⟩
      · exact Or.inr h

/-- When a request is granted, another process holds at most a shared lock on the
bytes of the range, and only if the request is shared too. -/
theorem exclusive_of_acquire {table table' : List (RangeLock π φ)} {p q : π} {f : φ}
    {start : Nat} {stop : Option Nat} {t t' : LockType} {n : Nat}
    (h : acquire table p f t start stop = some table') (hq : q ≠ p) (hn : InRange start stop n)
    (hh : Held table q f t' n) : t = .rdlck ∧ t' = .rdlck := by
  unfold acquire at h
  split at h
  · exact absurd h (by simp)
  next hany =>
    obtain ⟨l, hl, rfl, rfl, rfl, hc₁, hc₂⟩ := hh
    have hb : ¬ l.blocks p l.file t start stop = true := by
      intro hb
      exact hany (List.any_eq_true.mpr ⟨l, hl, hb⟩)
    have hs : below l.start stop = true := below_mono hc₁ hn.2
    have he : below start l.stop = true := below_mono hn.1 hc₂
    simp only [blocks, hs, he, Bool.and_eq_true, Bool.or_eq_true, decide_eq_true_eq, ne_eq, hq,
      not_false_eq_true, and_self, true_and, not_or] at hb
    constructor
    · cases t with
      | rdlck => rfl
      | wrlck => exact absurd rfl hb.2
    · cases ht : l.type with
      | rdlck => rfl
      | wrlck => exact absurd ht hb.1

omit [DecidableEq φ] in
/-- What is held after a process has ended. -/
theorem held_releaseAll {table : List (RangeLock π φ)} {p q : π} {f : φ} {t : LockType} {n : Nat} :
    Held (releaseAll table p) q f t n ↔ Held table q f t n ∧ q ≠ p := by
  constructor
  · rintro ⟨l, hl, ho, h⟩
    obtain ⟨hl, hne⟩ := List.mem_filter.mp hl
    exact ⟨⟨l, hl, ho, h⟩, ho ▸ of_decide_eq_true hne⟩
  · rintro ⟨⟨l, hl, ho, h⟩, hne⟩
    exact ⟨l, List.mem_filter.mpr ⟨hl, decide_eq_true (ho ▸ hne)⟩, ho, h⟩

/-- Cutting a range out leaves the owners of the locks alone. -/
theorem owner_of_mem_clip {table : List (RangeLock π φ)} {p : π} {f : φ} {start : Nat}
    {stop : Option Nat} {l' : RangeLock π φ} (h : l' ∈ clip table p f start stop) :
    ∃ l ∈ table, l'.owner = l.owner := by
  obtain ⟨l, hl, hl'⟩ := List.mem_flatMap.mp h
  refine ⟨l, hl, ?_⟩
  split at hl'
  · unfold pieces at hl'
    rcases List.mem_append.mp hl' with hm | hm
    · split at hm
      · rw [List.mem_singleton.mp hm]
      · exact absurd hm List.not_mem_nil
    · cases stop with
      | none => exact absurd hm List.not_mem_nil
      | some e =>
        dsimp only at hm
        split at hm
        · rw [List.mem_singleton.mp hm]
        · exact absurd hm List.not_mem_nil
  · rw [List.mem_singleton.mp hl']

/-- A process that is alone with its locks never waits and stays alone. -/
theorem acquire_of_alone {table : List (RangeLock π φ)} {p : π} (hp : ∀ l ∈ table, l.owner = p)
    (f : φ) (t : LockType) (start : Nat) (stop : Option Nat) :
    ∃ table', acquire table p f t start stop = some table' ∧ ∀ l ∈ table', l.owner = p := by
  have hnb : ¬ (table.any (·.blocks p f t start stop) = true) := by
    intro h
    obtain ⟨l, hl, hb⟩ := List.any_eq_true.mp h
    simp [blocks, hp l hl] at hb
  refine ⟨_, if_neg hnb, ?_⟩
  intro l hl
  rcases List.mem_cons.mp hl with rfl | hl
  · rfl
  · obtain ⟨l₀, hl₀, ho⟩ := owner_of_mem_clip hl
    exact ho.trans (hp l₀ hl₀)

/-! ## Locks without bytes -/

/-- Every lock covers a byte. -/
def Proper (table : List (RangeLock π φ)) : Prop := ∀ l ∈ table, below l.start l.stop = true

theorem proper_clip {table : List (RangeLock π φ)} (h : Proper table) (p : π) (f : φ) (start : Nat)
    (stop : Option Nat) : Proper (clip table p f start stop) := by
  intro l' hl'
  obtain ⟨l, hl, hl'⟩ := List.mem_flatMap.mp hl'
  have hcov := h l hl
  split at hl'
  · unfold pieces at hl'
    rcases List.mem_append.mp hl' with hm | hm
    · split at hm
      next hlt =>
        rw [List.mem_singleton.mp hm]
        exact below_capped.mpr ⟨hcov, hlt⟩
      next => exact absurd hm List.not_mem_nil
    · cases stop with
      | none => exact absurd hm List.not_mem_nil
      | some e =>
        dsimp only at hm
        split at hm
        next hbelow =>
          rw [List.mem_singleton.mp hm]
          rcases Nat.le_total l.start e with hle | hle
          · exact (Nat.max_eq_right hle).symm ▸ hbelow
          · exact (Nat.max_eq_left hle).symm ▸ hcov
        next => exact absurd hm List.not_mem_nil
  · exact List.mem_singleton.mp hl' ▸ hcov

theorem proper_acquire {table table' : List (RangeLock π φ)} {p : π} {f : φ} {t : LockType}
    {start : Nat} {stop : Option Nat} (h : Proper table) (hrange : below start stop = true)
    (hacq : acquire table p f t start stop = some table') : Proper table' := by
  unfold acquire at hacq
  split at hacq
  · exact absurd hacq (by simp)
  · cases hacq
    intro l hl
    rcases List.mem_cons.mp hl with rfl | hl
    · exact hrange
    · exact proper_clip h p f start stop l hl

omit [DecidableEq φ] in
theorem proper_releaseAll {table : List (RangeLock π φ)} (h : Proper table) (p : π) :
    Proper (releaseAll table p) := fun l hl => h l (List.mem_filter.mp hl).1

/-- A lock that is in the way is one of another process, with a byte of the range. -/
theorem common_of_blocks {table : List (RangeLock π φ)} {l : RangeLock π φ} {p : π} {f : φ}
    {t : LockType} {start : Nat} {stop : Option Nat} (h : Proper table) (hl : l ∈ table)
    (hrange : below start stop = true) (hb : l.blocks p f t start stop = true) :
    ∃ n, InRange start stop n ∧ Held table l.owner f l.type n := by
  simp only [blocks, Bool.and_eq_true, decide_eq_true_eq] at hb
  obtain ⟨⟨⟨⟨-, hf⟩, hs⟩, he⟩, -⟩ := hb
  have hcov := h l hl
  rcases Nat.le_total l.start start with hle | hle
  · exact ⟨start, ⟨Nat.le_refl _, hrange⟩, l, hl, rfl, hf, rfl, hle, he⟩
  · exact ⟨l.start, ⟨hle, hs⟩, l, hl, rfl, hf, rfl, Nat.le_refl _, hcov⟩

end RangeLock

/-! ## Waiting in a circle -/

/-- **Lock order.** If a process that is waited for and waits itself always ranks above
the one waiting for it, and ranks are bounded, then no non-empty set of processes is
such that each of them waits for another one of the set. -/
theorem no_wait_cycle {π : Type} {waits : π → π → Prop} {rank : π → Nat} {top : Nat}
    (htop : ∀ p, rank p ≤ top)
    (hrank : ∀ p q r, waits p q → waits q r → rank p < rank q) :
    ¬ ∃ S : π → Prop, (∃ p, S p) ∧ ∀ p, S p → ∃ q, S q ∧ waits p q := by
  rintro ⟨S, ⟨p, hp⟩, hS⟩
  have hclimb : ∀ k, ∃ q, S q ∧ k ≤ rank q := by
    intro k
    induction k with
    | zero => exact ⟨p, hp, Nat.zero_le _⟩
    | succ k ih =>
      obtain ⟨q, hq, hk⟩ := ih
      obtain ⟨r, hr, hqr⟩ := hS q hq
      obtain ⟨u, -, hru⟩ := hS r hr
      exact ⟨r, hr, Nat.lt_of_le_of_lt hk (hrank q r u hqr hru)⟩
  obtain ⟨q, -, hq⟩ := hclimb (top + 1)
  have := htop q
  omega

end LearningNotes
