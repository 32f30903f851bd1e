import LearningNotes.Lib.Parcels
import LearningNotes.Lib.Runs
import LearningNotes.Lib.Slist

/-!
# The two allocators

`base_alloc` and `default_alloc` of the notes on the STL. Blocks of up to 128 bytes come from sixteen
free lists, whose links are in the free blocks themselves; whatever the clients do with their
blocks, no two of them overlap, the lists stay intact, and no block gets lost (`blocks_apart`).

Mirroring notes:
- `mem` is the `free_list_link` of an `obj`, by its address; cells are eight bytes and addresses do
  not wrap.
- `chunk_alloc` is declared only, and `malloc` is a function of the system: `Answers` has what they
  return in one call, with `nobjs` as `chunk_alloc` leaves it. `handled` has one entry for each turn
  in `oom_malloc`: whether there is a handler, and what `malloc` returns after it.
- `fault` stands for an index outside of `free_list`.
-/

namespace LearningNotes.Alloc

def ALIGN : Nat := 8
def MAX_BYTES : Nat := 128
def NFREELISTS : Nat := MAX_BYTES / ALIGN

/-- `ROUND_UP`: to the next multiple of `ALIGN`. -/
def ROUND_UP (bytes : Nat) : Nat :=
  (bytes + ALIGN - 1) % 2 ^ 64 &&& (2 ^ 64 - ALIGN)

/-- In `size_t`, so that it is not an index for zero bytes. -/
def FREELIST_INDEX (bytes : Nat) : Nat :=
  ((bytes + ALIGN - 1) % 2 ^ 64 / ALIGN + (2 ^ 64 - 1)) % 2 ^ 64

/-- What is answered to one call of `allocate`. -/
structure Answers where
  chunk : Nat
  nobjs : Nat
  malloc : Option Nat
  handled : List (Bool × Option Nat)

/-- The pointer that is returned; `none` when the loop goes on after the last answer. -/
def oom_malloc : List (Bool × Option Nat) → Option (Option Nat)
  | [] => none
  | (false, _) :: _ => some none
  | (true, some res) :: _ => some (some res)
  | (true, none) :: rest => oom_malloc rest

/-- `malloc_alloc::allocate` -/
def base_allocate (ans : Answers) : Option (Option Nat) :=
  match ans.malloc with
  | some res => some (some res)
  | none => oom_malloc ans.handled

/-- The memory in which the free blocks are linked, and the free lists. -/
structure Lists where
  free_list : Nat → Option Nat
  mem : Nat → Option Nat
  fault : Bool

/-- The loop of `refill`, with `left` turns after this one. -/
def link (n : Nat) : Nat → Nat → (Nat → Option Nat) → Nat → Option Nat
  | 0, current_obj, mem => Function.update mem current_obj none
  | left + 1, current_obj, mem =>
    link n left (current_obj + n) (Function.update mem current_obj (some (current_obj + n)))

/-- `free_list[i]` is used. -/
def Lists.touch (s : Lists) (i : Nat) : Lists :=
  { s with fault := s.fault || decide (NFREELISTS ≤ i) }

/-- `refill`: a chunk of blocks, the first for the caller and the others for the list. -/
def refill (n : Nat) (ans : Answers) (s : Lists) : Nat × Lists :=
  if ans.nobjs = 1 then (ans.chunk, s)
  else
    (ans.chunk, { s.touch (FREELIST_INDEX n) with
      free_list := Function.update s.free_list (FREELIST_INDEX n) (some (ans.chunk + n))
      mem := link n (ans.nobjs - 2) (ans.chunk + n) s.mem })

/-- `allocate`: from the free list of the size, or from new memory. -/
def allocate (n : Nat) (ans : Answers) (s : Lists) : Option (Option Nat × Lists) :=
  if n > MAX_BYTES then (base_allocate ans).map fun res => (res, s)
  else
    match s.free_list (FREELIST_INDEX n) with
    | none =>
      let r := refill (ROUND_UP n) ans (s.touch (FREELIST_INDEX n))
      some (some r.1, r.2)
    | some result =>
      some (some result, { s.touch (FREELIST_INDEX n) with
        free_list := Function.update s.free_list (FREELIST_INDEX n) (s.mem result) })

/-- `deallocate`: back to the front of the free list of the size. -/
def deallocate (p n : Nat) (s : Lists) : Lists :=
  if n > MAX_BYTES then s
  else
    { s.touch (FREELIST_INDEX n) with
      free_list := Function.update s.free_list (FREELIST_INDEX n) (some p)
      mem := Function.update s.mem p (s.free_list (FREELIST_INDEX n)) }

/-! ## Runs -/

/-- With the blocks that the clients have, each with the size they asked for, and the chunks from
`chunk_alloc`, each with the size and the number of its blocks. -/
structure State extends Lists where
  live : List (Nat × Nat)
  chunks : List (Nat × Nat × Nat)

/-- Before the first call. -/
def init : State where
  free_list := fun _ => none
  mem := fun _ => none
  fault := false
  live := []
  chunks := []

/-- A client may write what it likes into its blocks. -/
inductive Act where
  | allocate (n : Nat) (ans : Answers)
  | deallocate (p n : Nat)
  | write (a : Nat) (v : Option Nat)

/-- `allocate` calls `chunk_alloc`. -/
def Lists.refills (s : Lists) (n : Nat) : Prop :=
  n ≤ MAX_BYTES ∧ s.free_list (FREELIST_INDEX n) = none

instance (s : Lists) (n : Nat) : Decidable (s.refills n) :=
  inferInstanceAs (Decidable (n ≤ MAX_BYTES ∧ s.free_list (FREELIST_INDEX n) = none))

/-- What a call does. -/
def act : Act → State → Option State
  | .allocate n ans, s =>
    (allocate n ans s.toLists).map fun (res, s') =>
      { toLists := s'
        live := match res with
          | some p => (p, n) :: s.live
          | none => s.live
        chunks := if s.refills n then (ans.chunk, ROUND_UP n, ans.nobjs) :: s.chunks else s.chunks }
  | .deallocate p n, s =>
    some { s with toLists := deallocate p n s.toLists, live := s.live.erase (p, n) }
  | .write a v, s => some { s with mem := Function.update s.mem a v }

/-- The bytes of a block for which `n` bytes were asked. -/
def area (n : Nat) : Nat := if n > MAX_BYTES then n else ROUND_UP n

/-- Outside of everything that has been given and not been given back. -/
def Fresh (s : State) (p n : Nat) : Prop :=
  (∀ c m k, (c, m, k) ∈ s.chunks → Apart p n c (m * k)) ∧
    ∀ q m, (q, m) ∈ s.live → m > MAX_BYTES → Apart p n q m

/-- A client asks for some bytes, and frees and writes its own blocks; the system gives fresh
memory. -/
def Legal : Act → State → Prop
  | .allocate n ans, s =>
    0 < n ∧
    (s.refills n → ALIGN ∣ ans.chunk ∧ 1 ≤ ans.nobjs ∧ Fresh s ans.chunk (ROUND_UP n * ans.nobjs)) ∧
    (n > MAX_BYTES → ∀ p, base_allocate ans = some (some p) → ALIGN ∣ p ∧ Fresh s p n)
  | .deallocate p n, s => (p, n) ∈ s.live
  | .write a _, s => ∃ p n, (p, n) ∈ s.live ∧ p ≤ a ∧ a < p + area n

/-- The number of no bytes is `SIZE_MAX`, so that a client must ask for some. -/
theorem allocate_zero {ans : Answers} {s s' : State} (hs : act (.allocate 0 ans) s = some s') :
    s'.fault = true := by
  have hindex : decide (NFREELISTS ≤ FREELIST_INDEX 0) = true := by decide
  have htouch : (s.touch (FREELIST_INDEX 0)).fault = true := by
    rw [Lists.touch, hindex, Bool.or_true]
  obtain ⟨⟨res, l⟩, hl, rfl⟩ := Option.map_eq_some_iff.mp hs
  show l.fault = true
  unfold allocate at hl
  rw [if_neg (by decide)] at hl
  cases hfree : s.free_list (FREELIST_INDEX 0) with
  | some result =>
    rw [hfree] at hl
    cases hl
    exact htouch
  | none =>
    rw [hfree] at hl
    cases hl
    unfold refill
    split
    · exact htouch
    · show (_ || _) = true
      rw [htouch, Bool.true_or]

/-! ## Sizes -/

variable {n p : Nat} {ans : Answers} {s s' : State} {size : Nat → Nat} {L : Nat → List Nat}

/-- The list for `n` bytes has the blocks of `ROUND_UP n` bytes. -/
theorem round_up : ∀ n ≤ MAX_BYTES, 0 < n → n ≤ ROUND_UP n ∧ ROUND_UP n ≤ MAX_BYTES ∧
    ROUND_UP n = 8 * (FREELIST_INDEX n + 1) ∧ FREELIST_INDEX (ROUND_UP n) = FREELIST_INDEX n ∧
    FREELIST_INDEX n < NFREELISTS := by
  decide

theorem area_small (h : n ≤ MAX_BYTES) : area n = ROUND_UP n := if_neg (by omega)

theorem area_large (h : n > MAX_BYTES) : area n = n := if_pos h

/-- A block is at least as long as asked for. -/
theorem le_area (h : 0 < n) : n ≤ area n := by
  by_cases hn : n ≤ MAX_BYTES
  · rw [area_small hn]
    exact (round_up n hn h).1
  · rw [area_large (by omega)]

/-! ## The loop of `refill` -/

/-- Only the new blocks are written to. -/
theorem link_of_not_mem {left c a : Nat} {mem : Nat → Option Nat} (h : a ∉ starts c n (left + 1)) :
    link n left c mem a = mem a := by
  induction left generalizing c mem with
  | zero =>
    have hne : a ≠ c := fun he => h (by simp [he, starts_succ])
    exact Function.update_of_ne hne ..
  | succ left ih =>
    rw [starts_succ, List.mem_cons, not_or] at h
    rw [link, ih h.2, Function.update_of_ne h.1]

/-- The loop links the blocks one after the other. -/
theorem link_follow (hn : 0 < n) (left c : Nat) (mem : Nat → Option Nat) :
    Follow (link n left c mem) (some c) (starts c n (left + 1)) := by
  induction left generalizing c mem with
  | zero =>
    rw [starts_succ]
    exact ⟨rfl, Function.update_self ..⟩
  | succ left ih =>
    rw [starts_succ]
    refine ⟨rfl, ?_⟩
    have hc : c ∉ starts (c + n) n (left + 1) := by
      intro hmem
      have := starts_lt hmem
      omega
    rw [link, link_of_not_mem hc, Function.update_self]
    exact ih (c + n) _

/-! ## What holds in every run -/

/-- `size` divides the memory into blocks, and the list of index `i` has the blocks `L i`. Every
block of a chunk is with a client or in its list, and every block is from a chunk or a large one. -/
structure Inv (s : State) (size : Nat → Nat) (L : Nat → List Nat) : Prop where
  fault : s.fault = false
  parcels : Parcels size
  aligned : ∀ a, 0 < size a → ALIGN ∣ a
  chain : ∀ i < NFREELISTS, Follow s.mem (s.free_list i) (L i)
  free : ∀ i < NFREELISTS, ∀ a ∈ L i, size a = 8 * (i + 1) ∧ a ∉ s.live.map Prod.fst
  live : ∀ p n, (p, n) ∈ s.live → 0 < n ∧ size p = area n
  once : (s.live.map Prod.fst).Nodup
  sizes : ∀ c n k, (c, n, k) ∈ s.chunks → 0 < n ∧ n ≤ MAX_BYTES
  chunks : ∀ c n k, (c, n, k) ∈ s.chunks → ∀ a ∈ starts c n k,
    size a = n ∧ (a ∈ s.live.map Prod.fst ∨ a ∈ L (FREELIST_INDEX n))
  inside : ∀ a, 0 < size a → (∃ n, (a, n) ∈ s.live ∧ n > MAX_BYTES) ∨
    ∃ c n k, (c, n, k) ∈ s.chunks ∧ a ∈ starts c n k ∧ size a = n

/-- No block has been handed out. -/
theorem Inv.init : Inv init (fun _ => 0) fun _ => [] where
  fault := rfl
  parcels a b ha := absurd ha (by simp)
  aligned a ha := absurd ha (by simp)
  chain _ _ := rfl
  free _ _ a ha := absurd ha (by simp)
  live p n h := absurd h (by simp [Alloc.init])
  once := List.nodup_nil
  sizes c n k h := absurd h (by simp [Alloc.init])
  chunks c n k h := absurd h (by simp [Alloc.init])
  inside a ha := absurd ha (by simp)

/-- New memory has nothing in common with the blocks. -/
theorem Inv.apart_fresh (h : Inv s size L) {m : Nat} (hf : Fresh s p m) {a : Nat}
    (ha : 0 < size a) : Apart a (size a) p m := by
  rcases h.inside a ha with ⟨n, hl, hn⟩ | ⟨c, n, k, hc, hmem, hsize⟩
  · have hsize := (h.live a n hl).2
    rw [area_large hn] at hsize
    rw [hsize]
    exact (hf.2 a n hl hn).symm
  · have hlt := starts_lt hmem
    rw [hsize]
    rcases hf.1 c n k hc with hle | hle
    · exact .inr (by omega)
    · exact .inl (by omega)

/-- A block in use is not empty. -/
theorem Inv.mem_pos (h : Inv s size L) (hp : p ∈ s.live.map Prod.fst) : 0 < size p := by
  obtain ⟨⟨q, n⟩, hmem, rfl⟩ := List.mem_map.1 hp
  obtain ⟨hn, hsize⟩ := h.live q n hmem
  have := le_area hn
  rw [hsize]
  omega

/-- New memory is not in use. -/
theorem Inv.not_mem_fresh (h : Inv s size L) {m : Nat} (hf : Fresh s p m) (hm : 0 < m) :
    p ∉ s.live.map Prod.fst := fun hp =>
  (h.apart_fresh hf (h.mem_pos hp)).ne (h.mem_pos hp) hm rfl

/-- A block is taken from its list. -/
theorem Inv.take (h : Inv s size L) {rest : List Nat} (hn : n ≤ MAX_BYTES) (hpos : 0 < n)
    (hL : L (FREELIST_INDEX n) = p :: rest) :
    Inv { s with
      free_list := Function.update s.free_list (FREELIST_INDEX n) (s.mem p)
      live := (p, n) :: s.live } size (Function.update L (FREELIST_INDEX n) rest) := by
  obtain ⟨-, hmax, hround, hsame, hlt⟩ := round_up n hn hpos
  have hchain := h.chain _ hlt
  have hp := h.free _ hlt p (by simp [hL])
  have hnodup := hchain.nodup
  rw [hL] at hchain hnodup
  refine ⟨h.fault, h.parcels, h.aligned, fun i hi => ?_, fun i hi a ha => ?_, fun q m hq => ?_,
    List.nodup_cons.2 ⟨hp.2, h.once⟩, h.sizes, fun c m k hc a ha => ?_, fun a ha => ?_⟩
  · by_cases he : i = FREELIST_INDEX n
    · rw [he]
      simpa using hchain.2
    · simpa [he] using h.chain i hi
  · by_cases he : i = FREELIST_INDEX n
    · rw [he, Function.update_self] at ha
      rw [he]
      have hne : a ≠ p := fun hap => (List.nodup_cons.1 hnodup).1 (hap ▸ ha)
      have hfree := h.free _ hlt a (by simp [hL, ha])
      exact ⟨hfree.1, by simpa [hne] using hfree.2⟩
    · rw [Function.update_of_ne he] at ha
      have hfree := h.free i hi a ha
      have hne : a ≠ p := by
        intro hap
        have hsize := hap ▸ hfree.1
        omega
      exact ⟨hfree.1, by simpa [hne] using hfree.2⟩
  · rcases List.mem_cons.1 hq with he | hq
    · cases he
      exact ⟨hpos, by rw [hp.1, area_small hn, hround]⟩
    · exact h.live q m hq
  · obtain ⟨hsize, hl | hl⟩ := h.chunks c m k hc a ha
    · exact ⟨hsize, .inl (List.mem_cons_of_mem _ hl)⟩
    · refine ⟨hsize, ?_⟩
      by_cases hap : a = p
      · exact .inl (by simp [hap])
      · right
        by_cases he : FREELIST_INDEX m = FREELIST_INDEX n
        · rw [he, Function.update_self]
          rw [he, hL] at hl
          exact (List.mem_cons.1 hl).resolve_left hap
        · rwa [Function.update_of_ne he]
  · rcases h.inside a ha with ⟨m, hl, hm⟩ | hc
    · exact .inl ⟨m, List.mem_cons_of_mem _ hl, hm⟩
    · exact .inr hc

/-- A chunk is cut into blocks: the first is given away, the others become the list. -/
theorem Inv.refill (h : Inv s size L) {c k : Nat} (hn : n ≤ MAX_BYTES) (hpos : 0 < n)
    (hL : L (FREELIST_INDEX n) = []) (hc : ALIGN ∣ c)
    (hf : Fresh s c (ROUND_UP n * (k + 1))) {mem' free_list' : Nat → Option Nat}
    (hmem : ∀ a, 0 < size a → mem' a = s.mem a)
    (hlist : ∀ i, i ≠ FREELIST_INDEX n → free_list' i = s.free_list i)
    (hnew : Follow mem' (free_list' (FREELIST_INDEX n))
      (starts (c + ROUND_UP n) (ROUND_UP n) k)) :
    Inv { s with
      free_list := free_list'
      mem := mem'
      live := (c, n) :: s.live
      chunks := (c, ROUND_UP n, k + 1) :: s.chunks } (cut size c (ROUND_UP n) (k + 1))
      (Function.update L (FREELIST_INDEX n) (starts (c + ROUND_UP n) (ROUND_UP n) k)) := by
  obtain ⟨-, hmax, hround, hsame, hlt⟩ := round_up n hn hpos
  have hrpos : 0 < ROUND_UP n := by omega
  have hout : ∀ a, 0 < size a → Apart a (size a) c (ROUND_UP n * (k + 1)) := by
    intro a ha
    exact h.apart_fresh hf ha
  have hkeep : ∀ a, 0 < size a → cut size c (ROUND_UP n) (k + 1) a = size a := by
    intro a ha
    exact cut_of_pos hout hrpos ha
  have hcmem : c ∈ starts c (ROUND_UP n) (k + 1) := by simp [starts_succ]
  have hcnew : c ∉ s.live.map Prod.fst := h.not_mem_fresh hf (Nat.mul_pos hrpos (by omega))
  have hsize : ∀ a ∈ starts c (ROUND_UP n) (k + 1), size a = 0 := by
    intro a ha
    have hlt := starts_lt ha
    by_contra hne
    rcases hout a (by omega) with hle | hle <;> omega
  refine ⟨h.fault, h.parcels.cut hout, fun a ha => ?_, fun i hi => ?_, fun i hi a ha => ?_,
    fun q m hq => ?_, List.nodup_cons.2 ⟨hcnew, h.once⟩, fun c' m k' hc' => ?_,
    fun c' m k' hc' a ha => ?_, fun a ha => ?_⟩
  · by_cases hmem : a ∈ starts c (ROUND_UP n) (k + 1)
    · obtain ⟨j, -, rfl⟩ := mem_starts.1 hmem
      exact Nat.dvd_add hc (Nat.dvd_mul_left_of_dvd (Dvd.intro _ hround.symm) j)
    · rw [cut_of_not_mem hmem] at ha
      exact h.aligned a ha
  · by_cases he : i = FREELIST_INDEX n
    · rw [he, Function.update_self]
      exact hnew
    · rw [Function.update_of_ne he]
      dsimp only
      rw [hlist i he]
      exact (h.chain i hi).congr fun a ha => hmem a (by have := (h.free i hi a ha).1; omega)
  · by_cases he : i = FREELIST_INDEX n
    · rw [he, Function.update_self] at ha
      have hmem : a ∈ starts c (ROUND_UP n) (k + 1) := by
        rw [starts_succ]
        exact List.mem_cons_of_mem _ ha
      refine ⟨by rw [cut_of_mem hmem, he, hround], fun hl => ?_⟩
      rcases List.mem_cons.1 hl with hac | hl
      · have := starts_lt ha
        dsimp only at hac
        omega
      · have := h.mem_pos hl
        rw [hsize a hmem] at this
        omega
    · rw [Function.update_of_ne he] at ha
      obtain ⟨hsz, hl⟩ := h.free i hi a ha
      have hapos : 0 < size a := by omega
      refine ⟨by rw [hkeep a hapos, hsz], fun hl' => ?_⟩
      rcases List.mem_cons.1 hl' with hac | hl'
      · rw [hac, hsize c hcmem] at hapos
        omega
      · exact hl hl'
  · rcases List.mem_cons.1 hq with he | hq
    · cases he
      exact ⟨hpos, by rw [cut_of_mem hcmem, area_small hn]⟩
    · obtain ⟨hm, hsz⟩ := h.live q m hq
      exact ⟨hm, by rw [hkeep q (h.mem_pos (List.mem_map.2 ⟨_, hq, rfl⟩)), hsz]⟩
  · rcases List.mem_cons.1 hc' with he | hc'
    · cases he
      exact ⟨hrpos, hmax⟩
    · exact h.sizes c' m k' hc'
  · rcases List.mem_cons.1 hc' with he | hc'
    · cases he
      refine ⟨cut_of_mem ha, ?_⟩
      rw [hsame, Function.update_self]
      rw [starts_succ] at ha
      rcases List.mem_cons.1 ha with hac | ha
      · exact .inl (by simp [hac])
      · exact .inr ha
    · obtain ⟨hsz, hl⟩ := h.chunks c' m k' hc' a ha
      have hapos : 0 < size a := hsz ▸ (h.sizes c' m k' hc').1
      refine ⟨by rw [hkeep a hapos, hsz], ?_⟩
      rcases hl with hl | hl
      · exact .inl (List.mem_cons_of_mem _ hl)
      · right
        by_cases he : FREELIST_INDEX m = FREELIST_INDEX n
        · rw [he, hL] at hl
          simp at hl
        · rwa [Function.update_of_ne he]
  · by_cases hmem : a ∈ starts c (ROUND_UP n) (k + 1)
    · exact .inr ⟨c, ROUND_UP n, k + 1, List.mem_cons_self .., hmem, cut_of_mem hmem⟩
    · rw [cut_of_not_mem hmem] at ha ⊢
      rcases h.inside a ha with ⟨m, hl, hm⟩ | ⟨c', m, k', hc', hst⟩
      · exact .inl ⟨m, List.mem_cons_of_mem _ hl, hm⟩
      · exact .inr ⟨c', m, k', List.mem_cons_of_mem _ hc', hst⟩

/-- A block of its own for a large request. -/
theorem Inv.large (h : Inv s size L) (hn : n > MAX_BYTES) (hp : ALIGN ∣ p) (hf : Fresh s p n) :
    Inv { s with live := (p, n) :: s.live } (cut size p n 1) L := by
  have hpos : 0 < n := by omega
  have hout : ∀ a, 0 < size a → Apart a (size a) p (n * 1) := by
    intro a ha
    rw [Nat.mul_one]
    exact h.apart_fresh hf ha
  have hkeep : ∀ a, 0 < size a → cut size p n 1 a = size a := by
    intro a ha
    exact cut_of_pos hout hpos ha
  have hmem : ∀ a, a ∈ starts p n 1 ↔ a = p := fun a => by simp [starts]
  have hpnew : p ∉ s.live.map Prod.fst := h.not_mem_fresh hf hpos
  have hp0 : size p = 0 := by
    by_contra hne
    rcases hout p (by omega) with hle | hle <;> omega
  refine ⟨h.fault, h.parcels.cut hout, fun a ha => ?_, h.chain, fun i hi a ha => ?_,
    fun q m hq => ?_, List.nodup_cons.2 ⟨hpnew, h.once⟩, h.sizes, fun c m k hc a ha => ?_,
    fun a ha => ?_⟩
  · by_cases hap : a = p
    · exact hap ▸ hp
    · rw [cut_of_not_mem (by rwa [hmem])] at ha
      exact h.aligned a ha
  · obtain ⟨hsz, hl⟩ := h.free i hi a ha
    have hapos : 0 < size a := by omega
    refine ⟨by rw [hkeep a hapos, hsz], fun hl' => ?_⟩
    rcases List.mem_cons.1 hl' with hap | hl'
    · rw [hap, hp0] at hapos
      omega
    · exact hl hl'
  · rcases List.mem_cons.1 hq with he | hq
    · cases he
      exact ⟨hpos, by rw [cut_of_mem ((hmem p).2 rfl), area_large hn]⟩
    · obtain ⟨hm, hsz⟩ := h.live q m hq
      exact ⟨hm, by rw [hkeep q (h.mem_pos (List.mem_map.2 ⟨_, hq, rfl⟩)), hsz]⟩
  · obtain ⟨hsz, hl⟩ := h.chunks c m k hc a ha
    have hapos : 0 < size a := hsz ▸ (h.sizes c m k hc).1
    exact ⟨by rw [hkeep a hapos, hsz], hl.imp_left (List.mem_cons_of_mem _)⟩
  · by_cases hap : a = p
    · exact .inl ⟨n, by simp [hap], hn⟩
    · rw [cut_of_not_mem (by rwa [hmem])] at ha ⊢
      exact (h.inside a ha).imp_left (Exists.imp fun m => And.imp_left (List.mem_cons_of_mem _))

/-- What is left with the clients. -/
theorem Inv.mem_erase (h : Inv s size L) (hp : (p, n) ∈ s.live) {q m : Nat} :
    (q, m) ∈ s.live.erase (p, n) ↔ (q, m) ∈ s.live ∧ q ≠ p := by
  rw [(h.once.of_map _).mem_erase_iff]
  constructor
  · rintro ⟨hne, hq⟩
    refine ⟨hq, fun he => hne ?_⟩
    exact List.inj_on_of_nodup_map h.once hq hp he
  · rintro ⟨hq, hne⟩
    exact ⟨fun he => hne (congrArg Prod.fst he), hq⟩

/-- The blocks in use without the one that is given back. -/
theorem Inv.mem_map_erase (h : Inv s size L) (hp : (p, n) ∈ s.live) {q : Nat} :
    q ∈ (s.live.erase (p, n)).map Prod.fst ↔ q ∈ s.live.map Prod.fst ∧ q ≠ p := by
  constructor
  · intro hq
    obtain ⟨⟨q, m⟩, hmem, rfl⟩ := List.mem_map.1 hq
    obtain ⟨hmem, hne⟩ := (h.mem_erase hp).1 hmem
    exact ⟨List.mem_map.2 ⟨_, hmem, rfl⟩, hne⟩
  · rintro ⟨hq, hne⟩
    obtain ⟨⟨q, m⟩, hmem, rfl⟩ := List.mem_map.1 hq
    exact List.mem_map.2 ⟨_, (h.mem_erase hp).2 ⟨hmem, hne⟩, rfl⟩

/-- A small block is put in front of its list. -/
theorem Inv.release (h : Inv s size L) (hp : (p, n) ∈ s.live) (hn : n ≤ MAX_BYTES) :
    Inv { s with
      free_list := Function.update s.free_list (FREELIST_INDEX n) (some p)
      mem := Function.update s.mem p (s.free_list (FREELIST_INDEX n))
      live := s.live.erase (p, n) } size
      (Function.update L (FREELIST_INDEX n) (p :: L (FREELIST_INDEX n))) := by
  obtain ⟨hpos, hsize⟩ := h.live p n hp
  obtain ⟨-, hmax, hround, hsame, hlt⟩ := round_up n hn hpos
  rw [area_small hn, hround] at hsize
  have hpl : p ∈ s.live.map Prod.fst := List.mem_map.2 ⟨_, hp, rfl⟩
  have hnot : ∀ i < NFREELISTS, p ∉ L i := by
    intro i hi hmem
    exact (h.free i hi p hmem).2 hpl
  refine ⟨h.fault, h.parcels, h.aligned, fun i hi => ?_, fun i hi a ha => ?_, fun q m hq => ?_,
    h.once.sublist (List.erase_sublist.map _), h.sizes, fun c m k hc a ha => ?_, fun a ha => ?_⟩
  · by_cases he : i = FREELIST_INDEX n
    · rw [he, Function.update_self]
      simpa using (h.chain _ hlt).push (hnot _ hlt)
    · rw [Function.update_of_ne he]
      dsimp only
      rw [Function.update_of_ne he]
      exact (h.chain i hi).congr fun a ha =>
        Function.update_of_ne (ne_of_mem_of_not_mem ha (hnot i hi)) ..
  · by_cases he : i = FREELIST_INDEX n
    · rw [he, Function.update_self] at ha
      rw [he]
      rcases List.mem_cons.1 ha with hap | ha
      · exact ⟨hap ▸ hsize, fun hl => ((h.mem_map_erase hp).1 hl).2 hap⟩
      · obtain ⟨hsz, hl⟩ := h.free _ hlt a ha
        exact ⟨hsz, fun hl' => hl ((h.mem_map_erase hp).1 hl').1⟩
    · rw [Function.update_of_ne he] at ha
      obtain ⟨hsz, hl⟩ := h.free i hi a ha
      exact ⟨hsz, fun hl' => hl ((h.mem_map_erase hp).1 hl').1⟩
  · exact h.live q m ((h.mem_erase hp).1 hq).1
  · obtain ⟨hsz, hl⟩ := h.chunks c m k hc a ha
    refine ⟨hsz, ?_⟩
    by_cases hap : a = p
    · -- the size of the block tells its list
      have hm : m = ROUND_UP n := by rw [← hsz, hap, hsize, hround]
      right
      rw [hm, hsame, Function.update_self, hap]
      exact List.mem_cons_self ..
    · refine hl.imp (fun hl => (h.mem_map_erase hp).2 ⟨hl, hap⟩) fun hl => ?_
      by_cases he : FREELIST_INDEX m = FREELIST_INDEX n
      · rw [he, Function.update_self]
        exact List.mem_cons_of_mem _ (he ▸ hl)
      · rwa [Function.update_of_ne he]
  · rcases h.inside a ha with ⟨m, hl, hm⟩ | hc
    · refine .inl ⟨m, (h.mem_erase hp).2 ⟨hl, fun hap => ?_⟩, hm⟩
      have hsz := (h.live a m hl).2
      rw [hap, hsize, ← hround, area_large hm] at hsz
      omega
    · exact .inr hc

/-- A large block goes back to the system. -/
theorem Inv.release_large (h : Inv s size L) (hp : (p, n) ∈ s.live) (hn : n > MAX_BYTES) :
    Inv { s with live := s.live.erase (p, n) } (Function.update size p 0) L := by
  have hpl : p ∈ s.live.map Prod.fst := List.mem_map.2 ⟨_, hp, rfl⟩
  have hkeep : ∀ a, a ≠ p → Function.update size p 0 a = size a := by
    intro a ha
    exact Function.update_of_ne ha ..
  have hne : ∀ a, 0 < Function.update size p 0 a → a ≠ p := by
    intro a ha he
    simp [he] at ha
  refine ⟨h.fault, h.parcels.remove p, fun a ha => ?_, h.chain, fun i hi a ha => ?_,
    fun q m hq => ?_, h.once.sublist (List.erase_sublist.map _), h.sizes,
    fun c m k hc a ha => ?_, fun a ha => ?_⟩
  · exact h.aligned a (hkeep a (hne a ha) ▸ ha)
  · obtain ⟨hsz, hl⟩ := h.free i hi a ha
    have hap : a ≠ p := fun he => hl (he ▸ hpl)
    exact ⟨by rw [hkeep a hap, hsz], fun hl' => hl ((h.mem_map_erase hp).1 hl').1⟩
  · obtain ⟨hq, hqp⟩ := (h.mem_erase hp).1 hq
    rw [hkeep q hqp]
    exact h.live q m hq
  · obtain ⟨hsz, hl⟩ := h.chunks c m k hc a ha
    have hap : a ≠ p := by
      intro he
      have hsp := (h.live p n hp).2
      have hm := (h.sizes c m k hc).2
      rw [← he, hsz, area_large hn] at hsp
      omega
    exact ⟨by rw [hkeep a hap, hsz], hl.imp_left fun hl => (h.mem_map_erase hp).2 ⟨hl, hap⟩⟩
  · have hap := hne a ha
    rw [hkeep a hap] at ha ⊢
    exact (h.inside a ha).imp_left (Exists.imp fun m => And.imp_left fun hl => (h.mem_erase hp).2 ⟨hl, hap⟩)

/-! ## One step -/

/-- A size that has a free list. -/
theorem Lists.touch_eq {l : Lists} {i : Nat} (hi : i < NFREELISTS) : l.touch i = l := by
  have : decide (NFREELISTS ≤ i) = false := by simpa using hi
  simp [Lists.touch, this]

/-- What `allocate` does to the clients' blocks, the lists and the memory. -/
theorem act_allocate (hpos : 0 < n) (hs : act (.allocate n ans) s = some s') :
    n > MAX_BYTES ∧
      (s' = s ∨ ∃ p, base_allocate ans = some (some p) ∧ s' = { s with live := (p, n) :: s.live }) ∨
    n ≤ MAX_BYTES ∧
      (∃ p, s.free_list (FREELIST_INDEX n) = some p ∧ s' = { s with
        free_list := Function.update s.free_list (FREELIST_INDEX n) (s.mem p)
        live := (p, n) :: s.live }) ∨
    s.refills n ∧ ∃ free_list mem,
      refill (ROUND_UP n) ans s.toLists = (ans.chunk, ⟨free_list, mem, s.fault⟩) ∧ s' = { s with
        free_list
        mem
        live := (ans.chunk, n) :: s.live
        chunks := (ans.chunk, ROUND_UP n, ans.nobjs) :: s.chunks } := by
  simp only [act, Option.map_eq_some_iff, Prod.exists] at hs
  obtain ⟨res, l, halloc, rfl⟩ := hs
  unfold allocate at halloc
  split at halloc
  next hn =>
    simp only [Option.map_eq_some_iff, Prod.mk.injEq] at halloc
    obtain ⟨res, hres, rfl, rfl⟩ := halloc
    have hno : ¬ s.refills n := by
      intro h
      have := h.1
      omega
    left
    refine ⟨hn, ?_⟩
    cases res with
    | none => exact .inl (by simp [hno])
    | some p => exact .inr ⟨p, hres, by simp [hno]⟩
  next hn =>
    obtain ⟨-, -, -, hsame, hlt⟩ := round_up n (by omega) hpos
    rw [Lists.touch_eq hlt] at halloc
    split at halloc
    next hnone =>
      have hyes : s.refills n := ⟨by omega, hnone⟩
      right
      right
      refine ⟨hyes, ?_⟩
      simp only [Option.some.injEq, Prod.mk.injEq] at halloc
      obtain ⟨rfl, rfl⟩ := halloc
      unfold refill
      rw [hsame, Lists.touch_eq hlt]
      split
      next => exact ⟨_, _, rfl, by simp⟩
      next => exact ⟨_, _, rfl, by simp⟩
    next p hp =>
      have hno : ¬ s.refills n := by
        intro h
        have := h.2.symm.trans hp
        simp at this
      right
      left
      simp only [Option.some.injEq, Prod.mk.injEq] at halloc
      obtain ⟨rfl, rfl⟩ := halloc
      exact ⟨by omega, p, hp, by simp [hno]⟩

/-- `refill` links all blocks of the chunk but the first. -/
theorem refill_spec {l l' : Lists} {k : Nat} (hn : 0 < n) (hk : ans.nobjs = k + 1)
    (hnone : l.free_list (FREELIST_INDEX n) = none)
    (hr : refill n ans l = (ans.chunk, l')) :
    (∀ i, i ≠ FREELIST_INDEX n → l'.free_list i = l.free_list i) ∧
      Follow l'.mem (l'.free_list (FREELIST_INDEX n)) (starts (ans.chunk + n) n k) ∧
      ∀ a, a ∉ starts (ans.chunk + n) n k → l'.mem a = l.mem a := by
  unfold refill at hr
  split at hr
  next h1 =>
    cases hr
    have hk0 : k = 0 := by omega
    subst hk0
    exact ⟨fun _ _ => rfl, hnone, fun _ _ => rfl⟩
  next h1 =>
    cases hr
    obtain ⟨left, rfl⟩ : ∃ left, k = left + 1 := ⟨k - 1, by omega⟩
    have hleft : ans.nobjs - 2 = left := by omega
    refine ⟨fun i hi => ?_, ?_, fun a ha => ?_⟩
    · dsimp only
      rw [Function.update_of_ne hi]
    · dsimp only
      rw [Function.update_self, hleft]
      exact link_follow hn left _ _
    · dsimp only
      rw [hleft]
      exact link_of_not_mem ha

/-- A cell of a block is not in another one. -/
theorem Inv.ne_of_live (h : Inv s size L) {q m a x : Nat} (hq : (q, m) ∈ s.live)
    (hx : q ≤ x ∧ x < q + area m) (ha : 0 < size a) (hne : a ≠ q) : x ≠ a := fun he => by
  have hsize := (h.live q m hq).2
  exact hne (h.parcels.eq_of_mem ⟨Nat.le_of_eq he.symm, by omega⟩ ⟨hx.1, by omega⟩)

/-- A block that a client has is left alone. -/
def Kept (s s' : State) : Prop :=
  ∀ q m, (q, m) ∈ s.live → (q, m) ∈ s'.live → ∀ x, q ≤ x ∧ x < q + area m → s'.mem x = s.mem x

theorem Kept.of_eq (h : s'.mem = s.mem) : Kept s s' := fun _ _ _ _ x _ => congrFun h x

/-- A write into a block in use. -/
def Act.isWrite : Act → Bool
  | .write _ _ => true
  | _ => false

/-- One step keeps the division into blocks. -/
theorem Inv.act (h : Inv s size L) {a : Act} (hc : Legal a s) (hs : act a s = some s') :
    (∃ size' L', Inv s' size' L') ∧ (a.isWrite = false → Kept s s') := by
  cases a with
  | allocate n ans =>
    obtain ⟨hpos, hchunk, hbase⟩ := hc
    rcases act_allocate hpos hs with ⟨hn, rfl | ⟨p, hp, rfl⟩⟩ | ⟨hn, p, hp, rfl⟩ |
      ⟨hrefill, free_list, mem, hr, rfl⟩
    · exact ⟨⟨_, _, h⟩, fun _ => .of_eq rfl⟩
    · obtain ⟨halign, hf⟩ := hbase hn p hp
      exact ⟨⟨_, _, h.large hn halign hf⟩, fun _ => .of_eq rfl⟩
    · have hchain := h.chain _ (round_up n hn hpos).2.2.2.2
      cases hL : L (FREELIST_INDEX n) with
      | nil =>
        rw [hL, hp] at hchain
        exact absurd hchain (by simp [Follow])
      | cons b rest =>
        rw [hL, hp] at hchain
        cases hchain.1
        exact ⟨⟨_, _, h.take hn hpos hL⟩, fun _ => .of_eq rfl⟩
    · obtain ⟨hn, hnone⟩ := hrefill
      obtain ⟨halign, hone, hf⟩ := hchunk ⟨hn, hnone⟩
      obtain ⟨-, -, hround, hsame, hlt⟩ := round_up n hn hpos
      obtain ⟨k, hk⟩ : ∃ k, ans.nobjs = k + 1 := ⟨ans.nobjs - 1, by omega⟩
      have hL : L (FREELIST_INDEX n) = [] := by
        have hchain := h.chain _ hlt
        rw [hnone] at hchain
        cases hL : L (FREELIST_INDEX n) with
        | nil => rfl
        | cons b rest =>
          rw [hL] at hchain
          exact absurd hchain.1 (by simp)
      rw [hk] at hf
      have hnone' : s.free_list (FREELIST_INDEX (ROUND_UP n)) = none := by rw [hsame, hnone]
      obtain ⟨hlist, hnew, hmem⟩ := refill_spec (by omega) hk hnone' hr
      rw [hsame] at hlist hnew
      -- the loop writes into the new blocks only
      have hold : ∀ q, 0 < size q → ∀ x, q ≤ x ∧ x < q + size q → mem x = s.mem x := by
        intro q hq x hx
        refine hmem x fun hst => ?_
        have hmem : x ∈ starts ans.chunk (ROUND_UP n) (k + 1) := by
          rw [starts_succ]
          exact List.mem_cons_of_mem _ hst
        have hlt := starts_lt hmem
        rcases h.apart_fresh hf hq with hle | hle <;> omega
      rw [hk]
      refine ⟨⟨_, _, h.refill hn hpos hL halign hf (fun q hq => hold q hq q ⟨Nat.le_refl _, by omega⟩)
        hlist hnew⟩, fun _ q m hq _ x hx => ?_⟩
      have hsize := (h.live q m hq).2
      exact hold q (h.mem_pos (List.mem_map.2 ⟨_, hq, rfl⟩)) x (by rwa [hsize])
  | deallocate p n =>
    have hpl : 0 < size p := h.mem_pos (List.mem_map.2 ⟨_, hc, rfl⟩)
    simp only [Alloc.act, Option.some.injEq] at hs
    subst hs
    unfold deallocate
    split
    next hn => exact ⟨⟨_, _, h.release_large hc hn⟩, fun _ => .of_eq rfl⟩
    next hn =>
      have hn : n ≤ MAX_BYTES := by omega
      rw [Lists.touch_eq (round_up n hn (h.live p n hc).1).2.2.2.2]
      refine ⟨⟨_, _, h.release hc hn⟩, fun _ q m hq hq' x hx => ?_⟩
      have hqp := ((h.mem_erase hc).1 hq').2
      exact Function.update_of_ne (h.ne_of_live hq hx hpl hqp.symm) ..
  | write x v =>
    obtain ⟨p, n, hp, hx⟩ := hc
    simp only [Alloc.act, Option.some.injEq] at hs
    subst hs
    refine ⟨⟨size, L, h.fault, h.parcels, h.aligned, fun i hi => ?_, h.free, h.live, h.once, h.sizes,
      h.chunks, h.inside⟩, fun hw => by simp [Act.isWrite] at hw⟩
    refine (h.chain i hi).congr fun b hb => Function.update_of_ne ?_ ..
    obtain ⟨hsz, hl⟩ := h.free i hi b hb
    have hbp : b ≠ p := fun he => hl (List.mem_map.2 ⟨_, hp, he.symm⟩)
    exact (h.ne_of_live hp hx (by omega) hbp).symm

/-- **The free lists and the blocks in use have nothing in common, in every run.** -/
theorem run_inv (h : Run act init Legal s) : ∃ size L, Inv s size L := by
  refine h.inv (I := fun s => ∃ size L, Inv s size L) ⟨_, _, .init⟩ fun a s s' _ hc hs hinv => ?_
  obtain ⟨size, L, hinv⟩ := hinv
  exact (hinv.act hc hs).1

/-- The blocks in use have nothing in common. -/
theorem Inv.pairwise (h : Inv s size L) :
    s.live.Pairwise fun b c => Apart b.1 (area b.2) c.1 (area c.2) := by
  have honce : s.live.Pairwise fun b c => b.1 ≠ c.1 := List.pairwise_map.1 h.once
  refine honce.imp_of_mem fun {b c} hb hc hne => ?_
  rw [← (h.live b.1 b.2 hb).2, ← (h.live c.1 c.2 hc).2]
  exact h.parcels b.1 c.1 (h.mem_pos (List.mem_map.2 ⟨_, hb, rfl⟩))
    (h.mem_pos (List.mem_map.2 ⟨_, hc, rfl⟩)) hne

/-- A block of a chunk is with a client that asked for such a block, or in its list. -/
theorem Inv.block (h : Inv s size L) {c k a : Nat} (hc : (c, n, k) ∈ s.chunks)
    (ha : a ∈ starts c n k) :
    (∃ m, (a, m) ∈ s.live ∧ ROUND_UP m = n ∧ a ∉ L (FREELIST_INDEX n)) ∨
      a ∈ L (FREELIST_INDEX n) ∧ a ∉ s.live.map Prod.fst := by
  obtain ⟨hpos, hmax⟩ := h.sizes c n k hc
  have hlt := (round_up n hmax hpos).2.2.2.2
  obtain ⟨hsz, hl | hl⟩ := h.chunks c n k hc a ha
  · obtain ⟨⟨a, m⟩, hmem, rfl⟩ := List.mem_map.1 hl
    have hsize := (h.live a m hmem).2
    rw [hsz] at hsize
    refine .inl ⟨m, hmem, ?_, fun hf => (h.free _ hlt a hf).2 hl⟩
    unfold area at hsize
    split at hsize
    next hm => omega
    next => exact hsize.symm
  · exact .inr ⟨hl, (h.free _ hlt a hl).2⟩

/-- **The blocks of the allocator.** In every run the clients' blocks are aligned, large enough and
apart from each other, each block that was cut out of a chunk is either with a client or in the list
for its size and never in both, and a step of the allocator leaves the clients' blocks alone. -/
theorem blocks_apart (h : Run act init Legal s) :
    s.fault = false ∧
      (s.live.Pairwise fun b c => Apart b.1 (area b.2) c.1 (area c.2)) ∧
      (∀ p n, (p, n) ∈ s.live → n ≤ area n ∧ ALIGN ∣ p) ∧
      (∀ c n k, (c, n, k) ∈ s.chunks →
        ∃ l, Follow s.mem (s.free_list (FREELIST_INDEX n)) l ∧ ∀ a ∈ starts c n k,
          (∃ m, (a, m) ∈ s.live ∧ ROUND_UP m = n ∧ a ∉ l) ∨ a ∈ l ∧ a ∉ s.live.map Prod.fst) ∧
      ∀ a s', Legal a s → a.isWrite = false → act a s = some s' → Kept s s' := by
  obtain ⟨size, L, hinv⟩ := run_inv h
  refine ⟨hinv.fault, hinv.pairwise, fun p n hp => ?_, fun c n k hc => ?_,
    fun a s' hc hw hs => (hinv.act hc hs).2 hw⟩
  · exact ⟨le_area (hinv.live p n hp).1,
      hinv.aligned p (hinv.mem_pos (List.mem_map.2 ⟨_, hp, rfl⟩))⟩
  · obtain ⟨hpos, hmax⟩ := hinv.sizes c n k hc
    exact ⟨_, hinv.chain _ (round_up n hmax hpos).2.2.2.2, fun a ha => hinv.block hc ha⟩

/-- A block of 5 bytes and one of 8: both take 8 bytes of the same chunk. -/
theorem blocks_apart_two :
    ∃ s : State, s.live = [(72, 8), (64, 5)] ∧ s.fault = false ∧ Apart 72 8 64 8 := by
  let ans : Answers := ⟨64, 20, none, []⟩
  let s₁ : State := (act (.allocate 5 ans) init).get rfl
  let s₂ : State := (act (.allocate 8 ans) s₁).get rfl
  have hc₁ : Legal (.allocate 5 ans) init :=
    ⟨by decide, fun _ => ⟨by decide, by decide, by simp [Fresh, init]⟩, fun hn => absurd hn (by decide)⟩
  have hc₂ : Legal (.allocate 8 ans) s₁ :=
    ⟨by decide, fun hr => absurd hr (by decide), fun hn => absurd hn (by decide)⟩
  have hs₂ : act (.allocate 8 ans) s₁ = some s₂ := rfl
  have h := blocks_apart ((Run.one hc₁ rfl).step hc₂ hs₂)
  have hlive : s₂.live = [(72, 8), (64, 5)] := rfl
  have hpair := h.2.1
  rw [hlive] at hpair
  have hapart : Apart 72 (area 8) 64 (area 5) := (List.pairwise_cons.1 hpair).1 (64, 5) (by simp)
  have harea : area 8 = 8 ∧ area 5 = 8 := by decide
  rw [harea.1, harea.2] at hapart
  exact ⟨s₂, hlive, h.1, hapart⟩

end LearningNotes.Alloc
