import LearningNotes.Lib.CString
import LearningNotes.Lib.Transfer

/-!
# Reading and writing all of a buffer

`readn` and `writen` of `lib`, and `treadn` of `printer/util.c`: the same loop around `read`,
`write` and `tread`. What the calls return is a `Kernel`, of which nothing is known except that a
count is at most what was asked for.

`transferred`: each of them has transferred the first bytes in order, as many as the calls have
returned before the first 0 or error, and returns their number, or -1 if the first call failed.

Mirroring notes:
- `fd` and `timout` only say to the kernel what to answer, and it may answer anything.
- A buffer is an object, and no object has more than `SSIZE_MAX` bytes.
- A call that fails changes `errno` and nothing else.
-/

namespace LearningNotes.Fdio

open Transfer

def ETIME : Int := 62

/-- What the system calls answer, each at its time, and the bytes that `read` will deliver. -/
structure Kernel where
  input : Nat → Byte
  read : Nat → (asked : Nat) → Reply asked
  write : Nat → (asked : Nat) → Reply asked
  select : Nat → Int
  /-- `errno` after a call that has failed -/
  errno : Nat → Int

/-- The memory of the process, how much of the input it has read, what it has written, and where
and for how much it has called. -/
structure World where
  mem : Nat → Byte
  taken : Nat
  output : List Byte
  errno : Int
  calls : List (Nat × Nat)

namespace World

variable (w : World)

/-- `count` bytes of the input are stored at `ptr`. -/
def receive (input : Nat → Byte) (ptr count : Nat) : World :=
  { w with
    mem := fun a => if ptr ≤ a ∧ a < ptr + count then input (w.taken + (a - ptr)) else w.mem a
    taken := w.taken + count }

/-- `count` bytes at `ptr` are written. -/
def send (ptr count : Nat) : World :=
  { w with output := w.output ++ (List.range count).map fun i => w.mem (ptr + i) }

/-- A call at `ptr` for `asked` bytes has returned. -/
def called (ptr : Nat) {asked : Nat} (r : Reply asked) (errno : Int) : World :=
  { w with errno := if r.val < 0 then errno else w.errno, calls := w.calls ++ [(ptr, asked)] }

/-- The number of calls so far. -/
def time : Nat := w.calls.length

end World

variable (k : Kernel)

/-- `read`, as the kernel answers. -/
def read (ptr asked : Nat) (w : World) : Reply asked × World :=
  let r := k.read w.time asked
  (r, (w.receive k.input ptr r.count).called ptr r (k.errno w.time))

/-- `write`, as the kernel answers. -/
def write (ptr asked : Nat) (w : World) : Reply asked × World :=
  let r := k.write w.time asked
  (r, (w.send ptr r.count).called ptr r (k.errno w.time))

/-- `tread`: `select` first, and then `read`. -/
def tread (ptr nbytes : Nat) (w : World) : Reply nbytes × World :=
  let nfds := k.select w.time
  if nfds ≤ 0 then
    let r := Reply.error nbytes
    (r, w.called ptr r (if nfds = 0 then ETIME else k.errno w.time))
  else read k ptr nbytes w

/-- `readn`: `read` again until there are `n` bytes, an end or an error. -/
def readn (ptr n : Nat) (w : World) : Int × World := loop (read k) n n ptr w

/-- `writen`: `write` again until all is written or there is an error. -/
def writen (ptr n : Nat) (w : World) : Int × World := loop (write k) n n ptr w

/-- `treadn`: the loop of `readn` over `tread`. -/
def treadn (buf nbytes : Nat) (w : World) : Int × World := loop (tread k) nbytes nbytes buf w

/-- The caller's buffer. -/
structure Buf where
  addr : Nat
  size : Nat
  size_le : size ≤ SSIZE_MAX

variable {k : Kernel} {b : Buf} {w w' : World} {m : Nat}

/-- The next `m` bytes of the input have been stored at the start of the buffer. -/
structure Received (k : Kernel) (b : Buf) (m : Nat) (w w' : World) : Prop where
  stored : ∀ i < m, w'.mem (b.addr + i) = k.input (w.taken + i)
  others : ∀ a, a < b.addr ∨ b.addr + m ≤ a → w'.mem a = w.mem a
  taken : w'.taken = w.taken + m
  output : w'.output = w.output

/-- The first `m` bytes of the buffer have been written. -/
structure Sent (b : Buf) (m : Nat) (w w' : World) : Prop where
  output : w'.output = w.output ++ (List.range m).map fun i => w.mem (b.addr + i)
  mem : w'.mem = w.mem
  taken : w'.taken = w.taken

/-- There have been `i` calls, each for something at the end of the buffer. -/
def Within (b : Buf) (i : Nat) (w w' : World) : Prop :=
  ∃ new, w'.calls = w.calls ++ new ∧ new.length = i ∧
    ∀ c ∈ new, b.addr ≤ c.1 ∧ 0 < c.2 ∧ c.1 + c.2 = b.addr + b.size

theorem Received.refl : Received k b 0 w w where
  stored := nofun
  others := fun _ _ => rfl
  taken := rfl
  output := rfl

theorem Sent.refl : Sent b 0 w w where
  output := (List.append_nil _).symm
  mem := rfl
  taken := rfl

theorem Within.refl : Within b 0 w w := ⟨[], (List.append_nil _).symm, rfl, nofun⟩

/-- Each round is one call. -/
theorem Within.time {i : Nat} (h : Within b i w w') : w'.time = w.time + i := by
  obtain ⟨new, hcalls, hlen, -⟩ := h
  rw [World.time, hcalls, List.length_append, hlen, World.time]

section Step

variable {i left count : Nat} {r : Reply left} {e : Int}

/-- A call that has read `count` bytes more. -/
theorem Received.step (h : Received k b m w w') :
    Received k b (m + count) w ((w'.receive k.input (b.addr + m) count).called (b.addr + m) r e) where
  stored := by
    intro i hi
    change (if b.addr + m ≤ b.addr + i ∧ b.addr + i < b.addr + m + count then
      k.input (w'.taken + (b.addr + i - (b.addr + m))) else w'.mem (b.addr + i)) = _
    by_cases hlow : i < m
    · rw [if_neg (by omega), h.stored i hlow]
    · rw [if_pos (by omega), h.taken]
      congr 1
      omega
  others := by
    intro a ha
    change (if b.addr + m ≤ a ∧ a < b.addr + m + count then
      k.input (w'.taken + (a - (b.addr + m))) else w'.mem a) = _
    rw [if_neg (by omega), h.others a (by omega)]
  taken := by
    change w'.taken + count = _
    rw [h.taken, Nat.add_assoc]
  output := h.output

/-- A call that has written `count` bytes more. -/
theorem Sent.step (h : Sent b m w w') :
    Sent b (m + count) w ((w'.send (b.addr + m) count).called (b.addr + m) r e) where
  output := by
    change w'.output ++ (List.range count).map (fun i => w'.mem (b.addr + m + i)) = _
    rw [h.output, h.mem, List.range_add, List.map_append, List.append_assoc, List.map_map]
    congr 3
    funext i
    rw [Nat.add_assoc]
    rfl
  mem := h.mem
  taken := h.taken

/-- Each call asks for what is left of the buffer. -/
theorem Within.step {v : World} (h : Within b i w w') (hv : v.calls = w'.calls ++ [(b.addr + m, left)])
    (hleft : m + left = b.size) (hpos : 0 < left) : Within b (i + 1) w v := by
  obtain ⟨new, hcalls, hlen, hnew⟩ := h
  refine ⟨new ++ [(b.addr + m, left)], by rw [hv, hcalls, List.append_assoc], ?_, ?_⟩
  · rw [List.length_append, hlen, List.length_singleton]
  · intro c hc
    rw [List.mem_append, List.mem_singleton] at hc
    obtain hc | rfl := hc
    · exact hnew c hc
    · exact ⟨Nat.le_add_right _ _, hpos, by rw [Nat.add_assoc, hleft]⟩

end Step

/-! ## The three functions -/

/-- What `read` answers from `w` on. -/
def reads (k : Kernel) (w : World) (i : Nat) (asked : Nat) : Reply asked := k.read (w.time + i) asked

/-- What `write` answers from `w` on. -/
def writes (k : Kernel) (w : World) (i : Nat) (asked : Nat) : Reply asked :=
  k.write (w.time + i) asked

/-- What `tread` answers from `w` on. -/
def treads (k : Kernel) (w : World) (i : Nat) (asked : Nat) : Reply asked :=
  if k.select (w.time + i) ≤ 0 then Reply.error asked else k.read (w.time + i) asked

/-- What a function returns that calls for `n` bytes and is answered `res`. -/
def returns (res : Nat → (asked : Nat) → Reply asked) (n : Nat) : Int :=
  if 0 < n ∧ (result res n 0).val < 0 then -1 else total res n

theorem returned_eq_returns (res : Nat → (asked : Nat) → Reply asked) (b : Buf) :
    returned res b.size = returns res b.size := by
  rw [returned, returns, cssize_of_le (Nat.le_trans total_le b.size_le)]

/-- **The loop around a call** of which it is known what it answers and that it transfers as many
bytes as it answers, which is what `T` says. -/
theorem loop_transfers {call : (ptr asked : Nat) → World → Reply asked × World}
    {res : Nat → (asked : Nat) → Reply asked} (T : Nat → World → Prop) (hT : T 0 w)
    (hreply : ∀ {i ptr left w'}, w'.time = w.time + i → (call ptr left w').1 = res i left)
    (hcalls : ∀ {ptr left w'}, (call ptr left w').2.calls = w'.calls ++ [(ptr, left)])
    (hstep : ∀ {m w'} (left : Nat), T m w' →
      T (m + (call (b.addr + m) left w').1.count) (call (b.addr + m) left w').2) :
    ∃ w', loop call b.size b.size b.addr w = (returns res b.size, w') ∧ T (total res b.size) w' ∧
      ∃ i, Within b i w w' := by
  have hpreserves : Preserves call res b.size b.addr fun i m w' => T m w' ∧ Within b i w w' :=
    { reply := fun h _ => hreply h.2.time
      next := by
        intro i m left w' h hleft hpos
        have hnext := hstep left h.1
        rw [hreply h.2.time] at hnext
        exact ⟨hnext, h.2.step hcalls hleft hpos⟩ }
  obtain ⟨i, w', hrun, hT', hwithin⟩ := loop_spec hpreserves ⟨hT, Within.refl⟩
  exact ⟨w', by rw [hrun, returned_eq_returns], hT', i, hwithin⟩

/-- **`readn` asks for what is left each time, and its bytes come in order.** -/
theorem readn_spec : ∃ w', readn k b.addr b.size w = (returns (reads k w) b.size, w') ∧
    Received k b (total (reads k w) b.size) w w' ∧ ∃ i, Within b i w w' := by
  refine loop_transfers (fun m w' => Received k b m w w') Received.refl ?_ rfl fun _ h => h.step
  intro i ptr left w' ht
  rw [reads, ← ht]
  rfl

/-- **`writen` offers what is left each time, and the bytes go out in order.** -/
theorem writen_spec : ∃ w', writen k b.addr b.size w = (returns (writes k w) b.size, w') ∧
    Sent b (total (writes k w) b.size) w w' ∧ ∃ i, Within b i w w' := by
  refine loop_transfers (fun m w' => Sent b m w w') Sent.refl ?_ rfl fun _ h => h.step
  intro i ptr left w' ht
  rw [writes, ← ht]
  rfl

/-- Without data in time nothing is stored, and `tread` fails. -/
theorem tread_of_timeout (ptr left : Nat) (h : k.select w.time ≤ 0) :
    ∃ e, tread k ptr left w = (Reply.error left, w.called ptr (Reply.error left) e) :=
  ⟨_, if_pos h⟩

/-- With something to read, `tread` is `read`. -/
theorem tread_of_ready {ptr left : Nat} (h : ¬k.select w.time ≤ 0) :
    tread k ptr left w = read k ptr left w := if_neg h

/-- **`treadn` asks for what is left each time, and its bytes come in order.** -/
theorem treadn_spec : ∃ w', treadn k b.addr b.size w = (returns (treads k w) b.size, w') ∧
    Received k b (total (treads k w) b.size) w w' ∧ ∃ i, Within b i w w' := by
  refine loop_transfers (fun m w' => Received k b m w w') Received.refl ?_ ?_ ?_
  · intro i ptr left w' ht
    rw [treads, ← ht]
    by_cases h : k.select w'.time ≤ 0
    · obtain ⟨e, he⟩ := tread_of_timeout ptr left h
      rw [he, if_pos h]
    · rw [tread_of_ready h, if_neg h]
      rfl
  · intro ptr left w'
    by_cases h : k.select w'.time ≤ 0
    · obtain ⟨e, he⟩ := tread_of_timeout ptr left h
      rw [he]
      rfl
    · rw [tread_of_ready h]
      rfl
  · intro m w' left hm
    by_cases h : k.select w'.time ≤ 0
    · obtain ⟨e, he⟩ := tread_of_timeout (b.addr + m) left h
      rw [he, Reply.count_error]
      exact ⟨hm.stored, hm.others, hm.taken, hm.output⟩
    · rw [tread_of_ready h]
      exact hm.step

/-- **`readn`, `treadn` and `writen` transfer the first bytes in order**, as many as the calls
return before the first 0 or error. -/
theorem transferred (k : Kernel) (w : World) (b : Buf) :
    (∃ w', readn k b.addr b.size w = (returns (reads k w) b.size, w') ∧
      Received k b (total (reads k w) b.size) w w' ∧ ∃ i, Within b i w w') ∧
    (∃ w', treadn k b.addr b.size w = (returns (treads k w) b.size, w') ∧
      Received k b (total (treads k w) b.size) w w' ∧ ∃ i, Within b i w w') ∧
    (∃ w', writen k b.addr b.size w = (returns (writes k w) b.size, w') ∧
      Sent b (total (writes k w) b.size) w w' ∧ ∃ i, Within b i w w') ∧
    ∀ res : Nat → (asked : Nat) → Reply asked, total res b.size ≤ b.size :=
  ⟨readn_spec, treadn_spec, writen_spec, fun _ => total_le⟩

end LearningNotes.Fdio
