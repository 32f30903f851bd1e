import Mathlib.Data.Int.Order.Basic
import Mathlib.Logic.Function.Basic

/-!
# The circular queue

`InitQueue`, `QueueLength`, `EnQueue` and `DeQueue` of `DataStructure.md` for an array. One place of
it stays free, so that `front = rear` only says that the queue is empty; `run_eq_bounded` is that the
operations answer as those of a queue for `MAXQSIZE - 1` elements do, however often they go around
the array.

Mirroring notes:
- `malloc` succeeds, and `base` has any values at the start.
- What `DeQueue` stores in `e` is part of its answer.
-/

namespace LearningNotes.Circular

abbrev QElemType := UInt8

def MAXQSIZE : Int := 100

structure SqQueue where
  base : Int → QElemType
  front : Int
  rear : Int

/-- The array comes from `malloc`, with anything in it. -/
def initQueue (base : Int → QElemType) : SqQueue := ⟨base, 0, 0⟩

/-- `QueueLength` -/
def queueLength (Q : SqQueue) : Int := (Q.rear - Q.front + MAXQSIZE) % MAXQSIZE

/-- `EnQueue`: the last free place stays free. -/
def enQueue (e : QElemType) (Q : SqQueue) : Bool × SqQueue :=
  if (Q.rear + 1) % MAXQSIZE = Q.front then (false, Q)
  else
    (true, { Q with base := Function.update Q.base Q.rear e, rear := (Q.rear + 1) % MAXQSIZE })

/-- `DeQueue` -/
def deQueue (Q : SqQueue) : Option QElemType × SqQueue :=
  if Q.rear = Q.front then (none, Q)
  else (some (Q.base Q.front), { Q with front := (Q.front + 1) % MAXQSIZE })

inductive Op where
  | enQueue (e : QElemType)
  | deQueue
  | queueLength

inductive Answer where
  | enQueue (ok : Bool)
  | deQueue (e : Option QElemType)
  | queueLength (n : Int)
  deriving DecidableEq

/-- The answers to a sequence of calls. -/
def run : List Op → SqQueue → List Answer
  | [], _ => []
  | .enQueue e :: ops, Q => .enQueue (enQueue e Q).1 :: run ops (enQueue e Q).2
  | .deQueue :: ops, Q => .deQueue (deQueue Q).1 :: run ops (deQueue Q).2
  | .queueLength :: ops, Q => .queueLength (queueLength Q) :: run ops Q

/-- What a queue for `n` elements answers. -/
def bounded (n : Nat) : List Op → List QElemType → List Answer
  | [], _ => []
  | .enQueue e :: ops, q =>
    if q.length < n then .enQueue true :: bounded n ops (q ++ [e])
    else .enQueue false :: bounded n ops q
  | .deQueue :: ops, q => .deQueue q.head? :: bounded n ops q.tail
  | .queueLength :: ops, q => .queueLength q.length :: bounded n ops q

/-- The elements stand in the array from `front` on, going around its end. -/
structure Rep (Q : SqQueue) (q : List QElemType) : Prop where
  front : 0 ≤ Q.front ∧ Q.front < MAXQSIZE
  rear : Q.rear = (Q.front + q.length) % MAXQSIZE
  room : (q.length : Int) < MAXQSIZE
  item : ∀ i (h : i < q.length), Q.base ((Q.front + i) % MAXQSIZE) = q[i]

variable {Q : SqQueue} {q : List QElemType} {e x : QElemType}

/-- A new queue is empty. -/
theorem Rep.init (base : Int → QElemType) : Rep (initQueue base) [] where
  front := by simp [initQueue, MAXQSIZE]
  rear := rfl
  room := by decide
  item i h := absurd h (Nat.not_lt_zero i)

/-- Places that are less than the length of the array apart are different. -/
theorem place_inj {a i j : Int} (hi : 0 ≤ i ∧ i < MAXQSIZE) (hj : 0 ≤ j ∧ j < MAXQSIZE)
    (h : (a + i) % MAXQSIZE = (a + j) % MAXQSIZE) : i = j := by
  unfold MAXQSIZE at *
  omega

/-- `QueueLength` is the number of elements. -/
theorem Rep.length (h : Rep Q q) : queueLength Q = q.length := by
  have hfront := h.front
  have hroom := h.room
  unfold queueLength
  rw [h.rear]
  unfold MAXQSIZE at *
  omega

/-- The test of `EnQueue`: 99 elements are all it takes. -/
theorem Rep.full (h : Rep Q q) : (Q.rear + 1) % MAXQSIZE = Q.front ↔ ¬ q.length < 99 := by
  have hfront := h.front
  have hroom := h.room
  rw [h.rear]
  unfold MAXQSIZE at *
  omega

/-- The test of `DeQueue`. -/
theorem Rep.same (h : Rep Q q) : Q.rear = Q.front ↔ q = [] := by
  have hfront := h.front
  have hroom := h.room
  rw [h.rear, ← List.length_eq_zero_iff]
  unfold MAXQSIZE at *
  omega

/-- An element is put behind the last one, where the array may begin again. -/
theorem Rep.put (h : Rep Q q) (hlt : q.length < 99) : Rep
    { Q with base := Function.update Q.base Q.rear e, rear := (Q.rear + 1) % MAXQSIZE } (q ++ [e]) := by
  have hroom := h.room
  refine ⟨h.front, ?_, ?_, fun i hi => ?_⟩
  · simp only [List.length_append, List.length_singleton, h.rear]
    unfold MAXQSIZE
    omega
  · rw [List.length_append, List.length_singleton]
    unfold MAXQSIZE
    omega
  · rw [List.length_append, List.length_singleton] at hi
    simp only
    rw [h.rear]
    by_cases hlast : i = q.length
    · subst hlast
      rw [Function.update_self, List.getElem_concat_length rfl]
    · have hne : (Q.front + i) % MAXQSIZE ≠ (Q.front + q.length) % MAXQSIZE := by
        intro he
        exact hlast (by have := place_inj (by omega) (by omega) he; omega)
      rw [Function.update_of_ne hne, h.item i (by omega), List.getElem_append_left]

/-- The first element is taken. -/
theorem Rep.take (h : Rep Q (x :: q)) :
    Q.base Q.front = x ∧ Rep { Q with front := (Q.front + 1) % MAXQSIZE } q := by
  have hfront := h.front
  have hroom := h.room
  rw [List.length_cons] at hroom
  have hplace : ∀ i : Nat, ((Q.front + 1) % MAXQSIZE + i) % MAXQSIZE =
      (Q.front + ((i + 1 : Nat) : Int)) % MAXQSIZE := by
    intro i
    unfold MAXQSIZE
    omega
  refine ⟨?_, ⟨?_, ?_, by omega, fun i hi => ?_⟩⟩
  · have h₀ := h.item 0 (by simp)
    rw [show (Q.front + (0 : Nat)) % MAXQSIZE = Q.front by unfold MAXQSIZE at *; omega] at h₀
    exact h₀
  · simp only
    unfold MAXQSIZE
    omega
  · simp only [hplace]
    exact h.rear
  · simp only [hplace]
    exact h.item (i + 1) (by simpa using hi)

/-- From any queue. -/
theorem run_rep (h : Rep Q q) (ops : List Op) : run ops Q = bounded 99 ops q := by
  induction ops generalizing Q q with
  | nil => rfl
  | cons op ops ih =>
    cases op with
    | enQueue e =>
      simp only [run, bounded, enQueue, h.full]
      by_cases hlt : q.length < 99
      · rw [if_neg (not_not.2 hlt), if_pos hlt]
        exact congrArg _ (ih (h.put hlt))
      · rw [if_pos hlt, if_neg hlt]
        exact congrArg _ (ih h)
    | deQueue =>
      simp only [run, bounded, deQueue, h.same]
      cases q with
      | nil => exact congrArg _ (ih h)
      | cons x q =>
        obtain ⟨hx, hq⟩ := h.take
        rw [if_neg (List.cons_ne_nil x q)]
        simp only [hx, List.head?_cons, List.tail_cons, ih hq]
    | queueLength => simp only [run, bounded, h.length, ih h]

/-- **The circular queue is a queue.** Whatever is in the array at the start, every sequence of calls is
answered as a queue for 99 elements answers it. -/
theorem run_eq_bounded (base : Int → QElemType) (ops : List Op) :
    run ops (initQueue base) = bounded 99 ops [] := run_rep (.init base) ops

end LearningNotes.Circular
