import LearningNotes.Lib.Dlist
import LearningNotes.Lib.Runs

/-!
# The job queue of `rwlock.c`

A queue of jobs, linked both ways through pointers in the jobs, under a reader-writer lock. A job
that was removed keeps its pointers, and they are overwritten when it is put in again. The branches
of the three operations are those of the source; on a well-formed queue each comes to what the
list operation of `Lib/Dlist` does, so the queue holds the jobs of a deque (`Op.deque`).

Mirroring notes:
- Every address holds a job, with the thread it is for and pointers that may be anything.
- A dereferenced null pointer has no result.
- `job_insert`, `job_append` and `job_remove` do not look at what the lock functions answer.
  `job_find` does: `rdlock` is the answer to `pthread_rwlock_rdlock`.
-/

namespace LearningNotes.Rwlock

variable {jobs : Nat → Node Nat} {jp a : Nat} {js js' : List Nat}

/-- `struct queue`, and the memory of the jobs. The value of a node is its `j_id`. -/
structure Queue where
  heap : Heap Nat
  q_head : Option Nat
  q_tail : Option Nat

variable {q q' : Queue}

/-- The memory when a queue is made. -/
def memory (jobs : Nat → Node Nat) : Heap Nat := fun a => some (jobs a)

/-- `queue_init`: an empty queue. -/
def queueInit (heap : Heap Nat) : Queue := ⟨heap, none, none⟩

/-- `job_insert`: the job becomes the head. -/
def jobInsert (q : Queue) (jp : Nat) : Option Queue := do
  let heap ← q.heap.setNext jp q.q_head
  let heap ← heap.setPrev jp none
  match q.q_head with
  | some head => do
    let heap ← heap.setPrev head (some jp)
    some ⟨heap, some jp, q.q_tail⟩
  | none => some ⟨heap, some jp, some jp⟩

/-- `job_append`: the job becomes the tail. -/
def jobAppend (q : Queue) (jp : Nat) : Option Queue := do
  let heap ← q.heap.setNext jp none
  let heap ← heap.setPrev jp q.q_tail
  match q.q_tail with
  | some tail => do
    let heap ← heap.setNext tail (some jp)
    some ⟨heap, q.q_head, some jp⟩
  | none => some ⟨heap, some jp, some jp⟩

/-- `job_remove`, with its cases for the head, the tail and the middle. -/
def jobRemove (q : Queue) (jp : Nat) : Option Queue := do
  let n ← q.heap jp
  if q.q_head = some jp then
    -- the only job
    if q.q_tail = some jp then some ⟨q.heap, n.next, none⟩
    else
      let next ← n.next
      let heap ← q.heap.setPrev next n.prev
      some ⟨heap, n.next, q.q_tail⟩
  else if q.q_tail = some jp then
    let prev ← n.prev
    let heap ← q.heap.setNext prev n.next
    some ⟨heap, q.q_head, n.prev⟩
  else
    let prev ← n.prev
    let heap ← q.heap.setNext prev n.next
    let n ← heap jp
    let next ← n.next
    let heap ← heap.setPrev next n.prev
    some ⟨heap, q.q_head, q.q_tail⟩

/-- The loop of `job_find`, at most so many rounds. -/
def findFrom (heap : Heap Nat) (id : Nat) : Nat → Option Nat → Option (Option Nat)
  | 0, _ => none
  | _ + 1, none => some none
  | rounds + 1, some jp => do
    let n ← heap jp
    if n.val = id then some (some jp) else findFrom heap id rounds n.next

/-- `job_find`: from the head on, the first job with the thread's id. -/
def jobFind (rounds : Nat) (rdlock : Int) (q : Queue) (id : Nat) : Option (Option Nat) :=
  if rdlock ≠ 0 then some none else findFrom q.heap id rounds q.q_head

/-! ## Operations on a well-formed queue -/

/-- The jobs with the threads they are for. -/
def entries (jobs : Nat → Node Nat) (js : List Nat) : List (Nat × Nat) :=
  js.map fun a => (a, (jobs a).val)

/-- The queue has these jobs, in this order, and no job has got another thread. -/
structure Holds (jobs : Nat → Node Nat) (q : Queue) (js : List Nat) : Prop where
  vals : ∀ a, ∃ n, q.heap a = some n ∧ n.val = (jobs a).val
  list : Dlist.Is ⟨q.heap, q.q_head, q.q_tail⟩ (entries jobs js)

@[simp] theorem entries_addrs (jobs : Nat → Node Nat) (js : List Nat) :
    (entries jobs js).map Prod.fst = js := by
  rw [entries, List.map_map]
  exact List.map_id js

/-- The jobs keep their threads when the heap changes at the jobs of the new queue only. -/
theorem Holds.of_list {heap : Heap Nat} {as : List Nat} (h : Holds jobs q js)
    (hlist : Dlist.Is ⟨heap, q'.q_head, q'.q_tail⟩ (entries jobs js'))
    (hq : q'.heap = heap) (hsame : Dlist.SameOff q.heap heap as)
    (has : ∀ a ∈ as, a ∈ js' ∨ heap a = q.heap a) : Holds jobs q' js' := by
  subst hq
  refine ⟨fun a => ?_, hlist⟩
  have hold : q'.heap a = q.heap a → ∃ n, q'.heap a = some n ∧ n.val = (jobs a).val := by
    intro heq
    rw [heq]
    exact h.vals a
  by_cases ha : a ∈ as
  · rcases has a ha with hmem | heq
    · obtain ⟨l, r, hsplit⟩ := List.append_of_mem hmem
      have hnode := hlist.chain.node (entries jobs l) a (jobs a).val (entries jobs r)
        (by rw [hsplit]; simp [entries])
      exact ⟨_, hnode, rfl⟩
    · exact hold heq
  · exact hold (hsame a ha)

/-- A new queue is empty. -/
theorem Holds.init (jobs : Nat → Node Nat) : Holds jobs (queueInit (memory jobs)) [] :=
  ⟨fun a => ⟨jobs a, rfl, rfl⟩, .nil _, rfl, rfl⟩

/-- The two pointers of the new job are set in either order. -/
theorem jobInsert_eq {n : Node Nat} (hn : q.heap jp = some n) :
    jobInsert q jp = (Dlist.pushFront ⟨q.heap, q.q_head, q.q_tail⟩ jp).map
      fun d => ⟨d.heap, d.head, d.tail⟩ := by
  unfold jobInsert Dlist.pushFront
  simp only [Option.bind_eq_bind]
  rw [Heap.setNext_eq hn, Heap.setPrev_eq hn, Option.bind_some, Option.bind_some,
    Heap.setPrev_eq (Heap.set_self ..), Heap.setNext_eq (Heap.set_self ..), Option.bind_some,
    Option.bind_some]
  have hset : (q.heap.set jp { n with next := q.q_head }).set jp ⟨q.q_head, none, n.val⟩
      = (q.heap.set jp { n with prev := none }).set jp ⟨q.q_head, none, n.val⟩ := by
    unfold Heap.set
    rw [Function.update_idem, Function.update_idem]
  dsimp only
  rw [hset]
  cases q.q_head with
  | none => rfl
  | some head =>
    dsimp only
    rw [Option.map_bind]
    rfl

/-- `job_insert` puts the job in front. -/
theorem jobInsert_holds (h : Holds jobs q js) (hjp : jp ∉ js) :
    ∃ q', jobInsert q jp = some q' ∧ Holds jobs q' (jp :: js) := by
  obtain ⟨n, hn, hval⟩ := h.vals jp
  obtain ⟨d, hd, hlist, hsame⟩ := Dlist.pushFront_is h.list hn (by rwa [entries_addrs])
  refine ⟨⟨d.heap, d.head, d.tail⟩, ?_, ?_⟩
  · rw [jobInsert_eq hn, hd]
    rfl
  · rw [hval] at hlist
    apply h.of_list hlist rfl hsame
    intro a ha
    rw [entries_addrs] at ha
    exact .inl ha

/-- `j_next` is null before the job is linked behind the last one. -/
theorem jobAppend_eq : jobAppend q jp = (q.heap.setNext jp none).bind fun heap =>
    (Dlist.pushBack ⟨heap, q.q_head, q.q_tail⟩ jp).map fun d => ⟨d.heap, d.head, d.tail⟩ := by
  unfold jobAppend Dlist.pushBack
  simp only [Option.bind_eq_bind]
  congr 1
  funext heap
  rw [Option.map_bind]
  congr 1
  funext heap'
  dsimp only [Function.comp_apply]
  cases q.q_tail with
  | none => rfl
  | some tail =>
    dsimp only
    rw [Option.map_bind]
    rfl

/-- `job_append` puts the job behind the last one. -/
theorem jobAppend_holds (h : Holds jobs q js) (hjp : jp ∉ js) :
    ∃ q', jobAppend q jp = some q' ∧ Holds jobs q' (js ++ [jp]) := by
  obtain ⟨n, hn, hval⟩ := h.vals jp
  have hfresh : jp ∉ (entries jobs js).map Prod.fst := by rwa [entries_addrs]
  have hlist : Dlist.Is ⟨q.heap.set jp { n with next := none }, q.q_head, q.q_tail⟩ (entries jobs js) := by
    refine ⟨h.list.chain.congr fun a ha => Heap.set_of_ne _ ?_, h.list.head, h.list.tail⟩
    intro haj
    exact hfresh (haj ▸ ha)
  obtain ⟨d, hd, hlist', hsame⟩ := Dlist.pushBack_is hlist (Heap.set_self ..) rfl hfresh
  refine ⟨⟨d.heap, d.head, d.tail⟩, ?_, ?_⟩
  · rw [jobAppend_eq, Heap.setNext_eq hn, Option.bind_some, hd]
    rfl
  · have hentries : entries jobs js ++ [(jp, n.val)] = entries jobs (js ++ [jp]) := by
      rw [hval]
      simp [entries]
    rw [hentries] at hlist'
    rw [entries_addrs] at hsame
    have hsame' : Dlist.SameOff q.heap d.heap (jp :: js) := by
      intro b hb
      exact (hsame b hb).trans (Heap.set_of_ne _ fun hbj => hb (hbj ▸ List.mem_cons_self ..))
    apply h.of_list hlist' rfl hsame'
    intro a ha
    rw [List.mem_append, List.mem_singleton]
    rcases List.mem_cons.mp ha with rfl | ha
    · exact .inl (.inr rfl)
    · exact .inl (.inl ha)

/-- In front of the job there is another one: it is not the head. -/
theorem head_ne {l r : List (Nat × Nat)} {v : Nat}
    (h : Dlist.Is ⟨q.heap, q.q_head, q.q_tail⟩ (l ++ (jp, v) :: r)) (hl : l ≠ []) :
    q.q_head ≠ some jp := by
  intro hhead
  have hfirst : first (l ++ (jp, v) :: r) = some jp := h.head.symm.trans hhead
  have hnodup := h.chain.nodup
  rw [List.map_append, List.nodup_append] at hnodup
  cases l with
  | nil => exact hl rfl
  | cons e l =>
    have he : e.1 = jp := Option.some.inj hfirst
    exact hnodup.2.2 jp (he ▸ List.mem_cons_self ..) jp (List.mem_cons_self ..) rfl

/-- Behind the job there is another one: it is not the tail. -/
theorem tail_ne {l r : List (Nat × Nat)} {v : Nat}
    (h : Dlist.Is ⟨q.heap, q.q_head, q.q_tail⟩ (l ++ (jp, v) :: r)) (hr : r ≠ []) :
    q.q_tail ≠ some jp := by
  intro htail
  have hlast : last (l ++ (jp, v) :: r) = some jp := h.tail.symm.trans htail
  have hnodup := h.chain.nodup
  rw [List.map_append, List.map_cons, List.nodup_append, List.nodup_cons] at hnodup
  rcases List.eq_nil_or_concat r with rfl | ⟨r, ⟨b, w⟩, hr'⟩
  · exact hr rfl
  · rw [List.concat_eq_append] at hr'
    subst hr'
    rw [← List.cons_append, ← List.append_assoc, last_concat] at hlast
    exact hnodup.2.1.1 (Option.some.inj hlast ▸ by simp)

/-- The four branches of `job_remove` come to the same, and to what unlinking a node always is. -/
theorem jobRemove_eq {l r : List (Nat × Nat)} {v : Nat}
    (h : Dlist.Is ⟨q.heap, q.q_head, q.q_tail⟩ (l ++ (jp, v) :: r)) :
    jobRemove q jp = (Dlist.erase ⟨q.heap, q.q_head, q.q_tail⟩ jp).map
      fun d => ⟨d.heap, d.head, d.tail⟩ := by
  have hnode : q.heap jp = some ⟨first r, last l, v⟩ := h.chain.node l jp v r rfl
  have hnodup := h.chain.nodup
  rw [List.map_append, List.map_cons, List.nodup_append, List.nodup_cons] at hnodup
  obtain ⟨-, ⟨hjr, -⟩, hdis⟩ := hnodup
  have hjl : jp ∉ l.map Prod.fst := fun h => hdis jp h jp (List.mem_cons_self ..) rfl
  unfold jobRemove Dlist.erase
  simp only [Option.bind_eq_bind]
  rw [hnode, Option.bind_some, Option.bind_some]
  rcases List.eq_nil_or_concat l with rfl | ⟨l, ⟨b, w⟩, hl⟩
  · -- the first node
    rw [if_pos (show q.q_head = some jp from h.head)]
    cases r with
    | nil =>
      rw [if_pos (show q.q_tail = some jp from h.tail)]
      dsimp only [Dlist.closeNext, first_nil, Option.bind_some]
      rw [hnode]
      rfl
    | cons e r =>
      obtain ⟨c, u⟩ := e
      have hc : q.heap c = some ⟨first r, some jp, u⟩ := h.chain.node [(jp, v)] c u r rfl
      have hcj : jp ≠ c := fun hcj => hjr (hcj ▸ List.mem_cons_self ..)
      rw [if_neg (tail_ne h (by simp))]
      dsimp only [Dlist.closeNext, first_cons, Option.bind_some]
      rw [Heap.setPrev_eq hc, Option.bind_some, Option.map_some, Option.bind_some]
      dsimp only
      rw [Heap.set_of_ne _ hcj, hnode]
      rfl
  · rw [List.concat_eq_append] at hl
    subst hl
    have hb : q.heap b = some ⟨some jp, last l, w⟩ :=
      h.chain.node l b w ((jp, v) :: r) (by simp)
    have hbj : jp ≠ b := fun hbj => hjl (hbj ▸ by simp)
    -- it has a predecessor `b`
    rw [if_neg (head_ne h (by simp))]
    cases r with
    | nil =>
      have htail : q.q_tail = some jp := h.tail.trans last_concat
      rw [if_pos htail, last_concat]
      dsimp only [Dlist.closeNext, first_nil, Option.bind_some]
      rw [Heap.setNext_eq hb, Option.bind_some, hnode, Option.bind_some]
      dsimp only [Dlist.closePrev, last_concat]
      rw [last_concat]
      dsimp only
      rw [Heap.setNext_eq hb]
      rfl
    | cons e r =>
      obtain ⟨c, u⟩ := e
      have hc := h.chain.node (l ++ [(b, w)] ++ [(jp, v)]) c u r (by simp)
      rw [last_concat] at hc
      have hcj : jp ≠ c := fun hcj => hjr (hcj ▸ List.mem_cons_self ..)
      have hbc : b ≠ c := fun hbc => hdis b (by simp) c (by simp) hbc
      rw [if_neg (tail_ne h (by simp)), last_concat]
      dsimp only [Dlist.closeNext, first_cons, Option.bind_some]
      rw [Heap.setNext_eq hb, Option.bind_some, Heap.set_of_ne _ hbj, hnode, Heap.setPrev_eq hc,
        Option.map_some, Option.bind_some, Option.bind_some]
      dsimp only [first_cons, Option.bind_some]
      rw [last_concat, Heap.setPrev_eq ((Heap.set_of_ne _ hbc.symm).trans hc), Option.bind_some,
        Heap.set_of_ne _ hcj, hnode, Option.bind_some]
      dsimp only [Dlist.closePrev]
      rw [last_concat]
      dsimp only
      rw [Heap.setNext_eq ((Heap.set_of_ne _ hbc).trans hb), Option.map_some, Option.map_some]
      unfold Heap.set
      rw [Function.update_comm hbc]
      rfl

/-- `job_remove` takes the job out, wherever it is. -/
theorem jobRemove_holds (h : Holds jobs q js) (hjp : jp ∈ js) :
    ∃ q', jobRemove q jp = some q' ∧ Holds jobs q' (js.erase jp) := by
  have hnodup : js.Nodup := by
    have := h.list.chain.nodup
    rwa [entries_addrs] at this
  obtain ⟨l, r, rfl⟩ := List.append_of_mem hjp
  have hjl : jp ∉ l := by
    rw [List.nodup_append] at hnodup
    intro hl
    exact hnodup.2.2 jp hl jp (List.mem_cons_self ..) rfl
  have hsplit : entries jobs (l ++ jp :: r) = entries jobs l ++ (jp, (jobs jp).val) :: entries jobs r := by
    simp [entries]
  have hlist := h.list
  rw [hsplit] at hlist
  obtain ⟨d, hd, hlist', hself, hsame⟩ := Dlist.erase_is hlist
  have hjoin : entries jobs l ++ entries jobs r = entries jobs (l ++ r) := by simp [entries]
  rw [hjoin] at hlist' hsame
  rw [entries_addrs] at hsame
  refine ⟨⟨d.heap, d.head, d.tail⟩, ?_, ?_⟩
  · rw [jobRemove_eq hlist, hd]
    rfl
  · rw [List.erase_append_right _ hjl, List.erase_cons_head]
    exact h.of_list hlist' rfl hsame fun a ha => .inl ha

/-! ## Runs -/

inductive Op where
  | insert (jp : Nat)
  | append (jp : Nat)
  | remove (jp : Nat)
  deriving DecidableEq

def Op.act : Op → Queue → Option Queue
  | insert jp, q => jobInsert q jp
  | append jp, q => jobAppend q jp
  | remove jp, q => jobRemove q jp

/-- The same on a deque of jobs. A job that is in it cannot be put in, and one that is not cannot be
removed. -/
def Op.deque : Op → List Nat → Option (List Nat)
  | insert jp, js => if jp ∈ js then none else some (jp :: js)
  | append jp, js => if jp ∈ js then none else some (js ++ [jp])
  | remove jp, js => if jp ∈ js then some (js.erase jp) else none

/-- Any of the three operations keeps the queue linked. -/
theorem Op.act_holds {op : Op} (h : Holds jobs q js) (hop : op.deque js = some js') :
    ∃ q', op.act q = some q' ∧ Holds jobs q' js' := by
  cases op with
  | insert jp =>
    have hop : (if jp ∈ js then none else some (jp :: js)) = some js' := hop
    by_cases hjp : jp ∈ js
    · rw [if_pos hjp] at hop
      cases hop
    · rw [if_neg hjp] at hop
      exact Option.some.inj hop ▸ jobInsert_holds h hjp
  | append jp =>
    have hop : (if jp ∈ js then none else some (js ++ [jp])) = some js' := hop
    by_cases hjp : jp ∈ js
    · rw [if_pos hjp] at hop
      cases hop
    · rw [if_neg hjp] at hop
      exact Option.some.inj hop ▸ jobAppend_holds h hjp
  | remove jp =>
    have hop : (if jp ∈ js then some (js.erase jp) else none) = some js' := hop
    by_cases hjp : jp ∈ js
    · rw [if_pos hjp] at hop
      exact Option.some.inj hop ▸ jobRemove_holds h hjp
    · rw [if_neg hjp] at hop
      cases hop

/-- Any sequence of operations keeps the queue linked. -/
theorem perform_holds : ∀ (ops : List Op) {q : Queue} {js js' : List Nat}, Holds jobs q js →
    perform Op.deque ops js = some js' → ∃ q', perform Op.act ops q = some q' ∧ Holds jobs q' js'
  | [], q, js, js', h, hs => by
    cases hs
    exact ⟨q, rfl, h⟩
  | op :: ops, q, js, js', h, hs => by
    obtain ⟨js₁, hop, hs⟩ := Option.bind_eq_some_iff.mp hs
    obtain ⟨q₁, hq₁, h₁⟩ := Op.act_holds h hop
    obtain ⟨q', hq', h'⟩ := perform_holds ops h₁ hs
    exact ⟨q', Option.bind_eq_some_iff.mpr ⟨q₁, hq₁, hq'⟩, h'⟩

/-- `job_find` goes through the queue from the head. -/
theorem findFrom_eq {heap : Heap Nat} (hvals : ∀ a, ∃ n, heap a = some n ∧ n.val = (jobs a).val)
    (id : Nat) : ∀ (js : List Nat) (p : Option Nat) (rounds : Nat), Follows Node.next heap p js →
      js.length < rounds → findFrom heap id rounds p = some (js.find? fun a => (jobs a).val = id)
  | _, _, 0, _, hr => absurd hr (Nat.not_lt_zero _)
  | [], p, rounds + 1, h, _ => by
    have hp : p = none := h
    rw [hp]
    rfl
  | a :: js, p, rounds + 1, h, hr => by
    obtain ⟨hp, n, hn, h⟩ := h
    obtain ⟨n', hn', hval⟩ := hvals a
    have hnn : n = n' := Option.some.inj (hn.symm.trans hn')
    rw [hp]
    unfold findFrom
    simp only [hn, Option.bind_eq_bind, Option.bind_some, List.find?_cons]
    by_cases hid : n.val = id
    · have hid' : (jobs a).val = id := by rw [← hval, ← hnn, hid]
      rw [if_pos hid, decide_eq_true hid']
    · have hid' : (jobs a).val ≠ id := by rw [← hval, ← hnn]; exact hid
      rw [if_neg hid, decide_eq_false hid']
      exact findFrom_eq hvals id js _ rounds h (by rw [List.length_cons] at hr; omega)

/-- After every sequence of operations that a deque of jobs allows, the queue is linked forwards and
backwards through the jobs of the deque, and `job_find` returns the first one for the thread, if
there is one. When it does not get the lock it returns the null pointer. -/
theorem perform_deque (jobs : Nat → Node Nat) (ops : List Op) (js : List Nat)
    (h : perform Op.deque ops [] = some js) :
    ∃ q, perform Op.act ops (queueInit (memory jobs)) = some q ∧
      (q.q_head = none ↔ q.q_tail = none) ∧
      Follows Node.next q.heap q.q_head js ∧ Follows Node.prev q.heap q.q_tail js.reverse ∧
      ∀ id rdlock rounds, js.length < rounds → jobFind rounds rdlock q id =
        some (if rdlock = 0 then js.find? fun a => (jobs a).val = id else none) := by
  obtain ⟨q, hq, hh⟩ := perform_holds ops (.init jobs) h
  have hnext := hh.list.chain.follows_next
  have hprev := hh.list.chain.follows_prev
  rw [← hh.list.head, entries_addrs] at hnext
  rw [← hh.list.tail, entries_addrs] at hprev
  refine ⟨q, hq, ?_, hnext, hprev, ?_⟩
  · cases js with
    | nil => exact ⟨fun _ => hprev, fun _ => hnext⟩
    | cons a js =>
      have hhead : q.q_head = some a := hnext.1
      have htail : q.q_tail = last (entries jobs (a :: js)) := hh.list.tail
      rw [hhead, htail]
      constructor
      · exact fun hn => nomatch hn
      · intro hn
        rw [last, Option.map_eq_none_iff, List.getLast?_eq_none_iff] at hn
        exact absurd hn (by simp [entries])
  · intro id rdlock rounds hr
    unfold jobFind
    by_cases hlock : rdlock = 0
    · rw [if_neg (not_not.mpr hlock), if_pos hlock]
      exact findFrom_eq hh.vals id js q.q_head rounds hnext hr
    · rw [if_pos hlock, if_neg hlock]

/-- A job is removed from between two others and put in again at the head. -/
theorem perform_deque_again : ∃ q,
    perform Op.act [.insert 1, .append 2, .append 3, .remove 2, .insert 2]
      (queueInit (memory fun a => ⟨some a, some a, a⟩)) = some q ∧
    (q.q_head = none ↔ q.q_tail = none) ∧
    Follows Node.next q.heap q.q_head [2, 1, 3] ∧ Follows Node.prev q.heap q.q_tail [3, 1, 2] ∧
    ∀ id rdlock rounds, 3 < rounds → jobFind rounds rdlock q id =
      some (if rdlock = 0 then [2, 1, 3].find? fun a => a = id else none) :=
  perform_deque _ _ [2, 1, 3] (by decide)

end LearningNotes.Rwlock
