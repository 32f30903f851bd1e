import LearningNotes.Lib.Dlist

/-!
# The list of workers

`add_worker`, `client_cleanup` and `kill_workers` of `printd.c`. Each of them works on the list
under `workerlock`, so a call is one step.

`add_worker` sets `workers` only when the list is empty; otherwise it links the old head back to
the new entry and leaves `workers` where it is, where `replace_job` sets `jobhead` in both cases.
So the entry of a client that comes while another one is being served is not in the list, and the
list is right exactly as long as there is one client at a time (`workers_alone`).
`client_cleanup` takes an entry out of a list of any length (`Listed.cleanup`).

Mirroring notes:
- `client_cleanup` and `kill_workers` walk the list until they come to its end or to the entry.
  They take at most as many steps as there have been entries: a longer walk goes in circles.
- A call that dereferences freed memory has no result here.
-/

namespace LearningNotes.Printd

/-- `struct worker_thread`, without its pointers. -/
structure Worker where
  tid : Nat
  sockfd : Int
  deriving DecidableEq

/-- The list; `count` is how many entries there have been, and `closed` are the sockets that
`client_cleanup` has closed. -/
structure Workers where
  heap : Heap Worker
  workers : Option Nat
  count : Nat
  closed : List Int

/-- `add_worker`; `malloc` has returned `wtp`. -/
def addWorker (w : Workers) (wtp : Nat) (x : Worker) : Option Workers :=
  let heap := w.heap.set wtp { next := w.workers, prev := none, val := x }
  match w.workers with
  | none => some { w with heap := heap, workers := some wtp, count := w.count + 1 }
  | some b => (heap.setPrev b (some wtp)).map fun heap =>
    { w with heap := heap, count := w.count + 1 }

/-- The loop that looks for the entry of a thread, from the pointer on. -/
def findWorker (h : Heap Worker) (tid : Nat) : Nat → Option Nat → Option (Option Nat)
  | _, none => some none
  | 0, some _ => none
  | fuel + 1, some wtp =>
    match h wtp with
    | none => none
    | some n => if n.val.tid = tid then some (some wtp) else findWorker h tid fuel n.next

/-- What `client_cleanup` does to the links when it has found the entry. -/
def unlinkWorker (w : Workers) (wtp : Nat) : Option Workers := do
  let n ← w.heap wtp
  let heap ← match n.next with
    | some b => w.heap.setPrev b n.prev
    | none => some w.heap
  let n ← heap wtp
  match n.prev with
  | some b => (heap.setNext b n.next).map fun heap => { w with heap := heap }
  | none => some { w with heap := heap, workers := n.next }

/-- `client_cleanup` -/
def clientCleanup (w : Workers) (tid : Nat) : Option Workers := do
  match ← findWorker w.heap tid w.count w.workers with
  | none => some w
  | some wtp =>
    let w ← unlinkWorker w wtp
    let n ← w.heap wtp
    some { w with heap := w.heap.free wtp, closed := w.closed ++ [n.val.sockfd] }

/-- The threads that `kill_workers` cancels, from the pointer on. -/
def killFrom (h : Heap Worker) : Nat → Option Nat → Option (List Nat)
  | _, none => some []
  | 0, some _ => none
  | fuel + 1, some wtp =>
    match h wtp with
    | none => none
    | some n => (killFrom h fuel n.next).map (n.val.tid :: ·)

/-- `kill_workers` -/
def killWorkers (w : Workers) : Option (List Nat) := killFrom w.heap w.count w.workers

/-! ## Calls -/

/-- What the client threads call. -/
inductive WorkerCall where
  | add (wtp : Nat) (x : Worker)
  | cleanup (tid : Nat)

/-- One call. -/
def workerStep (w : Workers) : WorkerCall → Option Workers
  | .add wtp x => addWorker w wtp x
  | .cleanup tid => clientCleanup w tid

/-- The threads that have been added and not cleaned up yet, the last one first. -/
def live (l : List Worker) : WorkerCall → List Worker
  | .add _ x => x :: l
  | .cleanup tid => l.filter (·.tid ≠ tid)

/-- `malloc` returns memory that is free, and no two threads that exist have the same id. -/
def CallOk (w : Workers) (l : List Worker) : WorkerCall → Prop
  | .add wtp x => w.heap wtp = none ∧ ∀ y ∈ l, y.tid ≠ x.tid
  | .cleanup _ => True

/-- No worker yet. -/
def noWorkers : Workers := ⟨fun _ => none, none, 0, []⟩

/-- The states after calls that meet the condition `C`, with the threads that are live. -/
inductive Called (C : List Worker → WorkerCall → Prop) : Workers → List Worker → Prop where
  | init : Called C noWorkers []
  | step {w w' : Workers} {l : List Worker} {c : WorkerCall} (h : Called C w l) (hok : CallOk w l c)
      (hc : C l c) (hs : workerStep w c = some w') : Called C w' (live l c)

/-- The list from `workers` on has exactly one entry for each live thread, no freed one, and its
links agree. -/
structure Listed (w : Workers) (l : List Worker) (es : List (Nat × Worker)) : Prop where
  chain : Chain w.heap es
  head : w.workers = first es
  all : (es.map Prod.snd).Perm l

/-- The list, and what it is for. -/
def WorkersOk (w : Workers) (l : List Worker) : Prop :=
  (∃ es, Listed w l es) ∧
    (∃ tids, killWorkers w = some tids ∧ tids.Perm (l.map Worker.tid)) ∧
    ∀ x ∈ l, ∃ w' wtp n, clientCleanup w x.tid = some w' ∧ w.heap wtp = some n ∧ n.val = x ∧
      w'.heap wtp = none ∧ w'.closed = w.closed ++ [x.sockfd]

variable {w w' : Workers} {l : List Worker} {es : List (Nat × Worker)} {x : Worker} {tid wtp : Nat}
  {C : List Worker → WorkerCall → Prop}

/-! ## `client_cleanup` on a list of any length -/

/-- The loop goes past the entries of other threads, a round for each. -/
theorem findWorker_skip {h : Heap Worker} {r : List (Nat × Worker)} {fuel : Nat} :
    ∀ (m pre : List (Nat × Worker)), Chain h (pre ++ (m ++ r)) → (∀ e ∈ m, e.2.tid ≠ tid) →
      findWorker h tid (fuel + m.length) (first (m ++ r)) = findWorker h tid fuel (first r) := by
  intro m
  induction m with
  | nil => exact fun _ _ _ => rfl
  | cons e m ih =>
    obtain ⟨c, y⟩ := e
    intro pre hc hne
    have hn := hc.node pre c y (m ++ r) rfl
    have hround : findWorker h tid (fuel + m.length + 1) (some c) =
        findWorker h tid (fuel + m.length) (first (m ++ r)) := by
      rw [findWorker, hn]
      exact if_neg (hne (c, y) List.mem_cons_self)
    refine hround.trans (ih (pre ++ [(c, y)]) ?_ fun e he => hne e (List.mem_cons_of_mem _ he))
    rw [List.append_assoc]
    exact hc

/-- The loop finds the entry. -/
theorem findWorker_mem {h : Heap Worker} {b : Nat} {r : List (Nat × Worker)}
    (m pre : List (Nat × Worker)) (fuel : Nat) (hc : Chain h (pre ++ (m ++ (b, x) :: r)))
    (hne : ∀ e ∈ m, e.2.tid ≠ x.tid) (hlen : m.length < fuel) :
    findWorker h x.tid fuel (first (m ++ (b, x) :: r)) = some (some b) := by
  obtain ⟨k, rfl⟩ : ∃ k, fuel = k + 1 + m.length := ⟨fuel - 1 - m.length, by omega⟩
  rw [findWorker_skip m pre hc hne]
  have hn := hc.node (pre ++ m) b x r (by rw [List.append_assoc])
  show findWorker h x.tid (k + 1) (some b) = _
  unfold findWorker
  rw [hn]
  exact if_pos rfl

/-- The loop comes to the end when there is no entry. -/
theorem findWorker_none {h : Heap Worker} (m pre : List (Nat × Worker)) (fuel : Nat)
    (hc : Chain h (pre ++ m)) (hne : ∀ e ∈ m, e.2.tid ≠ tid) (hlen : m.length ≤ fuel) :
    findWorker h tid fuel (first m) = some none := by
  obtain ⟨k, rfl⟩ : ∃ k, fuel = k + m.length := ⟨fuel - m.length, by omega⟩
  have hskip : findWorker h tid (k + m.length) (first (m ++ [])) = findWorker h tid k (first []) :=
    findWorker_skip m pre (by rwa [List.append_nil]) hne
  rw [List.append_nil] at hskip
  rw [hskip]
  cases k <;> rfl

/-- `kill_workers` comes along all entries. -/
theorem killFrom_chain {h : Heap Worker} :
    ∀ (m pre : List (Nat × Worker)) (fuel : Nat), Chain h (pre ++ m) → m.length ≤ fuel →
      killFrom h fuel (first m) = some (m.map fun e => e.2.tid) := by
  intro m
  induction m with
  | nil =>
    intro pre fuel _ _
    cases fuel <;> rfl
  | cons e m ih =>
    obtain ⟨c, y⟩ := e
    intro pre fuel hc hlen
    obtain ⟨fuel, rfl⟩ : ∃ k, fuel = k + 1 := ⟨fuel - 1, by rw [List.length_cons] at hlen; omega⟩
    have hn := hc.node pre c y m rfl
    show killFrom h (fuel + 1) (some c) = _
    unfold killFrom
    rw [hn]
    dsimp only
    rw [ih (pre ++ [(c, y)]) fuel (by rw [List.append_assoc]; exact hc)
      (by rw [List.length_cons] at hlen; omega)]
    rfl

/-- Taking an entry out is what `Dlist.erase` does, but for the tail. -/
theorem unlinkWorker_eq (w : Workers) (wtp : Nat) (tail : Option Nat) :
    unlinkWorker w wtp = (Dlist.erase ⟨w.heap, w.workers, tail⟩ wtp).map fun d =>
      { w with heap := d.heap, workers := d.head } := by
  unfold unlinkWorker Dlist.erase
  simp only [Option.bind_eq_bind]
  cases hn : w.heap wtp with
  | none => rfl
  | some n =>
    -- the rest is the same for every heap
    have hprev : ∀ (heap : Heap Worker) (tail : Option Nat),
        ((heap wtp).bind fun n => match n.prev with
          | some b => (heap.setNext b n.next).map fun heap => { w with heap := heap }
          | none => some { w with heap := heap, workers := n.next }) =
        ((heap wtp).bind fun n => Dlist.closePrev ⟨heap, w.workers, tail⟩ n).map fun d =>
          { w with heap := d.heap, workers := d.head } := by
      intro heap tail
      cases heap wtp with
      | none => rfl
      | some n =>
        rw [Option.bind_some, Option.bind_some]
        unfold Dlist.closePrev
        cases n.prev with
        | none => rfl
        | some b =>
          dsimp only
          cases heap.setNext b n.next <;> rfl
    simp only [Option.bind_some, hn]
    unfold Dlist.closeNext
    cases hnext : n.next with
    | none =>
      have hp := hprev w.heap n.prev
      simp only [hn, Option.bind_some, hnext] at hp ⊢
      exact hp
    | some b =>
      dsimp only
      cases w.heap.setPrev b n.prev with
      | none => rfl
      | some heap => exact hprev heap tail

theorem Listed.length (h : Listed w l es) : es.length = l.length := by
  rw [← h.all.length_eq, List.length_map]

/-- `kill_workers` cancels every live thread. -/
theorem Listed.kill (h : Listed w l es) (hcount : l.length ≤ w.count) :
    ∃ tids, killWorkers w = some tids ∧ tids.Perm (l.map Worker.tid) := by
  refine ⟨_, ?_, h.all.map Worker.tid⟩
  unfold killWorkers
  rw [h.head, killFrom_chain es [] w.count h.chain (h.length ▸ hcount), List.map_map]
  rfl

/-- **A thread finds its entry**, closes its socket and frees the entry, and the other threads stay
in the list. -/
theorem Listed.cleanup (h : Listed w l es) (hnodup : (l.map Worker.tid).Nodup)
    (hcount : l.length ≤ w.count) (hx : x ∈ l) :
    ∃ w' b n es', clientCleanup w x.tid = some w' ∧ w.heap b = some n ∧ n.val = x ∧
      w'.heap b = none ∧ w'.closed = w.closed ++ [x.sockfd] ∧ w'.count = w.count ∧
      Listed w' (l.filter (·.tid ≠ x.tid)) es' := by
  obtain ⟨⟨b, y⟩, he, rfl⟩ := List.mem_map.mp (h.all.mem_iff.mpr hx)
  obtain ⟨m, r, rfl⟩ := List.append_of_mem he
  have hn := h.chain.node m b y r rfl
  have htids : ((m ++ (b, y) :: r).map fun e => e.2.tid).Nodup := by
    have hp := (h.all.map Worker.tid).nodup_iff.mpr hnodup
    rwa [List.map_map] at hp
  rw [List.map_append, List.map_cons, List.nodup_append, List.nodup_cons] at htids
  obtain ⟨-, ⟨hr, -⟩, hm⟩ := htids
  have hmne : ∀ e ∈ m, e.2.tid ≠ y.tid := by
    intro e he heq
    exact hm _ (List.mem_map_of_mem he) _ List.mem_cons_self heq
  have hrne : ∀ e ∈ r, e.2.tid ≠ y.tid := by
    intro e he heq
    exact hr (heq ▸ List.mem_map_of_mem (f := fun e : Nat × Worker => e.2.tid) he)
  -- the entry is found, as no other one has this thread id
  have hfind : findWorker w.heap y.tid w.count w.workers = some (some b) := by
    rw [h.head]
    refine findWorker_mem m [] w.count h.chain hmne ?_
    have hlen := h.length
    rw [List.length_append, List.length_cons] at hlen
    omega
  obtain ⟨d, hd, his, hsame, -⟩ := @Dlist.erase_is _ ⟨w.heap, w.workers, last (m ++ (b, y) :: r)⟩
    m r b y ⟨h.chain, h.head, rfl⟩
  have hunlink : unlinkWorker w b = some { w with heap := d.heap, workers := d.head } := by
    rw [unlinkWorker_eq w b (last (m ++ (b, y) :: r)), hd]
    rfl
  have hdb : d.heap b = some ⟨first r, last m, y⟩ := hsame.trans hn
  refine ⟨{ w with
      heap := d.heap.free b, workers := d.head, closed := w.closed ++ [y.sockfd] },
    b, _, m ++ r, ?_, hn, rfl, Heap.free_self .., rfl, rfl, ?_, his.head, ?_⟩
  · unfold clientCleanup
    simp only [hfind, hunlink, hdb, Option.bind_eq_bind, Option.bind_some]
  · refine his.chain.congr fun a ha => Heap.free_of_ne fun hab => ?_
    -- the node that is freed is not in the list any more
    have hnodup' := h.chain.nodup
    rw [List.map_append, List.map_cons, List.nodup_append, List.nodup_cons] at hnodup'
    rw [List.map_append] at ha
    rcases List.mem_append.mp ha with ha | ha
    · exact hnodup'.2.2 a ha b List.mem_cons_self hab
    · exact hnodup'.2.1.1 (hab ▸ ha)
  · have hfilter : ((m ++ (b, y) :: r).map Prod.snd).filter (·.tid ≠ y.tid) =
        (m ++ r).map Prod.snd := by
      rw [List.map_append, List.filter_append, List.map_cons, List.filter_cons_of_neg (by simp),
        List.map_append]
      congr 1
      · refine List.filter_eq_self.mpr fun z hz => ?_
        obtain ⟨e, he, rfl⟩ := List.mem_map.mp hz
        exact decide_eq_true (hmne e he)
      · refine List.filter_eq_self.mpr fun z hz => ?_
        obtain ⟨e, he, rfl⟩ := List.mem_map.mp hz
        exact decide_eq_true (hrne e he)
    exact hfilter ▸ h.all.filter _

/-- A thread that is not in the list changes nothing. -/
theorem Listed.cleanup_none (h : Listed w l es) (hcount : l.length ≤ w.count)
    (hx : ∀ y ∈ l, y.tid ≠ tid) : clientCleanup w tid = some w := by
  have hfind : findWorker w.heap tid w.count w.workers = some none := by
    rw [h.head]
    refine findWorker_none es [] w.count h.chain (fun e he => ?_) (h.length ▸ hcount)
    exact hx e.2 (h.all.mem_iff.mp (List.mem_map_of_mem he))
  unfold clientCleanup
  simp only [hfind, Option.bind_eq_bind, Option.bind_some]

/-! ## `add_worker` -/

/-- The first entry. -/
theorem Listed.add (h : Listed w [] es) :
    ∃ w' es', addWorker w wtp x = some w' ∧ w'.count = w.count + 1 ∧ Listed w' [x] es' := by
  obtain rfl : es = [] := by
    have hlen := h.length
    exact List.length_eq_zero_iff.mp hlen
  have hhead : w.workers = none := h.head
  refine ⟨{ w with
    heap := w.heap.set wtp ⟨none, none, x⟩, workers := some wtp, count := w.count + 1 },
    [(wtp, x)], ?_, rfl, ?_, rfl, .refl _⟩
  · unfold addWorker
    rw [hhead]
  · refine ⟨List.pairwise_singleton .., fun m a v r he => ?_⟩
    cases m with
    | nil =>
      cases he
      exact Heap.set_self ..
    | cons e m => exact absurd he (by simp)

/-- **Another entry is not in the list**: `workers` stays where it is, and points to an entry that
has another one in front of it. -/
theorem Listed.add_lost (h : Listed w l es) (hne : l ≠ []) (hfree : w.heap wtp = none)
    (hs : addWorker w wtp x = some w') : ¬ ∃ es', Listed w' (x :: l) es' := by
  rintro ⟨es', h'⟩
  cases es with
  | nil => exact hne (List.length_eq_zero_iff.mp h.length.symm)
  | cons e es =>
    obtain ⟨b, y⟩ := e
    have hb : w.heap b = some ⟨first es, none, y⟩ := h.chain.node [] b y es rfl
    have hbw : b ≠ wtp := fun he => absurd ((he ▸ hb).symm.trans hfree) (by simp)
    have hhead : w.workers = some b := h.head
    unfold addWorker at hs
    rw [hhead] at hs
    dsimp only at hs
    rw [Heap.setPrev_eq ((Heap.set_of_ne _ hbw).trans hb), Option.map_some] at hs
    cases hs
    have hfirst : some b = first es' := h'.head
    cases es' with
    | nil => exact absurd hfirst (by simp)
    | cons e' es' =>
      obtain ⟨b', z⟩ := e'
      obtain rfl : b = b' := Option.some.inj hfirst
      have hb' := h'.chain.node [] b z es' rfl
      have hset := (Heap.set_self ((w.heap.set wtp ⟨some b, none, x⟩)) b
        ⟨first es, some wtp, y⟩).symm.trans hb'
      exact absurd (congrArg Node.prev (Option.some.inj hset)) (by simp)

/-! ## All sequences of calls -/

/-- A client comes only when no other one is there. -/
def OneClient (l : List Worker) : WorkerCall → Prop
  | .add _ _ => l = []
  | .cleanup _ => True

/-- What holds while there is one client at a time. -/
structure Tended (w : Workers) (l : List Worker) : Prop where
  listed : ∃ es, Listed w l es
  nodup : (l.map Worker.tid).Nodup
  count : l.length ≤ w.count

/-- **A call of one client at a time** has a result, and keeps the list. -/
theorem Tended.step {c : WorkerCall} (h : Tended w l) (hc : OneClient l c) :
    ∃ w', workerStep w c = some w' ∧ Tended w' (live l c) := by
  obtain ⟨⟨es, hes⟩, hnodup, hcount⟩ := h
  cases c with
  | add wtp x =>
    obtain rfl : l = [] := hc
    obtain ⟨w', es', hs, hcount', hes'⟩ := @Listed.add w es x wtp hes
    refine ⟨w', hs, ⟨es', hes'⟩, List.pairwise_singleton .., ?_⟩
    show 1 ≤ w'.count
    omega
  | cleanup tid =>
    have hnodup' : ((l.filter (·.tid ≠ tid)).map Worker.tid).Nodup :=
      hnodup.sublist (List.filter_sublist.map _)
    have hlen : (l.filter (·.tid ≠ tid)).length ≤ w.count :=
      Nat.le_trans (List.length_filter_le ..) hcount
    by_cases hx : ∃ x ∈ l, x.tid = tid
    · obtain ⟨x, hx, rfl⟩ := hx
      obtain ⟨w', -, -, es', hs, -, -, -, -, hcount', hes'⟩ := hes.cleanup hnodup hcount hx
      exact ⟨w', hs, ⟨es', hes'⟩, hnodup', hcount'.symm ▸ hlen⟩
    · have hne : ∀ y ∈ l, y.tid ≠ tid := by
        intro y hy he
        exact hx ⟨y, hy, he⟩
      have hfilter : l.filter (·.tid ≠ tid) = l :=
        List.filter_eq_self.mpr fun y hy => decide_eq_true (hne y hy)
      refine ⟨w, hes.cleanup_none hcount hne, ⟨es, ?_⟩, hnodup', hlen⟩
      show Listed w (l.filter (·.tid ≠ tid)) es
      rw [hfilter]
      exact hes

theorem Called.tended (h : Called OneClient w l) : Tended w l := by
  induction h with
  | init => exact ⟨⟨[], Chain.nil _, rfl, .refl _⟩, List.nodup_nil, Nat.le_refl 0⟩
  | step _ _ hc hs ih =>
    obtain ⟨w', hs', h⟩ := ih.step hc
    rw [hs] at hs'
    cases hs'
    exact h

/-- What the list is for follows from its shape. -/
theorem Tended.ok (h : Tended w l) : WorkersOk w l := by
  obtain ⟨⟨es, hes⟩, hnodup, hcount⟩ := h
  refine ⟨⟨es, hes⟩, hes.kill hcount, fun x hx => ?_⟩
  obtain ⟨w', wtp, n, es', hs, hn, hval, hfree, hclosed, -⟩ := hes.cleanup hnodup hcount hx
  exact ⟨w', wtp, n, hs, hn, hval, hfree, hclosed⟩

/-- **The list of workers is right as long as there is one client at a time**, whatever the order
of the calls; and it is not right any more when a client comes while another one is there. -/
theorem workers_alone (w : Workers) (l : List Worker) :
    (Called OneClient w l →
      WorkersOk w l ∧ ∀ c, OneClient l c → ∃ w', workerStep w c = some w') ∧
      ∀ wtp x w', Called OneClient w l → CallOk w l (.add wtp x) →
        ¬ OneClient l (.add wtp x) → workerStep w (.add wtp x) = some w' →
        ¬ WorkersOk w' (live l (.add wtp x)) := by
  refine ⟨fun h => ⟨h.tended.ok, fun c hc => ?_⟩, fun wtp x w' h hok hne hs hbad => ?_⟩
  · obtain ⟨w', hs, -⟩ := h.tended.step hc
    exact ⟨w', hs⟩
  · obtain ⟨es, hes⟩ := h.tended.listed
    exact hes.add_lost hne hok.1 hs hbad.1

/-- The first client, and what a second one would do. -/
theorem workers_alone_two : ∃ w l w', Called OneClient w l ∧ l = [⟨7, 4⟩] ∧ WorkersOk w l ∧
    workerStep w (.add 1 ⟨8, 5⟩) = some w' ∧ ¬ WorkersOk w' (⟨8, 5⟩ :: l) := by
  have hcall : Called OneClient _ [⟨7, 4⟩] :=
    .step .init (c := .add 0 ⟨7, 4⟩) ⟨rfl, fun _ hy => absurd hy List.not_mem_nil⟩ rfl rfl
  refine ⟨_, _, _, hcall, rfl, ((workers_alone _ _).1 hcall).1, rfl, ?_⟩
  refine (workers_alone _ _).2 1 ⟨8, 5⟩ _ hcall ⟨rfl, fun y hy => ?_⟩ (by simp [OneClient]) rfl
  rw [List.mem_singleton.mp hy]
  decide

/-- Two clients: `kill_workers` cancels only the first one. -/
theorem workers_lost : ∃ w, Called (fun _ _ => True) w [⟨8, 5⟩, ⟨7, 4⟩] ∧
    killWorkers w = some [7] ∧ ¬ WorkersOk w [⟨8, 5⟩, ⟨7, 4⟩] := by
  have hcall : Called (fun _ _ => True) _ [⟨8, 5⟩, ⟨7, 4⟩] :=
    .step (.step .init (c := .add 0 ⟨7, 4⟩) ⟨rfl, fun _ hy => absurd hy List.not_mem_nil⟩ trivial rfl)
      (c := .add 1 ⟨8, 5⟩) ⟨rfl, fun y hy => by rw [List.mem_singleton.mp hy]; decide⟩ trivial rfl
  refine ⟨_, hcall, rfl, ?_⟩
  rintro ⟨-, ⟨tids, hkill, hperm⟩, -⟩
  obtain rfl : [7] = tids := Option.some.inj hkill
  exact absurd hperm.length_eq (by decide)

end LearningNotes.Printd
