import LearningNotes.Db.Listing

/-!
# Fetches between the calls of a scan

The place of a scan is nothing but the file offset of the index file, and every lookup moves it: to
the end of the last record that the lookup reads, or, if the chain is empty, behind the pointer to
the chain in the hash table. There is no record there, and the next `db_nextrec` ends the process
(`fetch_disturbs`).

`fetches_harmless`: a scan returns the same with and without the fetches if each lookup that is
followed by a `db_nextrec` leaves the file offset between the same two live records.
-/

namespace LearningNotes.Db

open Prog (exec)

variable {P : List Byte → Prop} {p : Pid} {dead : Pid → Prop} {db : DB} {w w' : World}
  {x : Index} {y : List CString} {cells : Place → List Cell} {r : Rec} {rest rs : List Rec}
  {pairs : List (List Byte × List Byte)} {i n m o : Nat} {key : List Byte}

/-! ## How far a scan has come -/

/-- How many of the records, of which the first one is at `o`, are live and in front of `m`. -/
def liveBefore (m : Nat) : Nat → List Rec → Nat
  | _, [] => 0
  | o, r :: rs => (if o < m ∧ ¬ Blank r.key then 1 else 0) + liveBefore m (o + r.size) rs

/-- How many records are live. -/
def liveCount (rs : List Rec) : Nat := rs.countP fun r => ¬ Blank r.key

theorem liveBefore_zero (h : m ≤ o) : liveBefore m o rs = 0 := by
  induction rs generalizing o with
  | nil => rfl
  | cons r rs ih =>
    rw [liveBefore, if_neg (fun hlt => absurd hlt.1 (Nat.not_lt.mpr h)), ih (by omega)]

theorem liveBefore_append {pre : List Rec} :
    liveBefore (o + extent Rec.size pre) o (pre ++ rest) = liveCount pre := by
  induction pre generalizing o with
  | nil => exact liveBefore_zero (Nat.le_refl _)
  | cons r pre ih =>
    have hlt : o < o + extent Rec.size (r :: pre) := by
      have := Rec.size_pos r
      rw [extent_cons]
      omega
    have hend : o + extent Rec.size (r :: pre) = o + r.size + extent Rec.size pre := by
      rw [extent_cons]
      omega
    rw [List.cons_append, liveBefore, hend, ih, liveCount, liveCount, List.countP_cons]
    rw [hend] at hlt
    by_cases hb : Blank r.key
    · rw [if_neg (fun hl => hl.2 hb), if_neg (by simp [hb]), Nat.zero_add, Nat.add_zero]
    · rw [if_pos ⟨hlt, hb⟩, if_pos (by simp [hb]), Nat.add_comm]

/-- Every live record has a pair. -/
theorem length_pairsOf (h : ∀ r ∈ rs, ∃ s, blockAt y r.datoff = some s) :
    (pairsOf y rs).length = liveCount rs := by
  induction rs with
  | nil => rfl
  | cons r rs ih =>
    have hrest := ih fun r hr => h r (List.mem_cons_of_mem _ hr)
    obtain ⟨s, hs⟩ := h r (List.mem_cons_self ..)
    rw [liveCount, List.countP_cons, ← liveCount, ← hrest]
    by_cases hb : Blank r.key
    · have hpair : pairOf y r = none := if_pos hb
      rw [pairsOf, List.filterMap_cons_none hpair]
      simp [hb, pairsOf]
    · have hpair : pairOf y r = some (r.key, s.val) := pairOf_eq_some.mpr ⟨hb, rfl, s, hs, rfl⟩
      rw [pairsOf, List.filterMap_cons_some hpair]
      simp [hb, pairsOf]

/-- Behind the first `i` live records, or all of them, the rest has the pairs from number `i` on. -/
theorem pairsOf_drop {pre : List Rec} (h : ∀ r ∈ pre ++ rest, ∃ s, blockAt y r.datoff = some s)
    (hcount : liveCount pre = min i (liveCount (pre ++ rest))) :
    pairsOf y rest = (pairsOf y (pre ++ rest)).drop i := by
  have hpre : (pairsOf y pre).length = liveCount pre :=
    length_pairsOf fun r hr => h r (List.mem_append_left _ hr)
  have hall : (pairsOf y (pre ++ rest)).length = liveCount (pre ++ rest) := length_pairsOf h
  have happ : pairsOf y (pre ++ rest) = pairsOf y pre ++ pairsOf y rest := List.filterMap_append
  rw [happ, List.length_append] at hall
  rw [happ]
  rcases Nat.le_total i (liveCount (pre ++ rest)) with hle | hle
  · rw [List.drop_left' (by omega)]
  · have hnil : pairsOf y rest = [] := List.eq_nil_of_length_eq_zero (by omega)
    rw [hnil, List.append_nil, List.drop_eq_nil_of_le (by omega)]

/-! ## Where a lookup stops -/

theorem mem_of_mem_readCells {c : List Cell} {e : Cell} (h : e ∈ readCells key c) : e ∈ c := by
  induction c with
  | nil => exact h
  | cons e' c ih =>
    rw [readCells] at h
    split at h
    · exact List.mem_singleton.mp h ▸ List.mem_cons_self ..
    · rcases List.mem_cons.mp h with rfl | h
      · exact List.mem_cons_self ..
      · exact List.mem_cons_of_mem _ (ih h)

/-- On a chain that is not empty a lookup stops behind a record. -/
theorem exists_readStop (key : List Byte) {c : List Cell} (h : c ≠ []) :
    ∃ e ∈ c, readStop key c = e.1 + e.2.toRec.size := by
  have hne : readCells key c ≠ [] := by
    cases c with
    | nil => exact absurd rfl h
    | cons e c =>
      rw [readCells]
      split <;> simp
  obtain ⟨init, e, hlast⟩ := (List.eq_nil_or_concat (readCells key c)).resolve_left hne
  rw [List.concat_eq_append] at hlast
  have hmem : e ∈ readCells key c := by
    rw [hlast]
    exact List.mem_append_right _ (List.mem_singleton_self e)
  refine ⟨e, mem_of_mem_readCells hmem, ?_⟩
  rw [readStop, hlast, endPos_concat]

/-- Behind a lookup of `key`, call number `i` of `db_nextrec` still finds its record: the chain is not
empty, and the lookup stops behind the first `i` live records and in front of the others. -/
def KeepsPlace (x : Index) (cells : Place → List Cell) (i : Nat) (key : List Byte) : Prop :=
  cells (World.chainOf key) ≠ [] ∧
    liveBefore (readStop key (cells (World.chainOf key))) recsOff x.recs = min i (liveCount x.recs)

/-- The calls are fetches and calls of `db_nextrec`, `i` of them made so far, and `last` is the key
that has been fetched since. A fetch that is followed by a `db_nextrec` keeps the place. -/
def Harmless (x : Index) (cells : Place → List Cell) : Nat → Option (List Byte) → List Call → Prop
  | _, _, [] => True
  | i, _, .fetch k :: cs => Harmless x cells i (some k.val) cs
  | i, last, .nextrec :: cs =>
    (∀ key, last = some key → KeepsPlace x cells i key) ∧ Harmless x cells (i + 1) none cs
  | _, _, _ :: _ => False

/-- What the calls of `db_nextrec` have returned. -/
def scanned : List Call → List Ret → List Ret
  | .nextrec :: cs, r :: rs => r :: scanned cs rs
  | _ :: cs, _ :: rs => scanned cs rs
  | _, _ => []

/-- After `db_rewind` the calls do not end the process, and the scan returns what it returns when
nothing is in between. -/
def Undisturbed (p : Pid) (db : DB) (os : OS) (cs : List Call) : Prop :=
  ∃ rs db₁ os₁ db₂ os₂,
    exec (sysStep p) ((session (.rewind :: cs)).run db) os = .done (.unit :: rs, db₁) os₁ ∧
    exec (sysStep p) ((session (.rewind :: List.replicate (cs.count .nextrec) .nextrec)).run db) os =
      .done (.unit :: scanned cs rs, db₂) os₂

/-! ## The calls -/

/-- What is known between two calls: `i` calls of `db_nextrec` and then perhaps a fetch have been made
since `db_rewind`, and the file offset is where the last one of them has left it. -/
structure Standing (P : List Byte → Prop) (p : Pid) (w₀ : World) (i : Nat)
    (last : Option (List Byte)) (db : DB) (w : World) : Prop
    extends Solo P (fun _ => False) p w where
  opened : Opened db
  unwritten : Unwritten w₀ w
  pos : match last with
    | none => ∃ rest, Ahead w rest db.idxpos ∧
        pairsOf w.y rest = (pairsOf w₀.y w₀.x.recs).drop i
    | some key => db.idxpos = readStop key (w.cells (World.chainOf key))

/-- A fetch that keeps the place is as good as no fetch. -/
theorem Standing.scanning {w₀ : World} {last : Option (List Byte)}
    (h : Standing P p w₀ i last db w) (hkeeps : ∀ key, last = some key → KeepsPlace w₀.x w₀.cells i key) :
    Scanning P (fun _ => False) p (pairsOf w₀.y w₀.x.recs) i db w := by
  refine ⟨h.toSolo, h.opened, h.lowBlanks, ?_⟩
  have hpos := h.pos
  cases last with
  | none => exact hpos
  | some key =>
    obtain ⟨hne, hcount⟩ := hkeeps key rfl
    rw [← h.unwritten.cells] at hne hcount
    rw [← h.unwritten.x] at hcount
    obtain ⟨e, he, hstop⟩ := exists_readStop key hne
    obtain ⟨pre, rest, hrecs, ho⟩ := (entryAt_eq_some Rec.size_pos).mp (h.inv.placed.recAt he)
    have hsplit : w.x.recs = (pre ++ [e.2.toRec]) ++ rest := by
      rw [hrecs, List.append_assoc, List.singleton_append]
    have hend : readStop key (w.cells (World.chainOf key)) =
        recsOff + extent Rec.size (pre ++ [e.2.toRec]) := by
      rw [hstop, ho, extent_append, extent_cons, extent_nil]
      omega
    have hblocks : ∀ r ∈ w.x.recs, ∃ s, blockAt w.y r.datoff = some s := by
      intro r hr
      obtain ⟨before, behind, heq⟩ := List.append_of_mem hr
      have hat : w.x.recAt (recsOff + extent Rec.size before) = some r :=
        (entryAt_eq_some Rec.size_pos).mpr ⟨before, behind, heq, rfl⟩
      obtain ⟨s, hs, -⟩ := h.inv.placed.blockOf hat
      exact ⟨s, hs⟩
    rw [hend, hsplit, liveBefore_append] at hcount
    refine ⟨rest, ⟨_, hsplit, hpos.trans hend⟩, ?_⟩
    rw [← h.unwritten.x, ← h.unwritten.y, hsplit]
    exact pairsOf_drop (hsplit ▸ hblocks) hcount

theorem Standing.fetch {w₀ : World} {last : Option (List Byte)} (hclean : ∀ k, P k → SEP ∉ k)
    (h : Standing P p w₀ i last db w) (k : CString) :
    ∃ db' w', (Call.fetch k).run p db w.os = .done (.data (w.view k.val), db') w'.os ∧
      Standing P p w₀ i (some k.val) db' w' := by
  obtain ⟨db', w', hrun, hq, hdb', hstop⟩ :=
    h.toSolo.fetch (k := k) h.opened fun e he => hclean _ (h.legal he)
  refine ⟨db', w', hrun, hq.toSolo, hdb', h.unwritten.trans hq.unwritten, ?_⟩
  show db'.idxpos = readStop k.val (w'.cells (World.chainOf k.val))
  rw [hq.unwritten.cells]
  exact hstop

theorem Standing.nextrec {w₀ : World} {last : Option (List Byte)} (hclean : ∀ k, P k → SEP ∉ k)
    (h : Standing P p w₀ i last db w) (hkeeps : ∀ key, last = some key → KeepsPlace w₀.x w₀.cells i key) :
    ∃ db' w', Call.nextrec.run p db w.os = .done (.pair (pairsOf w₀.y w₀.x.recs)[i]?, db') w'.os ∧
      Standing P p w₀ (i + 1) none db' w' := by
  obtain ⟨db', w', hrun, hq, hnext⟩ := (h.scanning hkeeps).nextrec hclean
  exact ⟨db', w', hrun, hq.toSolo, hnext.opened, h.unwritten.trans hq.unwritten, hnext.ahead⟩

/-- **A run of fetches and calls of `db_nextrec`.** -/
theorem Standing.session {w₀ : World} (hclean : ∀ k, P k → SEP ∉ k) (cs : List Call) :
    ∀ {i : Nat} {last : Option (List Byte)} {db : DB} {w : World}, Standing P p w₀ i last db w →
      Harmless w₀.x w₀.cells i last cs → ∃ rs db' os',
        exec (sysStep p) ((session cs).run db) w.os = .done (rs, db') os' ∧
        scanned cs rs = (List.range' i (cs.count .nextrec)).map
          fun i => .pair (pairsOf w₀.y w₀.x.recs)[i]? := by
  induction cs with
  | nil => exact fun {_ _ db w} _ _ => ⟨[], db, w.os, rfl, rfl⟩
  | cons c cs ih =>
    intro i last db w h hharm
    cases c with
    | fetch k =>
      obtain ⟨db', w', hrun, h'⟩ := h.fetch hclean k
      obtain ⟨rs, db'', os'', hrest, hscan⟩ := ih h' hharm
      refine ⟨.data (w.view k.val) :: rs, db'', os'', ?_, ?_⟩
      · rw [exec_session_cons, hrun]
        dsimp only
        rw [hrest]
      · rw [List.count_cons_of_ne (by simp)]
        exact hscan
    | nextrec =>
      obtain ⟨hkeeps, hharm⟩ := hharm
      obtain ⟨db', w', hrun, h'⟩ := h.nextrec hclean hkeeps
      obtain ⟨rs, db'', os'', hrest, hscan⟩ := ih h' hharm
      refine ⟨.pair (pairsOf w₀.y w₀.x.recs)[i]? :: rs, db'', os'', ?_, ?_⟩
      · rw [exec_session_cons, hrun]
        dsimp only
        rw [hrest]
      · rw [List.count_cons_self, List.range'_succ, List.map_cons, ← hscan]
        rfl
    | «open» creat trunc => exact hharm.elim
    | store k d flag => exact hharm.elim
    | delete k => exact hharm.elim
    | rewind => exact hharm.elim

/-! ## After any calls -/

/-- The keys of the records are what the invariant is about. -/
theorem Inv.restrict {P' : List Byte → Prop} (h : Inv P w)
    (hkeys : ∀ o r, w.x.recAt o = some r → P' r.key) : Inv P' w where
  files := h.files
  placed := h.placed
  lists := by
    refine ⟨h.lists.free, fun j hj => ?_, h.lists.range⟩
    obtain ⟨hthread, hhash, hnodup, -, hclean⟩ := h.lists.chain j hj
    exact ⟨hthread, hhash, hnodup, fun e he => hkeys _ _ (h.placed.recAt he), hclean⟩
  guarded := h.guarded
  legal := fun o r hr => Or.inr (hkeys o r hr)
  low := fun o r hr _ => Or.inr (hkeys o r hr)
  wrote := h.wrote
  map := h.map

/-- A sequence of calls with any keys leaves the database in order. -/
theorem session_solo (cs : List Call) :
    ∀ {db : DB} {w : World}, Solo P dead p w → Opened db → (∀ c ∈ cs, c.OnMap P) →
      (exec (sysStep p) ((session cs).run db) w.os).Sat
        (fun a os' => Opened a.2 ∧ ∃ w', w'.os = os' ∧ Solo P dead p w') (fun _ _ => True) := by
  induction cs with
  | nil => exact fun {db w} h hdb _ => ⟨hdb, w, rfl, h⟩
  | cons c cs ih =>
    intro db w h hdb hc
    have hcall := h.call hdb (hc c (List.mem_cons_self ..))
    rw [exec_session_cons]
    cases hrun : c.run p db w.os with
    | blocked os' =>
      rw [hrun] at hcall
      exact hcall
    | halted e os' => trivial
    | done a os' =>
      obtain ⟨r, db'⟩ := a
      rw [hrun] at hcall
      obtain ⟨w', rfl, h', hdb', -⟩ := hcall
      have hrest := ih h' hdb' fun c' hc' => hc c' (List.mem_cons_of_mem _ hc')
      dsimp only
      cases hses : exec (sysStep p) ((session cs).run db') w'.os with
      | blocked os'' =>
        rw [hses] at hrest
        exact hrest
      | halted e os'' => trivial
      | done b os'' =>
        rw [hses] at hrest
        exact hrest

theorem Solo.undisturbed (hclean : ∀ k, P k → SEP ∉ k) (h : Solo P (fun _ => False) p w)
    (hdb : Opened db) {cs : List Call} (hharm : Harmless w.x w.cells 0 none cs) :
    Undisturbed p db w.os cs := by
  obtain ⟨w', hrun, hq⟩ := h.rewind hdb
  have hscan : Scanning P (fun _ => False) p (pairsOf w.y w.x.recs) 0 db.rewound w' :=
    hq.scanning hdb h.lowBlanks
  have hstand : Standing P p w 0 none db.rewound w' :=
    ⟨hq.toSolo, ⟨hdb.nhash, hdb.hashoff⟩, hq.unwritten, hscan.ahead⟩
  obtain ⟨rs, db₁, os₁, hrest, hscanned⟩ := hstand.session hclean cs hharm
  obtain ⟨db₂, os₂, hpure⟩ := hscan.nextrecs hclean (cs.count .nextrec)
  refine ⟨rs, db₁, os₁, db₂, os₂, ?_, ?_⟩
  · rw [exec_session_cons, hrun]
    dsimp only
    rw [hrest]
  · rw [exec_session_cons, hrun]
    dsimp only
    rw [hpure, hscanned]

/-- **Fetches that do no harm.** On the files that any sequence of calls leaves on a new database, if
no key in them has a separator: a scan returns the same with the fetches and without them, if each
fetch that is followed by a `db_nextrec` keeps the place. -/
theorem fetches_harmless (p : Pid) (idx dat : List Byte) (db : DB) (cs : List Call)
    (hcs : ∀ c ∈ cs, c.OnMap fun _ => True) :
    ∃ db₀ os₀, (Call.open true true).run p db ⟨idx, dat, []⟩ = .done (.unit, db₀) os₀ ∧
      (exec (sysStep p) ((session cs).run db₀) os₀).Sat
        (fun a os => ∃ x y cells, Formed os x y cells ∧
          ((∀ o r, x.recAt o = some r → SEP ∉ r.key) →
            ∀ cs', Harmless x cells 0 none cs' → Undisturbed p a.2 os cs'))
        (fun _ _ => True) := by
  refine ⟨DB.opened, OS.created, run_open (exec_create p idx dat db), ?_⟩
  have hsolo : Solo (fun _ => True) (fun _ => False) p World.created := Solo.created p
  refine (session_solo cs hsolo opened_opened hcs).mono ?_ fun _ _ _ => trivial
  rintro a os ⟨hdb, w, rfl, hw⟩
  refine ⟨w.x, w.y, w.cells, hw.formed, fun hkeys cs' hharm => ?_⟩
  have hw' : Solo (fun k => SEP ∉ k) (fun _ => False) p w :=
    ⟨⟨hw.inv.restrict hkeys, hw.locks, hw.hand, hw.pend⟩, hw.alone, hw.hands⟩
  exact hw'.undisturbed (fun _ => id) hdb hharm

/-- On a new database a fetch finds its chain empty, and the next `db_nextrec` ends the process. -/
theorem fetch_disturbs :
    (Call.open true true).run 0 {} ⟨[], [], []⟩ = .done (.unit, DB.opened) OS.created ∧
      ¬ Undisturbed 0 DB.opened OS.created [.fetch ⟨[97], by decide⟩, .nextrec] := by
  refine ⟨run_open (exec_create 0 [] [] {}), ?_⟩
  rintro ⟨rs, db₁, os₁, -, -, hrun, -⟩
  have hends : (exec (sysStep 0) ((session [.rewind, .fetch ⟨[97], by decide⟩, .nextrec]).run
      DB.opened) OS.created).isDone = false := by
    decide +kernel
  rw [hrun] at hends
  exact absurd hends (by simp [Prog.Outcome.isDone])

/-- The chain of a record that has no other behind it. -/
theorem Formed.chain_single {os : OS} {h : Nat} (hf : Formed os x y cells) (hh : h < NHASH_DEF)
    (hget : x.get (.chain h) = some o) (ho : o ≠ 0) (hr : x.recAt o = some r) (hptr : r.ptr = 0) :
    ∃ it : Item, cells (.chain h) = [(o, it)] ∧ it.toRec = r := by
  obtain ⟨a, ha, hseg⟩ := hf.list (.chain h) hh
  obtain rfl : a = o := Option.some.inj (ha.symm.trans hget)
  cases hc : cells (.chain h) with
  | nil =>
    rw [hc] at hseg
    exact absurd hseg ho
  | cons e c =>
    obtain ⟨b, it⟩ := e
    rw [hc] at hseg
    obtain ⟨rfl, -, hrest⟩ := hseg
    have hit : it.toRec = r := by
      have hstore := (hf.store (.chain h) (a, it) (by rw [hc]; exact List.mem_cons_self ..)).1
      exact Option.some.inj (hstore.symm.trans hr)
    have hlink : link it = 0 := (congrArg Rec.ptr hit).trans hptr
    cases c with
    | nil => exact ⟨it, rfl, hit⟩
    | cons e c => exact absurd (hrest.1.symm.trans hlink) hrest.2.1

/-- A lookup in such a chain stops behind the record. -/
theorem keepsPlace_single {it : Item} (hc : cells (World.chainOf key) = [(o, it)])
    (hcount : liveBefore (o + it.toRec.size) recsOff x.recs = min i (liveCount x.recs)) :
    KeepsPlace x cells i key := by
  have hread : readCells key [(o, it)] = [(o, it)] := by
    rw [readCells, readCells]
    split <;> rfl
  refine ⟨by rw [hc]; exact List.cons_ne_nil _ _, ?_⟩
  rw [hc, readStop, hread]
  exact hcount

/-- The index when pairs with the keys `a` and `b` have been stored on a new database. -/
def indexTwo : Index where
  free := 0
  table := ((List.replicate NHASH_DEF 0).set (dbHash NHASH_DEF [97]) recsOff).set
    (dbHash NHASH_DEF [98]) (recsOff + 17)
  recs := [⟨0, [97], 0, 2⟩, ⟨0, [98], 2, 2⟩]

theorem indexTwo_ok : indexTwo.Ok where
  free := by decide
  len := by decide +kernel
  table := by decide +kernel
  recs := by
    intro r hr
    simp only [indexTwo, List.mem_cons, List.not_mem_nil, or_false] at hr
    rcases hr with rfl | rfl
    · exact ⟨by decide, by decide, by decide, by decide, by decide, by decide⟩
    · exact ⟨by decide, by decide, by decide, by decide, by decide, by decide⟩

/-- A scan of two pairs, in which each key is fetched when its pair has been returned. -/
theorem fetches_harmless_two :
    let a : CString := ⟨[97], nul_not_mem_a⟩
    let b : CString := ⟨[98], nul_not_mem_b⟩
    ∃ r os, exec (sysStep 0)
        ((session [.store a a DB_INSERT, .store b a DB_INSERT]).run DB.opened) OS.created = .done r os ∧
      Undisturbed 0 r.2 os [.nextrec, .fetch a, .nextrec, .fetch b, .nextrec] := by
  intro a b
  obtain ⟨db₀, os₀, hopen, hsat⟩ := fetches_harmless 0 [] [] {}
    [.store a a DB_INSERT, .store b a DB_INSERT] (by
      intro c hc
      simp only [List.mem_cons, List.not_mem_nil, or_false] at hc
      rcases hc with rfl | rfl <;> trivial)
  have hnew : (Call.open true true).run 0 {} ⟨[], [], []⟩ = .done (.unit, DB.opened) OS.created :=
    run_open (exec_create 0 [] [] {})
  rw [hnew] at hopen
  cases hopen
  have hdone : (exec (sysStep 0) ((session [.store a a DB_INSERT, .store b a DB_INSERT]).run
      DB.opened) OS.created).isDone = true := by decide +kernel
  have hidx : (exec (sysStep 0) ((session [.store a a DB_INSERT, .store b a DB_INSERT]).run
      DB.opened) OS.created).state.idx = indexTwo.bytes := by decide +kernel
  cases hrun : exec (sysStep 0) ((session [.store a a DB_INSERT, .store b a DB_INSERT]).run
      DB.opened) OS.created with
  | blocked os => simp [hrun, Prog.Outcome.isDone] at hdone
  | halted e os => simp [hrun, Prog.Outcome.isDone] at hdone
  | done r os =>
    rw [hrun] at hsat hidx
    obtain ⟨x, y, cells, hf, hscan⟩ := hsat
    -- the files determine the index
    obtain rfl : x = indexTwo := Index.bytes_inj hf.ok indexTwo_ok (hf.idx.symm.trans hidx)
    have hkeys : ∀ o r, indexTwo.recAt o = some r → SEP ∉ r.key := by
      intro o r hr
      obtain ⟨-, -, -, -, hmem, -⟩ := Index.recAt_split indexTwo_ok hr
      simp only [indexTwo, List.mem_cons, List.not_mem_nil, or_false] at hmem
      rcases hmem with rfl | rfl <;> decide
    obtain ⟨itA, hcA, hitA⟩ := hf.chain_single (dbHash_lt [97])
      (show indexTwo.get (.chain (dbHash NHASH_DEF [97])) = some recsOff by decide +kernel) (by decide)
      (show indexTwo.recAt recsOff = some ⟨0, [97], 0, 2⟩ by decide +kernel) rfl
    obtain ⟨itB, hcB, hitB⟩ := hf.chain_single (dbHash_lt [98])
      (show indexTwo.get (.chain (dbHash NHASH_DEF [98])) = some (recsOff + 17) by decide +kernel)
      (by decide) (show indexTwo.recAt (recsOff + 17) = some ⟨0, [98], 2, 2⟩ by decide +kernel) rfl
    have hkeepA : KeepsPlace indexTwo cells 1 [97] := keepsPlace_single hcA (by rw [hitA]; decide +kernel)
    have hkeepB : KeepsPlace indexTwo cells 2 [98] := keepsPlace_single hcB (by rw [hitB]; decide +kernel)
    refine ⟨r, os, rfl, hscan hkeys _ ⟨nofun, ?_, ?_, trivial⟩⟩
    · rintro key ⟨⟩
      exact hkeepA
    · rintro key ⟨⟩
      exact hkeepB

end LearningNotes.Db
