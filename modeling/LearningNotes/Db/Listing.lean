import LearningNotes.Db.Formed

/-!
# A scan by a process alone

`db_rewind` and then `db_nextrec` again and again, with nobody and nothing in between. Call number
`i` returns pair number `i` of the index file (`pairsOf`), and `NULL` when there is none
(`Solo.nextrecs`). The pairs of the file are those of the map, each of them once: a record that is
not blank is on the chain of its key, and no key is twice on a chain.

`scan_session` says it of the files that any sequence of calls leaves on a new database.
-/

namespace LearningNotes.Db

open Prog (exec)

variable {P : List Byte → Prop} {p : Pid} {dead : Pid → Prop} {db : DB} {w : World}
  {k d : List Byte} {y : List CString} {r : Rec} {rest : List Rec}
  {pairs : List (List Byte × List Byte)} {i : Nat}

/-- The pair of a record, unless it is a deleted one. -/
def pairOf (y : List CString) (r : Rec) : Option (List Byte × List Byte) :=
  if Blank r.key then none else (blockAt y r.datoff).map fun s => (r.key, s.val)

/-- The pairs of the records, in their order. -/
def pairsOf (y : List CString) (rs : List Rec) : List (List Byte × List Byte) :=
  rs.filterMap (pairOf y)

theorem pairOf_eq_some : pairOf y r = some (k, d) ↔
    ¬ Blank r.key ∧ r.key = k ∧ ∃ s, blockAt y r.datoff = some s ∧ s.val = d := by
  unfold pairOf
  split
  next hb => simp [hb]
  next hb =>
    rw [Option.map_eq_some_iff]
    constructor
    · rintro ⟨s, hs, he⟩
      cases he
      exact ⟨hb, rfl, s, hs, rfl⟩
    · rintro ⟨-, rfl, s, hs, rfl⟩
      exact ⟨s, hs, rfl⟩

theorem pairsOf_blank (h : ∀ r ∈ rest, Blank r.key) : pairsOf y rest = [] := by
  rw [pairsOf, List.filterMap_eq_nil_iff]
  intro r hr
  rw [pairOf, if_pos (h r hr)]

/-- The next record that is not blank has the next pair. -/
theorem Scanned.pairsOf {o : Nat} {rest' : List Rec} {s : CString} (h : Scanned rest w o r rest')
    (hs : blockAt y r.datoff = some s) :
    pairsOf y rest = (r.key, s.val) :: pairsOf y rest' := by
  obtain ⟨bl, rfl, hblank⟩ := h.split
  have hpair : pairOf y r = some (r.key, s.val) := pairOf_eq_some.mpr ⟨h.notBlank, rfl, s, hs, rfl⟩
  have hnone : Db.pairsOf y bl = [] := pairsOf_blank hblank
  unfold Db.pairsOf at hnone ⊢
  rw [List.filterMap_append, hnone, List.nil_append, List.filterMap_cons_some hpair]

/-! ## The calls -/

/-- Every record is on a list, and the offsets on a list are pointers. -/
theorem Solo.lowBlanks (h : Solo P (fun _ => False) p w) : LowBlanks w := by
  intro o r hr _
  obtain ⟨ℓ, ⟨hℓ, hmem⟩, -⟩ := h.formed.once o r hr
  obtain ⟨a, ha, hseg⟩ := h.formed.list ℓ hℓ
  obtain ⟨e, he, rfl⟩ := List.mem_map.mp hmem
  exact offset_le (Index.get_split h.inv.files.ok ha).1 hseg (fun e he => h.inv.ptr_le e he) e he

/-- A call has returned that has written nothing. -/
structure Quieted (P : List Byte → Prop) (dead : Pid → Prop) (p : Pid) (w w' : World) : Prop
    extends Solo P dead p w' where
  unwritten : Unwritten w w'
  live : w'.live = w.live
  map : w'.map = w.map

theorem Quieted.still {w' : World} (h : Quieted P dead p w w') : Still w w' :=
  ⟨h.unwritten.x, h.unwritten.y⟩

/-- A call that only reads. -/
theorem Solo.quieted {c : Call} {w' : World} (h : Solo P dead p w) (hidle : Idle P p w')
    (halone : Alone p w'.os) (hran : Ran P p c (w.begin p) w') (hreads : c.Reads)
    (hspec : ∀ m : Map, (c.spec m).1 = m) : Quieted P dead p w w' where
  toIdle := hidle
  alone := halone
  hands := hran.hands_nil hidle h.hands
  unwritten := by
    obtain ⟨hidx, hdat, hx, hy, hcells⟩ := hran.still hreads
    exact ⟨hidx, hdat, hx, hy, hcells⟩
  live := hran.live
  map := by
    rcases hran.step with ⟨hm, -⟩ | ⟨-, hm, -⟩
    · exact hm
    · exact hm.trans (hspec _)

/-- `db_rewind`. -/
theorem Solo.rewind (h : Solo P dead p w) (hdb : Opened db) :
    ∃ w', Call.rewind.run p db w.os = .done (.unit, db.rewound) w'.os ∧ Quieted P dead p w w' := by
  have hready := h.toIdle.ready
  have hwp : wpM (rules (Env.nobody P p) .rewind) p Call.rewind.prog
      (fun r db' w' => r = .unit ∧ db' = db.rewound ∧ w' = w.begin p) (fun _ _ => False) db
      (w.begin p) := by
    unfold Call.prog
    simp only [wpM_bind, wpM_pure]
    exact wpM_rewind hdb ⟨trivial, rfl, rfl⟩
  obtain ⟨_, _, w', hrun, halone, hran, rfl, rfl, rfl⟩ :=
    done_alone (w := w.begin p) h.alone hready.inv hwp
  exact ⟨w.begin p, hrun, h.quieted hready.toIdle halone hran trivial fun _ => rfl⟩

/-- `db_fetch`, when it meets no key with a separator. -/
theorem Solo.fetch {k : CString} (h : Solo P dead p w) (hdb : Opened db)
    (hclean : ∀ e ∈ w.cells (World.chainOf k.val), SEP ∉ e.2.key) :
    ∃ db' w', (Call.fetch k).run p db w.os = .done (.data (w.view k.val), db') w'.os ∧
      Quieted P dead p w w' ∧ Opened db' ∧
      db'.idxpos = readStop k.val (w.cells (World.chainOf k.val)) := by
  have hready := h.toIdle.ready
  have hwp : wpM (rules (Env.nobody P p) (.fetch k)) p (Call.fetch k).prog
      (fun r db' w' => r = .data (w.view k.val) ∧ Idle P p w' ∧ Opened db' ∧
        db'.idxpos = readStop k.val (w.cells (World.chainOf k.val)))
      (fun _ _ => False) db (w.begin p) := by
    unfold Call.prog
    simp only [wpM_bind, wpM_pure]
    refine wpM_fetch hready hdb ?_ ?_
    · rintro _ db' w' rfl hdb' hstop hdone
      exact ⟨rfl, hdone.idle, hdb', hstop⟩
    · rintro _ w' u rfl rfl _ ⟨e, he, hs⟩
      exact hclean e he hs
  obtain ⟨_, db', w', hrun, halone, hran, rfl, hidle, hdb', hstop⟩ :=
    done_alone (w := w.begin p) h.alone hready.inv hwp
  exact ⟨db', w', hrun, h.quieted hidle halone hran trivial fun _ => rfl, hdb', hstop⟩

/-- What is known between two calls of a scan: the rest of the file has the pairs from number `i`
on. -/
structure Scanning (P : List Byte → Prop) (dead : Pid → Prop) (p : Pid)
    (pairs : List (List Byte × List Byte)) (i : Nat) (db : DB) (w : World) : Prop
    extends Solo P dead p w where
  opened : Opened db
  low : LowBlanks w
  ahead : ∃ rest, Ahead w rest db.idxpos ∧ pairsOf w.y rest = pairs.drop i

/-- **One `db_nextrec`** of a scan. -/
theorem Scanning.nextrec (hclean : ∀ k, P k → SEP ∉ k) (h : Scanning P dead p pairs i db w) :
    ∃ db' w', Call.nextrec.run p db w.os = .done (.pair pairs[i]?, db') w'.os ∧
      Quieted P dead p w w' ∧ Scanning P dead p pairs (i + 1) db' w' := by
  obtain ⟨rest, hahead, hpairs⟩ := h.ahead
  have hready := h.toIdle.ready
  have hedge : AtEdge (w.begin p) db.idxpos := by
    obtain ⟨pre, hrecs, hpos⟩ := hahead
    exact ⟨pre, rest, hrecs, hpos⟩
  have hwp : wpM (rules (Env.nobody P p) .nextrec) p Call.nextrec.prog
      (fun r db' w' => r = .pair pairs[i]? ∧ Idle P p w' ∧ Still w w' ∧ Opened db' ∧
        ∃ rest', Ahead w' rest' db'.idxpos ∧ pairsOf w.y rest' = pairs.drop (i + 1))
      (fun _ _ => False) db (w.begin p) := by
    have halone : (Env.nobody P p).Alone := by
      intro _ _ h
      exact Eq.symm h
    unfold Call.prog
    simp only [wpM_bind, wpM_pure]
    refine wpM_nextrec hclean (fun w' _ hstill => h.low.still (hstill halone)) hready.toIdle
      hready.lin h.opened hedge hedge.pos (fun _ => hahead) ?_ ?_
    · intro db' w' hidle _ hdb' _ hend
      obtain ⟨hstill, hblank, hpos⟩ := hend halone
      rw [pairsOf_blank hblank] at hpairs
      have hlen : pairs.length ≤ i := List.drop_eq_nil_iff.mp hpairs.symm
      refine ⟨?_, hidle, hstill, hdb', [], ?_, ?_⟩
      · rw [List.getElem?_eq_none hlen]
      · exact ⟨w'.x.recs, (List.append_nil _).symm, hpos.trans (by rw [hstill.1]; rfl)⟩
      · exact (List.drop_eq_nil_of_le (by omega)).symm
    · intro r d db' w' hidle _ hdb' _ _ hrec
      obtain ⟨hstill, o, rest', s, hscan, hs, rfl, hpos⟩ := hrec halone
      have hnext : pairs.drop i = (r.key, s.val) :: pairsOf w.y rest' :=
        hpairs.symm.trans (hscan.pairsOf hs)
      refine ⟨?_, hidle, hstill, hdb', rest', ?_, ?_⟩
      · rw [← List.head?_drop, hnext]
        rfl
      · obtain ⟨pre, hrecs, rfl⟩ := hscan.pos
        refine ⟨pre ++ [r], ?_, ?_⟩
        · rw [hstill.1, List.append_assoc, List.singleton_append]
          exact hrecs
        · rw [hpos, extent_append, extent_cons, extent_nil]
          omega
      · rw [← List.tail_drop, hnext]
        rfl
  obtain ⟨_, db', w', hrun, halone, hran, rfl, hidle, hstill, hdb', hrest'⟩ :=
    done_alone (w := w.begin p) h.alone hready.inv hwp
  have hq : Quieted P dead p w w' := h.quieted hidle halone hran trivial fun _ => rfl
  refine ⟨db', w', hrun, hq, hq.toSolo, hdb', h.low.still hstill, ?_⟩
  rw [hstill.2]
  exact hrest'

/-- The first call of a scan. -/
theorem Quieted.scanning {w' : World} (h : Quieted P dead p w w') (hdb : Opened db)
    (hlow : LowBlanks w) : Scanning P dead p (pairsOf w.y w.x.recs) 0 db.rewound w' where
  toSolo := h.toSolo
  opened := ⟨hdb.nhash, hdb.hashoff⟩
  low := hlow.still h.still
  ahead := by
    rw [h.still.2]
    refine ⟨w.x.recs, ⟨[], h.still.1 ▸ rfl, rfl⟩, rfl⟩

/-- `n` calls of `db_nextrec`. -/
theorem Scanning.nextrecs (hclean : ∀ k, P k → SEP ∉ k) (n : Nat) :
    ∀ {i : Nat} {db : DB} {w : World}, Scanning P dead p pairs i db w →
      ∃ db' os', exec (sysStep p) ((session (List.replicate n .nextrec)).run db) w.os =
        .done ((List.range' i n).map fun i => .pair pairs[i]?, db') os' := by
  induction n with
  | zero => exact fun {_ db w} _ => ⟨db, w.os, rfl⟩
  | succ n ih =>
    intro i db w h
    obtain ⟨db', w', hrun, -, h'⟩ := h.nextrec hclean
    obtain ⟨db'', os'', hrest⟩ := ih h'
    refine ⟨db'', os'', ?_⟩
    rw [List.replicate_succ, exec_session_cons, hrun]
    dsimp only
    rw [hrest]
    rfl

/-! ## The pairs of the file and the map -/

/-- A record that is not blank is on the chain of its key. -/
theorem Solo.on_chain (h : Solo P (fun _ => False) p w) {o : Nat} (hr : w.x.recAt o = some r)
    (hb : ¬ Blank r.key) : ∃ it, (o, it) ∈ w.cells (World.chainOf r.key) ∧ it.toRec = r := by
  obtain ⟨it, hmem, rfl⟩ := h.inv.placed.exists_cell hr
  refine ⟨it, ?_, rfl⟩
  cases hown : w.own o with
  | free =>
    rw [hown] at hmem
    exact absurd (h.inv.lists.free.blank _ hmem) hb
  | hand q =>
    rw [hown, (h.hands q id).1] at hmem
    exact absurd hmem List.not_mem_nil
  | chain j =>
    rw [hown] at hmem
    have hj : dbHash NHASH_DEF it.key = j := h.formed.hash j _ hmem
    show (o, it) ∈ w.cells (.chain (dbHash NHASH_DEF it.key))
    rw [hj]
    exact hmem

/-- The pairs of a file are those of the map, each of them once. -/
structure Listing (x : Index) (y : List CString) (cells : Place → List Cell) (m : Map)
    (pairs : List (List Byte × List Byte)) : Prop where
  order : pairs = pairsOf y x.recs
  deleted : ∀ o r, x.recAt o = some r → (Blank r.key ↔ o ∈ (cells .free).map Prod.fst)
  live : ∀ k d, (k, d) ∈ pairs ↔ m k = some d
  once : (pairs.map Prod.fst).Nodup

/-- Only legal keys are on the chains. -/
theorem Solo.legal (h : Solo P dead p w) {j : Nat} {e : Cell} (he : e ∈ w.cells (.chain j)) :
    P e.2.key := by
  by_cases hj : j < NHASH_DEF
  · exact (h.inv.lists.chain j hj).legal e he
  · rw [h.inv.lists.range j (Nat.le_of_not_lt hj)] at he
    exact absurd he List.not_mem_nil

/-- The file has the pairs that the map has. -/
theorem Solo.pair_iff (h : Solo P (fun _ => False) p w) (hplain : ∀ k, P k → ¬ Blank k)
    (hlive : w.live) : (k, d) ∈ pairsOf w.y w.x.recs ↔ w.map k = some d := by
  have hview : w.map k = lookup k (w.cells (World.chainOf k)) :=
    (h.inv.map hlive k fun q => h.not_owns (by simp) q).symm
  have hkeys := h.formed.keys (dbHash NHASH_DEF k)
  rw [hview, pairsOf, List.mem_filterMap]
  constructor
  · rintro ⟨r, hr, hpair⟩
    obtain ⟨hb, rfl, s, hs, rfl⟩ := pairOf_eq_some.mp hpair
    obtain ⟨pre, rest, hrecs⟩ := List.append_of_mem hr
    have hat : w.x.recAt (recsOff + extent Rec.size pre) = some r :=
      (entryAt_eq_some Rec.size_pos).mpr ⟨pre, rest, hrecs, rfl⟩
    obtain ⟨it, hmem, rfl⟩ := h.on_chain hat hb
    have hdata : it.data = s := Option.some.inj ((h.inv.placed.block hmem).symm.trans hs)
    obtain ⟨c₁, c₂, hsplit⟩ := List.append_of_mem hmem
    rw [hsplit, List.map_append, List.map_cons] at hkeys
    have habs : it.key ∉ c₁.map (·.2.key) := by
      intro hin
      exact (List.nodup_append.mp hkeys).2.2 _ hin _ (List.mem_cons_self ..) rfl
    rw [hsplit, lookup_found habs rfl, hdata]
  · intro hfound
    obtain ⟨e, he, hd⟩ := Option.map_eq_some_iff.mp hfound
    have hmem := List.mem_of_find?_eq_some he
    have hk : e.2.key = k := by simpa using List.find?_some he
    have hat := h.inv.placed.recAt hmem
    obtain ⟨pre, rest, hrecs, -⟩ := (entryAt_eq_some Rec.size_pos).mp hat
    have hlegal : P e.2.key := h.legal hmem
    refine ⟨e.2.toRec, hrecs ▸ List.mem_append_right _ (List.mem_cons_self ..), ?_⟩
    exact pairOf_eq_some.mpr ⟨hplain _ hlegal, hk, e.2.data, h.inv.placed.block hmem, hd⟩

/-- No key is in two records. -/
theorem Solo.pairs_nodup (h : Solo P (fun _ => False) p w) :
    ((pairsOf w.y w.x.recs).map Prod.fst).Nodup := by
  rw [List.Nodup, List.pairwise_map, pairsOf, List.pairwise_filterMap]
  refine pairwise_entries Rec.size_pos
    fun o o' r r' (hr : entryAt Rec.size recsOff w.x.recs o = some r) hr' hlt => ?_
  rintro ⟨k, d⟩ hpair ⟨k', d'⟩ hpair' hk
  obtain ⟨hb, rfl, -⟩ := pairOf_eq_some.mp hpair
  obtain ⟨hb', rfl, -⟩ := pairOf_eq_some.mp hpair'
  dsimp only at hk
  obtain ⟨it, hmem, rfl⟩ := h.on_chain hr hb
  obtain ⟨it', hmem', rfl⟩ := h.on_chain hr' hb'
  rw [← hk] at hmem'
  -- two cells of one chain with one key are one cell
  have hsame := List.inj_on_of_nodup_map (h.formed.keys (dbHash NHASH_DEF it.key)) hmem hmem' hk
  cases hsame
  exact absurd hlt (Nat.lt_irrefl _)

theorem Solo.listing (h : Solo P (fun _ => False) p w) (hplain : ∀ k, P k → ¬ Blank k)
    (hlive : w.live) : Listing w.x w.y w.cells w.map (pairsOf w.y w.x.recs) where
  order := rfl
  deleted := by
    intro o r hr
    constructor
    · intro hb
      obtain ⟨ℓ, ⟨hℓ, hmem⟩, -⟩ := h.formed.once o r hr
      cases ℓ with
      | free => exact hmem
      | hand q => exact hℓ.elim
      | chain j =>
        obtain ⟨e, he, rfl⟩ := List.mem_map.mp hmem
        have heq := (h.inv.placed.recAt he).symm.trans hr
        cases heq
        exact absurd hb (hplain _ (h.legal he))
    · intro hmem
      obtain ⟨e, he, rfl⟩ := List.mem_map.mp hmem
      have heq := (h.inv.placed.recAt he).symm.trans hr
      cases heq
      exact h.inv.lists.free.blank e he
  live := fun k d => h.pair_iff hplain hlive
  once := h.pairs_nodup

/-- **A scan lists the map.** Whatever stores, deletes and fetches a process makes on a database
that `db_open` has just initialised: after `db_rewind`, call number `i` of `db_nextrec` returns pair
number `i` of the file, and `NULL` when there is none. -/
theorem scan_session (p : Pid) (idx dat : List Byte) (db : DB) (cs : List Call)
    (hcs : ∀ c ∈ cs, c.OnMap PlainKey) :
    ∃ db₀ os₀, (Call.open true true).run p db ⟨idx, dat, []⟩ = .done (.unit, db₀) os₀ ∧
      (exec (sysStep p) ((session cs).run db₀) os₀).Sat
        (fun a os => ∃ x y cells pairs, Formed os x y cells ∧
          Listing x y cells (mapAfter cs Map.empty) pairs ∧ ∀ n, ∃ db' os',
            exec (sysStep p) ((session (.rewind :: List.replicate n .nextrec)).run a.2) os =
              .done (.unit :: (List.range n).map fun i => .pair pairs[i]?, db') os')
        (fun e _ => e.IsLimit ∧ Exceeds p cs db₀ os₀) := by
  refine ⟨DB.opened, OS.created, run_open (exec_create p idx dat db), ?_⟩
  have hsolo : Solo PlainKey (fun _ => False) p World.created := Solo.created p
  have h := session_sat (fun _ hk => hk.2) cs hsolo trivial opened_opened hcs
  refine h.mono ?_ fun _ _ he => he
  rintro a os ⟨-, hdb, w, rfl, hw, hlive, hmap⟩
  have hlist : Listing w.x w.y w.cells (mapAfter cs Map.empty) (pairsOf w.y w.x.recs) :=
    hmap ▸ hw.listing (fun _ hk => hk.1) hlive
  refine ⟨w.x, w.y, w.cells, pairsOf w.y w.x.recs, hw.formed, hlist, fun n => ?_⟩
  obtain ⟨w', hrun, hw'⟩ := hw.rewind hdb
  have hscan : Scanning PlainKey (fun _ => False) p (pairsOf w.y w.x.recs) 0 a.2.rewound w' :=
    hw'.scanning hdb hw.lowBlanks
  obtain ⟨db', os', hrest⟩ := hscan.nextrecs (fun _ hk => hk.2) n
  refine ⟨db', os', ?_⟩
  rw [exec_session_cons, hrun]
  dsimp only
  rw [hrest, List.range_eq_range']

/-- The same for two stores and a delete. -/
theorem scan_session_three :
    let k : CString := ⟨[97], by decide⟩
    let k' : CString := ⟨[98], by decide⟩
    ∃ db₀ os₀, (Call.open true true).run 0 {} ⟨[], [], []⟩ = .done (.unit, db₀) os₀ ∧
      (exec (sysStep 0) ((session [.store k k DB_INSERT, .store k' k DB_INSERT, .delete k]).run
        db₀) os₀).Sat
        (fun a os => ∃ x y cells pairs, Formed os x y cells ∧
          Listing x y cells
            (mapAfter [.store k k DB_INSERT, .store k' k DB_INSERT, .delete k] Map.empty) pairs ∧
          ∀ n, ∃ db' os',
            exec (sysStep 0) ((session (.rewind :: List.replicate n .nextrec)).run a.2) os =
              .done (.unit :: (List.range n).map fun i => .pair pairs[i]?, db') os')
        (fun e _ => e.IsLimit ∧
          Exceeds 0 [.store k k DB_INSERT, .store k' k DB_INSERT, .delete k] db₀ os₀) :=
  scan_session 0 [] [] {} _ (by
    intro c hc
    simp only [List.mem_cons, List.not_mem_nil, or_false] at hc
    rcases hc with rfl | rfl | rfl
    · exact ⟨by decide, by decide⟩
    · exact ⟨by decide, by decide⟩
    · trivial)

end LearningNotes.Db
