import LearningNotes.Db.Formed

/-!
# Opening the database again

What the files say about a key is what `db_fetch` returns when the database is opened again
(`found`). For files whose chain can be followed (`Path`) this is a walk along the chain
(`found_eq`), and nothing else of the files matters: the chain may lead into the free list, and
the index file may hold records that are on no list.

`Reach` are the states that calls lead to, of one process after the other. Some of the
processes may have been ended by a check.
-/

namespace LearningNotes.Db

open Prog (exec Outcome)
open RangeLock (Held held_acquire)

variable {P : List Byte → Prop} {p q : Pid} {dead : Pid → Prop} {c : List Cell} {db : DB}
  {w w' : World} {os : OS} {x : Index} {y : List CString} {key : List Byte} {i : Nat} {g : Gap}

/-- What `db_fetch` returns for a key when the database is opened again. -/
def found (os : OS) (key : CString) : Except Fatal (Option (List Byte)) :=
  match exec (sysStep 0) ((do dbOpen false false; dbFetch key).run {}) { os with locks := [] } with
  | .done (r, _) _ => .ok r
  | .halted e _ => .error e
  | .blocked _ => .error .hang

/-- In the files, the cells `c` are what one gets to from the head of chain `h`. -/
structure Path (os : OS) (x : Index) (y : List CString) (h : Nat) (c : List Cell) : Prop where
  idx : os.idx = x.bytes
  ok : x.Ok
  dat : os.dat = datBytes y
  head : x.get (.chain h) = some (start c)
  seg : Seg 0 link (start c) c 0
  recAt : ∀ e ∈ c, x.recAt e.1 = some e.2.toRec
  block : ∀ e ∈ c, blockAt y e.2.datoff = some e.2.data ∧ e.2.datlen = blockSize e.2.data

theorem Path.short (hp : Path os x y i c) : c.length < loopFuel := by
  -- the records and their data are one store, and a list that ends in it repeats nothing
  have hstore : InStore (fun o => (x.recAt o).bind fun r =>
      (blockAt y r.datoff).map fun d => ({ r with data := d } : Item)) c := by
    intro e he
    dsimp only
    rw [hp.recAt e he, Option.bind_some, (hp.block e he).1, Option.map_some]
  refine length_lt_fuel (Index.get_split hp.ok hp.head).1 hp.seg (fun e he => ?_)
    (hp.seg.nodup hstore)
  exact (hp.ok.recAt (hp.recAt e he)).ptr

/-! ## A fetch in files that nobody changes -/

/-- A world with these files in which the invariant does not hold, and need not. -/
def World.bare (x : Index) (y : List CString) (os : OS) : World :=
  { World.created with os := os, x := x, y := y, wiped := some 0 }

/-- Only the byte of the chain of `key` may be locked. -/
structure Bare (x : Index) (y : List CString) (key : List Byte) (w : World) : Prop where
  files : Files w
  x : w.x = x
  y : w.y = y
  wiped : w.wiped ≠ none
  locks : ∀ q f t n, Held w.os.locks q f t n → n = (World.chainOf key).byte

theorem Bare.not_inv (h : Bare x y key w) : ¬ Inv P w := by
  intro hinv
  obtain ⟨q, hq⟩ := hinv.guarded.wiped h.wiped
  exact absurd (h.locks _ _ _ _ hq) (Nat.ne_of_lt (byte_pos key))

/-- The chain is what the path says. -/
theorem Path.walks (hp : Path os x y (dbHash NHASH_DEF key) c) :
    Walks (Env.nobody P p) c (Bare x y key) where
  rel := fun _ _ hr h => hr ▸ h
  files := fun _ h => h.files
  recAt := fun _ h e he => h.x.symm ▸ hp.recAt e he
  seg := hp.seg

/-- Giving back the lock in files without an invariant. -/
theorem wpM_unlockBare {call : Call} {H : Fatal → World → Prop} {Q : Unit → DB → World → Prop}
    {off : Int} (h : Bare x y key w) (hq : ∀ w', Q () db w') :
    wpM (rules (Env.nobody P p) call) p (unLock .idxfd off 1) Q H db w := by
  unfold unLock
  refine wpM_unlock fun w₁ hw₁ => ?_
  change w = w₁ at hw₁
  subst hw₁
  exact ⟨w.setLocks _, rfl, fun hinv => absurd hinv h.not_inv, hq _⟩

/-- A fetch walks along the path. -/
theorem wpM_fetchBare {k : CString} (hp : Path os x y (dbHash NHASH_DEF k.val) c)
    (hdb : Opened db) (hw : Bare x y k.val w) (hnone : ∀ q f t n, ¬ Held w.os.locks q f t n) :
    wpM (rules (Env.nobody P p) (.fetch k)) p (dbFetch k) (fun r _ _ => walk k.val c = .ok r)
      (fun e _ => walk k.val c = .error e) db w := by
  have hoff : (dbHash db.nhash k.val : Int) * PTR_SZ + db.hashoff =
      ((Slot.chain (dbHash NHASH_DEF k.val)).off : Nat) := by
    rw [hdb.nhash, hdb.hashoff]
    simp only [Slot.off]
    push_cast
    rfl
  unfold dbFetch dbFindAndLock
  simp only [wpM_bind, wpM_get, wpM_modify, hoff]
  rw [if_neg (by simp), wpM_bind]
  refine wpM_lock fun w₁ table hw₁ hacq => ?_
  change w = w₁ at hw₁
  subst hw₁
  refine ⟨w.setLocks table, rfl, fun hinv => absurd hinv hw.not_inv, ?_⟩
  have hw₁ : Bare x y k.val (w.setLocks table) := by
    refine ⟨⟨hw.files.idx, hw.files.ok, hw.files.dat⟩, hw.x, hw.y, hw.wiped, ?_⟩
    -- the lock that is taken is on the chain of `k`
    intro q f t n hh
    rcases (held_acquire hacq).mp hh with ⟨-, -, -, hn⟩ | ⟨hold, -⟩
    · exact inRange_byte.mp hn
    · exact absurd hold (hnone q f t n)
  simp only [wpM_bind, wpM_pure]
  refine wpM_readptr fun w₂ hw₂ => ?_
  change w.setLocks table = w₂ at hw₂
  subst hw₂
  refine ⟨hw₁.files, start c, hw.x.symm ▸ hp.head, ?_⟩
  refine wpM_findLoop hp.walks ?_ ?_ ?_ c hw₁ (show c = [] ++ c from rfl) hp.short
    ⟨⟨hdb.nhash, hdb.hashoff⟩, rfl⟩ (by simp) (by simp) rfl rfl
  · -- the end of the chain
    intro db' w' hw' hn
    simp only [wpM_pure, wpM_ite, wpM_bind, wpM_get]
    rw [if_pos (by decide)]
    refine wpM_unlockBare hw' fun _ => ?_
    rw [walk_of_clean hn.clean, lookup_eq_none hn.absent]
  · intro c₁ o it c₂ db' w' hw' hf
    -- the key is there
    have ho := hp.seg.ne_nil _ (mem_of_split hf.split)
    have hne : ¬ (o : Int) = 0 := fun h => ho (Int.ofNat_eq_zero.mp h)
    rw [if_neg hne]
    simp only [wpM_pure, wpM_ite, wpM_map, wpM_bind, wpM_get]
    rw [if_neg (by decide)]
    refine wpM_readdat hf.loaded.datoff fun w₂ hw₂ => ?_
    change w' = w₂ at hw₂
    subst hw₂
    obtain ⟨hb, hlen⟩ := hp.block _ (mem_of_split hf.split)
    refine ⟨hw'.files, it.data, hw'.y.symm ▸ hb, hf.loaded.datlen.trans hlen, ?_⟩
    exact wpM_unlockBare hw' fun _ => hf.walk
  · intro w' c₁ o it c₂ _ hc habs hclean hsep
    -- a separator in a key stops the walk, here and there
    rw [hc, walk_skip hclean habs, walk, if_pos hsep]

/-- **What is found.** When the database is opened again, `db_fetch` walks along the path. -/
theorem found_eq {k : CString} (hp : Path os x y (dbHash NHASH_DEF k.val) c) :
    found os k = walk k.val c := by
  have hlocks : ∀ q f t n, ¬ Held ([] : List (RangeLock Pid Fd)) q f t n := by
    rintro q f t n ⟨l, hl, -⟩
    exact absurd hl List.not_mem_nil
  have hbare : Bare x y k.val (World.bare x y { os with locks := [] }) :=
    ⟨⟨hp.idx, hp.ok, hp.dat⟩, rfl, rfl, by simp [World.bare], fun q f t n h => absurd h (hlocks q f t n)⟩
  have hwp := @wpM_fetchBare (fun _ => True) 0 c DB.opened _ os x y k hp opened_opened hbare hlocks
  have hsat := @Prog.wp_exec Op Res Fatal _ OS World (sysStep 0)
    (rules (Env.nobody (fun _ => True) 0) (.fetch k)) (fun _ _ => True) (rules_lawful _ _)
    (fun _ => trivial) (fun _ _ _ _ _ => trivial) (fun _ _ _ _ => trivial) (Alone 0) _ _
    (fun o os => alone_step o os) ((dbFetch k).run DB.opened) (World.bare x y { os with locks := [] })
    (fun l hl => absurd hl List.not_mem_nil) hwp
  unfold found
  rw [StateT.run_bind, Prog.exec_bind, exec_reopen]
  change Outcome.Sat _ _ (exec (sysStep 0) ((dbFetch k).run DB.opened) { os with locks := [] }) at hsat
  dsimp only
  cases hrun : exec (sysStep 0) ((dbFetch k).run DB.opened) { os with locks := [] } with
  | done a os' =>
    rw [hrun] at hsat
    obtain ⟨_, _, _, _, hr⟩ := hsat
    exact hr.symm
  | halted e os' =>
    rw [hrun] at hsat
    obtain ⟨_, _, _, _, hr⟩ := hsat
    exact hr.symm
  | blocked os' =>
    rw [hrun] at hsat
    exact hsat.elim

/-! ## The paths of a world -/

/-- A chain at rest can be followed. -/
theorem Inv.path (h : Inv P w) (hi : i < NHASH_DEF) (hg : w.gap i = none) :
    Path w.os w.x w.y i (w.cells (.chain i)) := by
  have hthread := (h.lists.chain i hi).thread
  rw [hg] at hthread
  obtain ⟨a, ha, hseg⟩ := hthread
  have hstart : a = start (w.cells (.chain i)) := hseg.start
  subst hstart
  exact ⟨h.files.idx, h.files.ok, h.files.dat, ha, hseg, fun e he => h.placed.recAt he,
    fun e he => ⟨h.placed.block he, h.placed.len _ e he⟩⟩

/-- A chain with a gap leads into the deleted records. -/
theorem Inv.path_gap (h : Inv P w) (hi : i < NHASH_DEF) (hg : w.gap i = some g) :
    Path w.os w.x w.y i (g.front ++ g.stray) ∧ (∀ e ∈ g.stray, Blank e.2.key) ∧
      w.cells (.chain i) = g.front ++ g.back := by
  have hthread := (h.lists.chain i hi).thread
  rw [hg] at hthread
  obtain ⟨hc, -, hstray, hblank, a, ha, hfront⟩ := hthread
  have hseg : Seg 0 link a (g.front ++ g.stray) 0 := seg_append.mpr ⟨_, hfront, hstray⟩
  have hstart : a = start (g.front ++ g.stray) := hseg.start
  subst hstart
  -- every cell of the path is in some list
  have hmem : ∀ e ∈ g.front ++ g.stray, ∃ ℓ, e ∈ w.cells ℓ := by
    intro e he
    rcases List.mem_append.mp he with he | he
    · exact ⟨.chain i, hc ▸ List.mem_append_left _ he⟩
    · obtain ⟨q, -, -, hs | ⟨e', he', hs⟩⟩ := h.guarded.gap i g hg
      · exact ⟨.free, hs ▸ he⟩
      · rw [hs] at he
        rcases List.mem_cons.mp he with rfl | he
        · exact ⟨.hand q, he'⟩
        · exact ⟨.free, he⟩
  refine ⟨⟨h.files.idx, h.files.ok, h.files.dat, ha, hseg, ?_, ?_⟩, hblank, hc⟩
  · intro e he
    obtain ⟨ℓ, hℓ⟩ := hmem e he
    exact h.placed.recAt hℓ
  · intro e he
    obtain ⟨ℓ, hℓ⟩ := hmem e he
    exact ⟨h.placed.block hℓ, h.placed.len _ e hℓ⟩

/-! ## Reachable states -/

/-- The states of the database, with the process that has it open and its handle: a process
creates it and makes calls; when it ends, or a check has ended it, a later one opens the
database again. -/
inductive Reach (P : List Byte → Prop) : Pid → DB → OS → Prop where
  | create {p : Pid} {idx dat : List Byte} {db db' : DB} {os : OS}
      (h : (Call.open true true).run p db ⟨idx, dat, []⟩ = .done (.unit, db') os) : Reach P p db' os
  | call {p : Pid} {db db' : DB} {os os' : OS} {c : Call} {r : Ret} (hr : Reach P p db os)
      (hc : c.OnMap P) (h : c.run p db os = .done (r, db') os') : Reach P p db' os'
  | exit {p q : Pid} {db db₁ db' : DB} {os os' : OS} (hr : Reach P p db os) (hpq : p < q)
      (h : (Call.open false false).run q db₁ { os with locks := [] } = .done (.unit, db') os') :
      Reach P q db' os'
  | stop {p q : Pid} {db db₁ db' : DB} {os os₁ os' : OS} {c : Call} {e : Fatal}
      (hr : Reach P p db os) (hc : c.OnMap P) (hstop : c.run p db os = .halted e os₁) (hpq : p < q)
      (h : (Call.open false false).run q db₁ { os₁ with locks := [] } = .done (.unit, db') os') :
      Reach P q db' os'

theorem releaseAll_alone (ha : Alone p os) : RangeLock.releaseAll os.locks p = [] := by
  unfold RangeLock.releaseAll
  rw [List.filter_eq_nil_iff]
  intro l hl
  simp [ha l hl]

/-- When a process alone has ended, the next one finds the database in order. -/
theorem Leaves.solo (h : Leaves P p w) (ha : Alone p w.os) (hpq : p < q)
    (hands : ∀ r, p ≤ r → r ≠ p → w.cells (.hand r) = [] ∧ w.pend r = []) :
    ∃ w', w'.os = { w.os with locks := [] } ∧ Solo P (· < q) q w' := by
  refine ⟨w.exit p False, ?_, ⟨⟨Inv.exit h (fun hf => hf.elim), ?_, ?_, ?_⟩, ?_, ?_⟩⟩
  · show (⟨w.os.idx, w.os.dat, RangeLock.releaseAll w.os.locks p⟩ : OS) = _
    rw [releaseAll_alone ha]
  · rintro f t n ⟨l, hl, -⟩
    change l ∈ RangeLock.releaseAll w.os.locks p at hl
    rw [releaseAll_alone ha] at hl
    exact absurd hl List.not_mem_nil
  · exact (hands q (Nat.le_of_lt hpq) (Nat.ne_of_gt hpq)).1
  · exact (hands q (Nat.le_of_lt hpq) (Nat.ne_of_gt hpq)).2
  · intro l hl
    change l ∈ RangeLock.releaseAll w.os.locks p at hl
    rw [releaseAll_alone ha] at hl
    exact absurd hl List.not_mem_nil
  · intro r hr
    have hle : q ≤ r := Nat.not_lt.mp hr
    have hlt : p < r := Nat.lt_of_lt_of_le hpq hle
    exact hands r (Nat.le_of_lt hlt) (Nat.ne_of_gt hlt)

/-- **Every reachable state is in order.** -/
theorem Reach.solo (h : Reach P p db os) :
    ∃ w, w.os = os ∧ Solo P (· < p) p w ∧ Opened db := by
  induction h with
  | create h =>
    rw [run_open (exec_create _ _ _ _)] at h
    cases h
    exact ⟨World.created, rfl, Solo.created _, opened_opened⟩
  | call hr hc hrun ih =>
    obtain ⟨w, rfl, hw, hdb⟩ := ih
    have hcall := hw.call hdb hc
    rw [hrun] at hcall
    obtain ⟨w', rfl, hw', hdb', -⟩ := hcall
    exact ⟨w', rfl, hw', hdb'⟩
  | exit hr hpq hrun ih =>
    obtain ⟨w, rfl, hw, -⟩ := ih
    rw [run_open (exec_reopen _ _ _)] at hrun
    cases hrun
    obtain ⟨w', hos, hw'⟩ := hw.toIdle.ready.leaves.solo hw.alone hpq
      fun r hr _ => hw.hands r (Nat.not_lt.mpr hr)
    exact ⟨w', hos, hw', opened_opened⟩
  | stop hr hc hstop hpq hrun ih =>
    obtain ⟨w, rfl, hw, hdb⟩ := ih
    have hcall := hw.call hdb hc
    rw [hstop] at hcall
    obtain ⟨w', rfl, ha, hran, hl, -⟩ := hcall
    rw [run_open (exec_reopen _ _ _)] at hrun
    cases hrun
    obtain ⟨w'', hos, hw''⟩ := hl.solo ha hpq fun r hr hne => by
      obtain ⟨hcells, hpend⟩ := hran.hands r hne
      obtain ⟨hc₀, hp₀⟩ := hw.hands r (Nat.not_lt.mpr hr)
      exact ⟨hcells.trans hc₀, hpend.trans hp₀⟩
    exact ⟨w'', hos, hw'', opened_opened⟩

/-- **The files of every reachable state**, also behind calls that a check has ended. -/
theorem Reach.chained (h : Reach P p db os) : ∃ x y cells, Chained os x y cells := by
  obtain ⟨w, rfl, hw, -⟩ := h.solo
  exact ⟨w.x, w.y, w.cells, hw.chained⟩

/-- A new database. -/
theorem Reach.created (p : Pid) : Reach P p DB.opened OS.created :=
  .create (run_open (exec_create p [] [] {}))

/-- The files after a call, when its process has ended. -/
def OS.after (os : OS) (p : Pid) (c : Call) : OS :=
  { (c.run p DB.opened os).state with locks := [] }

/-- The next process finds them. -/
theorem Reach.after (hr : Reach P p DB.opened os) {c : Call} (hc : c.OnMap P)
    (hdone : (match c.run p DB.opened os with | .done _ _ => true | _ => false) = true) :
    Reach P (p + 1) DB.opened (os.after p c) := by
  unfold OS.after
  cases hrun : c.run p DB.opened os with
  | done a os' => exact .exit (.call hr hc hrun) (Nat.lt_succ_self p) (run_open (exec_reopen _ _ {}))
  | halted e os' =>
    rw [hrun] at hdone
    exact absurd hdone (by simp)
  | blocked os' =>
    rw [hrun] at hdone
    exact absurd hdone (by simp)

end LearningNotes.Db
