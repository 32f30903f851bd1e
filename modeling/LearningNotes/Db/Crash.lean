import LearningNotes.Db.Reopen

/-!
# Calls that are not completed

What is left of the database when a call does not get to its end: because one of its checks
refuses to go on (`store_kept_iff`), or because the process is killed between two system calls
(`fetch_after_kill`).

A store that is refused changes nothing, with one exception. A replacement by data of another
length deletes the old record before the new one passes its checks; if it does not pass them,
the key is gone (`Lossy`).

A kill can only harm keys that share the chain: while `_db_dodelete` has not closed the chain
yet, the keys behind the deleted one are out of reach.
-/

namespace LearningNotes.Db

open Prog (exec Outcome)

variable {P : List Byte → Prop} {p : Pid} {dead : Pid → Prop} {c : Call} {db : DB}
  {w w' : World} {os os' : OS} {key : List Byte}

/-- The two states of the files say the same of every key. -/
def SameMap (os os' : OS) : Prop := ∀ k, found os' k = found os k

/-! ## Refused stores -/

/-- The store would replace data of another length, and there is no room for the new record. -/
def Lossy (os : OS) (key data : CString) (flag : Int) : Prop :=
  (LegalFlag flag ∧ flag ≠ DB_INSERT) ∧
    (DATLEN_MIN ≤ data.val.length + 1 ∧ data.val.length + 1 ≤ DATLEN_MAX) ∧
    (∃ d, found os key = .ok (some d) ∧ data.val.length ≠ d.length) ∧
    ¬ RoomFor key.val data os.idx.length os.dat.length

/-- Alone, a process that ends has no chain open. -/
theorem Leaves.gap (h : Leaves P p w) (ha : Alone p w.os) (i : Nat) : w.gap i = none := by
  cases hg : w.gap i with
  | none => rfl
  | some g =>
    obtain ⟨q, hq, -⟩ := h.inv.guarded.gap i g hg
    obtain ⟨l, hl, ho, hrest⟩ := hq
    have hqp : q = p := ho.symm.trans (ha l hl)
    have howns : w.Owns p (.chain i) := ⟨l, hl, ho.trans hqp, hrest⟩
    rw [h.calm i howns] at hg
    exact absurd hg (by simp)

/-- In a world with no gap, what is found is what a walk along the chain finds. -/
theorem Inv.found (h : Inv P w) (hg : ∀ i, w.gap i = none) (k : CString) :
    found w.os k = walk k.val (w.cells (World.chainOf k.val)) :=
  found_eq (h.path (dbHash_lt k.val) (hg _))

/-- A call that leaves its chain as it was says the same of every key. -/
theorem Ran.sameMap (h : Ran P p c w w') (hinv : Inv P w) (hkey : c.key? = some key)
    (hg : ∀ i, w.gap i = none) (hg' : ∀ i, w'.gap i = none)
    (hcells : w'.cells (World.chainOf key) = w.cells (World.chainOf key)) :
    SameMap w.os w'.os := by
  intro k
  rw [h.inv.found hg', hinv.found hg]
  by_cases hh : dbHash NHASH_DEF key = dbHash NHASH_DEF k.val
  · have hch : World.chainOf k.val = World.chainOf key := congrArg Place.chain hh.symm
    rw [hch, hcells]
  · have hhome := h.home (dbHash NHASH_DEF k.val) fun k' hk' => by
      have hk : key = k' := Option.some.inj (hkey.symm.trans hk')
      exact hk ▸ hh
    rw [hhome]

/-- A key with a separator in a chain stops every walk. -/
theorem Inv.walk_error (h : Inv P w) {k : List Byte}
    (hs : ∃ e ∈ w.cells (World.chainOf k), SEP ∈ e.2.key) :
    walk k (w.cells (World.chainOf k)) = .error .readidxTooManySeps := by
  obtain ⟨e, he, hsep⟩ := hs
  have hclean := (h.lists.chain _ (dbHash_lt k)).clean
  cases hc : w.cells (World.chainOf k) with
  | nil =>
    rw [hc] at he
    exact absurd he List.not_mem_nil
  | cons e₀ c₀ =>
    obtain ⟨o, it⟩ := e₀
    rw [hc] at he hclean
    rcases List.mem_cons.mp he with rfl | he
    · rw [walk, if_pos hsep]
    · exact absurd hsep (hclean e he)

/-- What is known when a store with a legal flag has ended, one way or the other. -/
theorem Solo.store (h : Solo P dead p w) (hdb : Opened db) {k d : CString} {flag : Int}
    (hP : P k.val) (hflag : LegalFlag flag) :
    ((Call.store k d flag).run p db w.os).Sat
      (fun a os' => ∃ w', w'.os = os' ∧ Ran P p (.store k d flag) (w.begin p) w' ∧
        (∀ i, w'.gap i = none) ∧
        (flag ≠ DB_INSERT → Resizes (w.view k.val) d →
          RoomFor k.val d w.os.idx.length w.os.dat.length) ∧
        (a.1 ≠ .rc 0 → w'.cells (World.chainOf k.val) = w.cells (World.chainOf k.val)))
      (fun e os' => ∃ w', w'.os = os' ∧ Ran P p (.store k d flag) (w.begin p) w' ∧
        (∀ i, w'.gap i = none) ∧ StoreStop (Env.nobody P p) (w.begin p) k.val d flag w' e) := by
  have hready := h.toIdle.ready
  have halone : Alone p (w.begin p).os := h.alone
  have hE : (Env.nobody P p).Alone := by
    intro _ _ hw
    exact hw.symm
  have hwp : wpM (rules (Env.nobody P p) (.store k d flag)) p (Call.store k d flag).prog
      (fun r _ w' => Idle P p w' ∧ (flag ≠ DB_INSERT → Resizes (w.view k.val) d →
          RoomFor k.val d w.os.idx.length w.os.dat.length) ∧
        (r ≠ .rc 0 → w'.cells (World.chainOf k.val) = w.cells (World.chainOf k.val)))
      (fun e w' => Leaves P p w' ∧ StoreStop (Env.nobody P p) (w.begin p) k.val d flag w' e)
      db (w.begin p) := by
    unfold Call.prog
    simp only [wpM_bind, wpM_pure]
    refine wpM_storeEnds hready hdb hP hflag ?_ ?_
    · intro w₀ db' w' hw₀ _ hd hroom hcells
      have hw : w₀ = w.begin p := hE _ _ hw₀
      subst hw
      refine ⟨hd.idle, fun hins hres => ?_, fun hne => hcells fun hrc => hne (congrArg Ret.rc hrc)⟩
      have hroom' := hroom hE hins hres
      rwa [← hready.inv.length_idx] at hroom'
    · intro w₀ e w' hw₀ hl hs
      have hw : w₀ = w.begin p := hE _ _ hw₀
      subst hw
      exact ⟨hl, hs⟩
  refine (sat_alone halone hready.inv hwp).mono ?_ ?_
  · rintro a os' ⟨w', rfl, ha, hran, hidle, hrest⟩
    have hsolo : Solo P dead p w' := ⟨hidle, ha, hran.hands_nil hidle h.hands⟩
    exact ⟨w', rfl, hran, hsolo.gap, hrest⟩
  · rintro e os' ⟨w', rfl, ha, hran, hl, hs⟩
    exact ⟨w', rfl, hran, hl.gap ha, hs⟩

section Store

variable {k d : CString} {flag : Int} (h : Solo P dead p w) (hdb : Opened db) (hP : P k.val)

include h hdb hP

/-- A store that loses nothing keeps the map when it is refused. -/
theorem Solo.store_kept (hno : ¬ Lossy w.os k d flag) :
    ((Call.store k d flag).run p db w.os).Sat
      (fun a os' => a.1 ≠ .rc 0 → SameMap w.os os') (fun _ os' => SameMap w.os os') := by
  by_cases hflag : LegalFlag flag
  swap
  · -- a bad flag makes no system call
    have hbad : flag ≠ DB_INSERT ∧ flag ≠ DB_REPLACE ∧ flag ≠ DB_STORE := by
      unfold LegalFlag at hflag
      rw [not_or, not_or] at hflag
      exact hflag
    have hstore : dbStore k d flag = pure (-1) := if_pos hbad
    have hrun : (Call.store k d flag).run p db w.os = .done (.rc (-1), db) w.os := by
      show exec (sysStep p) ((do return Ret.rc (← dbStore k d flag)).run db) w.os = _
      rw [hstore]
      rfl
    rw [hrun]
    intro _ _
    rfl
  have hgap : ∀ i, (w.begin p).gap i = none := h.gap
  have hinv := h.inv.begin p
  refine (h.store hdb hP hflag).mono ?_ ?_
  · rintro a os' ⟨w', rfl, hran, hg, -, hcells⟩ hne
    exact hran.sameMap hinv rfl hgap hg (hcells hne)
  · rintro e os' ⟨w', rfl, hran, hg, hs⟩
    cases hs with
    | length hlen hw => exact hran.sameMap hinv rfl hgap hg (hw ▸ rfl)
    | sep hcells _ _ => exact hran.sameMap hinv rfl hgap hg hcells
    | room b he hdat hroom hat =>
      cases b with
      | false => exact hran.sameMap hinv rfl hgap hg hat.2
      | true =>
        obtain ⟨hins, ⟨old, hold, hne⟩, hwalk, -⟩ := hat
        refine absurd ⟨⟨hflag, hins⟩, hdat, ⟨old, ?_, hne⟩, ?_⟩ hno
        · rw [h.inv.found h.gap]
          exact hwalk.trans (congrArg Except.ok hold)
        · have hE : (Env.nobody P p).Alone := by
            intro _ _ hw
            exact hw.symm
          rw [h.inv.length_idx]
          exact hroom hE

/-- A lossy store loses the key. -/
theorem Solo.store_lost (hl : Lossy w.os k d flag) :
    ¬ ((Call.store k d flag).run p db w.os).Sat
      (fun a os' => a.1 ≠ .rc 0 → SameMap w.os os') (fun _ os' => SameMap w.os os') := by
  obtain ⟨⟨hflag, hins⟩, hlen, ⟨old, hold, hne⟩, hroom⟩ := hl
  rw [h.inv.found h.gap] at hold
  have hview : w.view k.val = some old := lookup_of_walk hold
  intro hsat
  have hstore := h.store hdb hP (d := d) hflag
  cases hrun : (Call.store k d flag).run p db w.os with
  | blocked os' =>
    rw [hrun] at hsat
    exact hsat
  | done a os' =>
    rw [hrun] at hstore
    obtain ⟨_, _, _, _, hfit, _⟩ := hstore
    exact hroom (hfit hins ⟨old, hview, hne⟩)
  | halted e os' =>
    rw [hrun] at hstore hsat
    obtain ⟨w', rfl, hran, hg, hs⟩ := hstore
    cases hs with
    | length hlen' _ => exact hlen' hlen
    | sep _ hs _ =>
      have herr := h.inv.walk_error (k := k.val) hs
      rw [hold] at herr
      exact absurd herr (by simp)
    | room b _ _ _ hat =>
      cases b with
      | false =>
        have hnone := hat.1
        rw [show (w.begin p).view k.val = w.view k.val from rfl, hview] at hnone
        exact absurd hnone (by simp)
      | true =>
        have hsame := hsat k
        rw [hran.inv.found hg, hat.2.2.2, h.inv.found h.gap, hold] at hsame
        exact absurd hsame (by simp)

end Store

/-- **A refused store keeps the map**, exactly when it does not replace a record whose
successor does not fit. -/
theorem store_kept_iff (h : Reach (fun _ => True) p db os) (key data : CString) (flag : Int) :
    ((Call.store key data flag).run p db os).Sat
      (fun a os' => a.1 ≠ .rc 0 → SameMap os os') (fun _ os' => SameMap os os') ↔
    ¬ Lossy os key data flag := by
  obtain ⟨w, rfl, hw, hdb⟩ := h.solo
  constructor
  · intro hsat hl
    exact hw.store_lost hdb trivial hl hsat
  · exact hw.store_kept hdb trivial

/-- The files behind a store of a new pair, when its process has ended. -/
def OS.stored (os : OS) (p : Pid) (key data : CString) : OS :=
  { ((Call.store key data DB_INSERT).run p DB.opened os).state with locks := [] }

/-- The next process finds them. -/
theorem Reach.stored (hr : Reach P p DB.opened os) {key data : CString} (hP : P key.val)
    (hdone : (match (Call.store key data DB_INSERT).run p DB.opened os with
      | .done _ _ => true | _ => false) = true) :
    Reach P (p + 1) DB.opened (os.stored p key data) :=
  hr.after (show (Call.store key data DB_INSERT).OnMap P from hP) hdone

/-- `n` letters. -/
def letters (n : Nat) : CString :=
  ⟨List.replicate n 97, fun h => absurd (List.eq_of_mem_replicate h) (by decide)⟩

/-- A database with one record, of the greatest length. -/
def OS.full : OS := OS.created.stored 0 (letters 1019) (letters 8)

set_option maxRecDepth 100000 in
/-- The full database is reached. -/
theorem reach_full : Reach (fun _ => True) 1 DB.opened OS.full :=
  (Reach.created 0).stored trivial (by decide +kernel)

/-- The case of a replacement in this database. -/
theorem store_kept_full :
    ((Call.store (letters 1019) (letters 9) DB_REPLACE).run 1 DB.opened OS.full).Sat
      (fun a os' => a.1 ≠ .rc 0 → SameMap OS.full os') (fun _ os' => SameMap OS.full os') ↔
    ¬ Lossy OS.full (letters 1019) (letters 9) DB_REPLACE :=
  store_kept_iff reach_full _ _ _

set_option maxRecDepth 100000 in
/-- One more byte of data, and the replacement loses the record. -/
theorem store_kept_false :
    ¬ ∀ (p : Pid) (db : DB) (os : OS), Reach (fun _ => True) p db os →
      ∀ (key data : CString) (flag : Int), ((Call.store key data flag).run p db os).Sat
        (fun a os' => a.1 ≠ .rc 0 → SameMap os os') (fun _ os' => SameMap os os') := by
  intro hall
  obtain ⟨w, hw, hsolo, hdb⟩ := reach_full.solo
  have hsat := hall 1 DB.opened OS.full reach_full (letters 1019) (letters 9) DB_REPLACE
  rw [← hw] at hsat
  refine hsolo.store_lost hdb trivial ?_ hsat
  rw [hw]
  -- data of 9 bytes instead of 8, and its offset and its length have another digit
  refine ⟨⟨Or.inr (Or.inl rfl), by decide⟩, by decide +kernel, ⟨(letters 8).val, ?_, ?_⟩, ?_⟩
  · decide +kernel
  · decide +kernel
  · decide +kernel

/-! ## A process that is killed -/

/-- The chain of `key` is cut at its record `o`: that record has been overwritten by `it'`, a deleted one
of the same size with the pointer to the free list, and the pointer that leads to it has not been
rewritten. So what was in front of it, `front`, now leads to deleted records, and nothing leads to what
was behind it, `c₂`. -/
structure Torn (os os' : OS) (key : List Byte) (c₁ : List Cell) (o : Nat) (it : Item)
    (c₂ front : List Cell) (it' : Item) (free : List Cell) : Prop where
  before : ∃ x y, Path os x y (dbHash NHASH_DEF key) (c₁ ++ (o, it) :: c₂)
  same : it.key = key
  after : ∃ x y, Path os' x y (dbHash NHASH_DEF key) (front ++ (o, it') :: free) ∧
    (x.get .free = some it'.ptr ∨ x.get .free = some o) ∧
    ∀ e ∈ c₂, ∃ r, x.recAt e.1 = some r ∧ r.key = e.2.key
  front : front.map label = c₁.map label
  size : it.toRec.Same it'.toRec
  blank : Blank it'.key
  free : ∀ e ∈ free, Blank e.2.key

/-- A list of labels splits as its cells do. -/
theorem split_of_labels {cs : List Cell} {o : Nat} {k : List Byte} {ls₁ ls₂ : List (Nat × List Byte)}
    (h : cs.map label = ls₁ ++ (o, k) :: ls₂) :
    ∃ c₁ it c₂, cs = c₁ ++ (o, it) :: c₂ ∧ it.key = k ∧ c₁.map label = ls₁ ∧ c₂.map label = ls₂ := by
  obtain ⟨c₁, rest, rfl, h₁, h₂⟩ := List.map_eq_append_iff.mp h
  obtain ⟨⟨o', it⟩, c₂, rfl, hk, h₃⟩ := List.map_eq_cons_iff.mp h₂
  cases hk
  exact ⟨c₁, it, c₂, rfl, rfl, h₁, h₃⟩

/-- The same records have the same keys. -/
theorem keys_of_labels {c c' : List Cell} (h : c.map label = c'.map label) :
    c.map (·.2.key) = c'.map (·.2.key) := by
  have hmap : ∀ c : List Cell, c.map (·.2.key) = (c.map label).map Prod.snd := by
    intro c
    rw [List.map_map]
    rfl
  rw [hmap, hmap, h]

/-- Behind the front of an open chain stands the record that is being unlinked, and behind that one the
free list. -/
theorem Inv.gap_free (h : Inv P w) {i : Nat} {g : Gap} (hi : i < NHASH_DEF) (hg : w.gap i = some g)
    (hpos : g.dst ≠ 0) : ∃ it' free, g.stray = (g.dst, it') :: free ∧
      (w.x.get .free = some it'.ptr ∨ w.x.get .free = some g.dst) := by
  have hthread := (h.lists.chain i hi).thread
  rw [hg] at hthread
  obtain ⟨-, -, hstray, -, -⟩ := hthread
  obtain ⟨f, hf, hfree⟩ := h.lists.free.thread
  cases hs : g.stray with
  | nil =>
    rw [hs] at hstray
    exact absurd hstray hpos
  | cons e free =>
    obtain ⟨o, it'⟩ := e
    rw [hs] at hstray
    obtain ⟨rfl, -, hrest⟩ := hstray
    refine ⟨it', free, rfl, ?_⟩
    obtain ⟨q, -, -, heq | ⟨e, -, heq⟩⟩ := h.guarded.gap i g hg
    · -- the record is on the free list already
      rw [← heq, hs] at hfree
      exact Or.inr (hf.trans (congrArg some hfree.1))
    · rw [hs] at heq
      obtain ⟨-, rfl⟩ := List.cons.inj heq
      exact Or.inl (hf.trans (congrArg some (hfree.start.trans hrest.start.symm)))

/-- What a lookup finds where the chain is cut. -/
theorem walk_torn {k : List Byte} {front back stray : List Cell} (hk : ¬ Blank k)
    (hstray : ∀ e ∈ stray, Blank e.2.key) (hback : ∀ e ∈ back, SEP ∉ e.2.key)
    (hfront : k ∈ back.map (·.2.key) → walk k front = .ok none) :
    walk k (front ++ stray) =
      if k ∈ back.map (·.2.key) then .ok none else walk k (front ++ back) := by
  have hs : walk k stray = .ok none := by
    rw [walk_of_clean fun e he hs => absurd (hstray e he SEP hs) (by decide), lookup_eq_none]
    intro hmem
    obtain ⟨e, he, rfl⟩ := List.mem_map.mp hmem
    exact hk (hstray e he)
  rw [walk_append, hs]
  by_cases hmem : k ∈ back.map (·.2.key)
  · rw [if_pos hmem, hfront hmem]
  · rw [if_neg hmem, walk_append, walk_of_clean hback, lookup_eq_none hmem]

/-- What a property of keys says of cells, it says of other cells with the same keys. -/
theorem forall_keys {R : List Byte → Prop} {c c' : List Cell}
    (h : c.map (·.2.key) = c'.map (·.2.key)) (hc : ∀ e ∈ c, R e.2.key) : ∀ e ∈ c', R e.2.key := by
  intro e he
  have hmem : e.2.key ∈ c.map (·.2.key) := h ▸ List.mem_map_of_mem he
  obtain ⟨e', he', hk⟩ := List.mem_map.mp hmem
  exact hk ▸ hc e' he'

/-- The front of a chain has no separators, or nobody gets past its first key. -/
theorem ChainOk.front {head : Option Nat} {g : Option Gap} {c₁ c₂ front : List Cell} {i : Nat}
    (h : ChainOk P i head (c₁ ++ c₂) g) (hf : front.map (·.2.key) = c₁.map (·.2.key)) :
    (∀ e ∈ front, SEP ∉ e.2.key) ∨
      ((∃ e ∈ c₁ ++ c₂, SEP ∈ e.2.key) ∧ ∀ k c, walk k (front ++ c) = .error .readidxTooManySeps) := by
  cases front with
  | nil => exact Or.inl fun e he => absurd he List.not_mem_nil
  | cons e front =>
    obtain ⟨o, it⟩ := e
    obtain ⟨⟨o', it'⟩, c₁', rfl, hk, hf'⟩ := List.map_eq_cons_iff.mp hf.symm
    have hk : it'.key = it.key := hk
    by_cases hs : SEP ∈ it.key
    · refine Or.inr ⟨⟨_, List.mem_cons_self .., hk ▸ hs⟩, fun k c => ?_⟩
      show walk k ((o, it) :: (front ++ c)) = _
      rw [walk, if_pos hs]
    · refine Or.inl fun e he => ?_
      rcases List.mem_cons.mp he with rfl | he
      · exact hs
      · exact @forall_keys (SEP ∉ ·) _ _ hf' (fun e he => h.clean e (List.mem_append_left _ he)) e he

section Kill

variable {t : World} (hw : Solo P dead p w) (hran : Ran P p c (w.begin p) t)
  (hkey : c.key? = some key)

include hw hran hkey

/-- The other chains are as they were. -/
theorem Ran.elsewhere {k : CString} (hh : dbHash NHASH_DEF key ≠ dbHash NHASH_DEF k.val) :
    found t.os k = found w.os k := by
  have hne : ∀ k', c.key? = some k' → dbHash NHASH_DEF k' ≠ dbHash NHASH_DEF k.val := by
    intro k' hk'
    have hk : key = k' := Option.some.inj (hkey.symm.trans hk')
    exact hk ▸ hh
  have hgap : t.gap (dbHash NHASH_DEF k.val) = none := (hran.gap _ hne).trans (hw.gap _)
  rw [hw.inv.found hw.gap, found_eq (hran.inv.path (dbHash_lt k.val) hgap), hran.home _ hne]
  rfl

/-- While the chain of the key is not open, the other keys are found as before. -/
theorem Ran.others (hsep : SEP ∉ key) (hg : t.gap (dbHash NHASH_DEF key) = none) (k : CString)
    (hk : k.val ≠ key) : found t.os k = found w.os k := by
  by_cases hh : dbHash NHASH_DEF key = dbHash NHASH_DEF k.val
  · have hch : World.chainOf k.val = World.chainOf key := congrArg Place.chain hh.symm
    have hpath := hran.inv.path (dbHash_lt k.val) (hh ▸ hg)
    rw [hw.inv.found hw.gap, found_eq hpath, hch, ← hh]
    exact hran.rest key hkey hsep _ hk
  · exact hran.elsewhere hw hkey hh

/-- No pointer has been set while the chain is open, so its records are in the order they had. -/
theorem Ran.labels {g : Gap} (hg : t.gap (dbHash NHASH_DEF key) = some g) :
    (w.cells (World.chainOf key)).map label =
      g.front.map label ++ (g.dst, key) :: g.back.map label := by
  have hmoved : t.moved p = false := by
    cases hm : t.moved p with
    | false => rfl
    | true =>
      rcases hran.shut key hkey hm with hnone | ⟨hm₀, -⟩
      · rw [hg] at hnone
        exact absurd hnone (by simp)
      · exact absurd (hm₀.symm.trans (Function.update_self ..)) (by simp)
  have h₁ := (hran.order key hkey hmoved).2
  have h₂ : (w.begin p).order key = (w.cells (World.chainOf key)).map label := by
    unfold World.order
    rw [show (w.begin p).gap (dbHash NHASH_DEF key) = none from hw.gap _]
    rfl
  have h₃ : t.order key = g.front.map label ++ (g.dst, key) :: g.back.map label := by
    unfold World.order
    rw [hg]
  rw [← h₂, ← h₁, h₃]

omit hkey in
/-- An open chain is cut at the record that is being unlinked. -/
theorem Ran.torn {g : Gap} (hg : t.gap (dbHash NHASH_DEF key) = some g) {c₁ c₂ : List Cell} {it : Item}
    (hsplit : w.cells (World.chainOf key) = c₁ ++ (g.dst, it) :: c₂) (hit : it.key = key)
    (hl₁ : c₁.map label = g.front.map label) (hl₂ : c₂.map label = g.back.map label) :
    ∃ it' free, Torn w.os t.os key c₁ g.dst it c₂ g.front it' free := by
  obtain ⟨hpath, hstray, hcells⟩ := hran.inv.path_gap (dbHash_lt key) hg
  have hrec : w.x.recAt g.dst = some it.toRec := hw.inv.placed.recAt (mem_of_split hsplit)
  obtain ⟨it', free, hdst, hfree⟩ := hran.inv.gap_free (dbHash_lt key) hg (recAt_pos hrec)
  rw [hdst] at hpath hstray
  have hnew : t.x.recAt g.dst = some it'.toRec :=
    hpath.recAt (g.dst, it') (List.mem_append_right _ List.mem_cons_self)
  obtain ⟨r, hr, hsize⟩ := hran.shape g.dst _ hrec
  cases hnew.symm.trans hr
  refine ⟨it', free, ⟨_, _, hsplit ▸ hw.inv.path (dbHash_lt key) (hw.gap _)⟩, hit,
    ⟨_, _, hpath, hfree, fun e he => ?_⟩, hl₁.symm, hsize, hstray _ List.mem_cons_self,
    fun e he => hstray e (List.mem_cons_of_mem _ he)⟩
  -- the records behind are still there
  obtain ⟨e', he', hlabel⟩ : ∃ e' ∈ g.back, label e' = label e :=
    List.mem_map.mp (hl₂ ▸ List.mem_map_of_mem he)
  obtain ⟨hoff, hkey'⟩ := Prod.mk.inj hlabel
  have hmem : e' ∈ t.cells (.chain (dbHash NHASH_DEF key)) := hcells ▸ List.mem_append_right _ he'
  exact ⟨_, hoff ▸ hran.inv.placed.recAt hmem, hkey'⟩

/-- While the chain is open, the keys behind the record are not found; or the first key has a separator,
and every lookup stops there as before. -/
theorem Ran.open (hsep : SEP ∉ key) {g : Gap} (hg : t.gap (dbHash NHASH_DEF key) = some g) :
    (∀ k : CString, k.val ≠ key → found t.os k = found w.os k) ∨
      ∃ c₁ o it c₂ front it' free, Torn w.os t.os key c₁ o it c₂ front it' free ∧
        ∀ k : CString, k.val ≠ key → ¬ Blank k.val →
          found t.os k = if k.val ∈ c₂.map (·.2.key) then .ok none else found w.os k := by
  obtain ⟨hpath, hstray, hcells⟩ := hran.inv.path_gap (dbHash_lt key) hg
  obtain ⟨c₁, it, c₂, hsplit, hit, hl₁, hl₂⟩ := split_of_labels (hran.labels hw hkey hg)
  have hk₁ := keys_of_labels hl₁
  have hk₂ := keys_of_labels hl₂
  have hchain := hw.inv.lists.chain _ (dbHash_lt key)
  rw [show w.cells (.chain (dbHash NHASH_DEF key)) = c₁ ++ (g.dst, it) :: c₂ from hsplit] at hchain
  -- what is found in the chain of `key`, now and before
  have hnow : ∀ k : CString, dbHash NHASH_DEF key = dbHash NHASH_DEF k.val →
      found t.os k = walk k.val (g.front ++ g.stray) := by
    intro k hh
    exact found_eq (hh ▸ hpath)
  have hthen : ∀ k : CString, dbHash NHASH_DEF key = dbHash NHASH_DEF k.val →
      found w.os k = walk k.val (w.cells (World.chainOf key)) := by
    intro k hh
    rw [hw.inv.found hw.gap,
      show World.chainOf k.val = World.chainOf key from congrArg Place.chain hh.symm]
  rcases hchain.front hk₁.symm with hclean | ⟨hs, herr⟩
  · have hback : ∀ e ∈ g.back, SEP ∉ e.2.key := by
      refine @forall_keys (SEP ∉ ·) _ _ hk₂ fun e he => hchain.clean e ?_
      cases c₁ with
      | nil => exact he
      | cons e₁ c₁ => exact List.mem_append_right _ (List.mem_cons_of_mem _ he)
    obtain ⟨it', free, htorn⟩ := hran.torn hw hg hsplit hit hl₁ hl₂
    refine Or.inr ⟨c₁, g.dst, it, c₂, g.front, it', free, htorn, fun k hk hblank => ?_⟩
    by_cases hh : dbHash NHASH_DEF key = dbHash NHASH_DEF k.val
    · have hfront : k.val ∈ g.back.map (·.2.key) → walk k.val g.front = .ok none := by
        intro hmem
        rw [walk_of_clean hclean, lookup_eq_none]
        intro hmem'
        have hnodup := hchain.keys
        rw [List.map_append, List.map_cons, hk₁, hk₂] at hnodup
        exact (List.nodup_append.mp hnodup).2.2 _ hmem' _ (List.mem_cons_of_mem _ hmem) rfl
      rw [hnow k hh, walk_torn hblank hstray hback hfront, ← hcells, hk₂, hthen k hh]
      exact congrArg _ (hran.rest key hkey hsep _ hk)
    · rw [hran.elsewhere hw hkey hh, if_neg]
      intro hmem
      obtain ⟨e, he, hek⟩ := List.mem_map.mp hmem
      have hhash := hchain.hash e (List.mem_append_right _ (List.mem_cons_of_mem _ he))
      rw [hek] at hhash
      exact hh hhash.symm
  · refine Or.inl fun k hk => ?_
    by_cases hh : dbHash NHASH_DEF key = dbHash NHASH_DEF k.val
    · have hch : World.chainOf k.val = World.chainOf key := congrArg Place.chain hh.symm
      rw [hnow k hh, herr, hthen k hh, ← hch, hw.inv.walk_error (hch ▸ hsplit ▸ hs)]
    · exact hran.elsewhere hw hkey hh

end Kill

/-- A call that has ended harms no other key. -/
theorem Solo.ended (hw : Solo P dead p w) (hdb : Opened db) (hc : c.OnMap P)
    (hkey : c.key? = some key) (hsep : SEP ∉ key) (k : CString) (hk : k.val ≠ key) :
    found (c.run p db w.os).state k = found w.os k := by
  have hcall := hw.call hdb hc
  cases hrun : c.run p db w.os with
  | blocked os' =>
    rw [hrun] at hcall
    exact hcall.elim
  | done a os' =>
    rw [hrun] at hcall
    obtain ⟨w', rfl, hw', -, hran, -⟩ := hcall
    exact hran.others hw hkey hsep (hw'.gap _) k hk
  | halted e os' =>
    rw [hrun] at hcall
    obtain ⟨w', rfl, ha, hran, hl, -⟩ := hcall
    exact hran.others hw hkey hsep (hl.gap ha _) k hk

/-- **A kill harms at most the keys behind.** When a call on `key` is cut off after any of its
operations, every other key is found as before; or the call has not ended and the chain is cut at the
record of `key`, which has been deleted and is still on the chain, and only the keys behind it are not
found. -/
theorem fetch_after_kill (h : Reach (fun _ => True) p db os) (hc : c.OnMap fun _ => True)
    {key : List Byte} (hkey : c.key? = some key) (hsep : SEP ∉ key) {n : Nat}
    (hn : Prog.after (sysStep p) n (c.prog.run db) os = some os') :
    (∀ k : CString, k.val ≠ key → found os' k = found os k) ∨
      (Prog.after (sysStep p) (n + 1) (c.prog.run db) os).isSome ∧
      ∃ c₁ o it c₂ front it' free, Torn os os' key c₁ o it c₂ front it' free ∧
        ∀ k : CString, k.val ≠ key → ¬ Blank k.val →
          found os' k = if k.val ∈ c₂.map (·.2.key) then .ok none else found os k := by
  obtain ⟨w, rfl, hw, hdb⟩ := h.solo
  cases hnext : Prog.after (sysStep p) (n + 1) (c.prog.run db) w.os with
  | none =>
    refine Or.inl fun k hk => ?_
    rw [← Prog.after_last (sysStep p) hn hnext]
    exact hw.ended hdb hc hkey hsep k hk
  | some _ =>
    have hready := hw.toIdle.ready
    have hwp := @wpM_call _ p (Env.nobody _ p) c (fun _ _ => True) db (w.begin p) (fun _ _ _ => True)
      hready hdb hc (fun _ _ _ _ _ => trivial) (fun _ _ _ _ => trivial)
    obtain ⟨t, rfl, hran⟩ := @Prog.wp_after Op Res Fatal (Ret × DB) OS World (sysStep p)
      (rules (Env.nobody _ p) c) (fun w w' => Inv _ w → Ran _ p c w w') (rules_lawful _ _)
      (fun _ hw => Ran.refl hw) (fun _ _ _ h₁ h₂ hw => (h₁ hw).trans (h₂ (h₁ hw).inv))
      (fun _ _ _ hg hw => (hg hw).ran) _ _ n (c.prog.run db) (w.begin p) os' hn hwp
    cases hg : t.gap (dbHash NHASH_DEF key) with
    | none => exact Or.inl ((hran hready.inv).others hw hkey hsep hg)
    | some g => exact ((hran hready.inv).open hw hkey hsep hg).imp_right fun ht => ⟨rfl, ht⟩

/-- Three keys of one chain, the last one with a separator, and some data. -/
def keyA : CString := ⟨[97], nul_not_mem_a⟩
def keyB : CString := ⟨[36, 99], by decide⟩
def keySep : CString := ⟨[118, 58], by decide⟩
def dataD : CString := ⟨[100], by decide⟩

/-- A database in which `keyB` is behind `keyA`. -/
def OS.two : OS := (OS.created.stored 0 keyB dataD).stored 1 keyA dataD

/-- The database with two records in one chain is reached. -/
theorem reach_two : Reach (fun _ => True) 2 DB.opened OS.two :=
  ((Reach.created 0).stored trivial (by decide +kernel)).stored trivial (by decide +kernel)

/-- The files that a process leaves which is killed after `n` operations of a call. -/
def OS.killed (n : Nat) (c : Call) : Option OS :=
  Prog.after (sysStep 2) n (c.prog.run DB.opened) OS.two

/-- The same for a delete that is cut off when the chain is cut. -/
theorem fetch_after_kill_two : ∃ os', OS.killed 8 (.delete keyA) = some os' ∧
    ((∀ k : CString, k.val ≠ keyA.val → found os' k = found OS.two k) ∨
      (OS.killed 9 (.delete keyA)).isSome ∧
      ∃ c₁ o it c₂ front it' free, Torn OS.two os' keyA.val c₁ o it c₂ front it' free ∧
        ∀ k : CString, k.val ≠ keyA.val → ¬ Blank k.val →
          found os' k = if k.val ∈ c₂.map (·.2.key) then .ok none else found OS.two k) := by
  have hsome : (OS.killed 8 (.delete keyA)).isSome = true := by decide +kernel
  obtain ⟨os', hos'⟩ := Option.isSome_iff_exists.mp hsome
  exact ⟨os', hos', fetch_after_kill reach_two (show (Call.delete keyA).OnMap _ from trivial) rfl
    (by decide) hos'⟩

/-- A key behind the deleted one is lost, and so is every key behind one with a separator. -/
theorem fetch_after_kill_false : Reach (fun _ => True) 2 DB.opened OS.two ∧
    (∃ os', OS.killed 8 (.delete keyA) = some os' ∧ found os' keyB ≠ found OS.two keyB) ∧
      ∃ os', OS.killed 20 (.store keySep dataD DB_INSERT) = some os' ∧
        found os' keyB ≠ found OS.two keyB := by
  have hkill : ∀ n c, (match OS.killed n c with
      | some os' => decide (found os' keyB ≠ found OS.two keyB)
      | none => false) = true →
      ∃ os', OS.killed n c = some os' ∧ found os' keyB ≠ found OS.two keyB := by
    intro n c h
    cases hk : OS.killed n c with
    | none =>
      rw [hk] at h
      exact absurd h (by simp)
    | some os' =>
      rw [hk] at h
      exact ⟨os', rfl, of_decide_eq_true h⟩
  exact ⟨reach_two, hkill _ _ (by decide +kernel), hkill _ _ (by decide +kernel)⟩

end LearningNotes.Db
