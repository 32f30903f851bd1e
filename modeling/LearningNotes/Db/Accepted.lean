import LearningNotes.Db.Listing

/-!
# The keys that `db_store` accepts

`db_store` looks at the length of the data, and `_db_writeidx` at the length of the index record. The
bytes of the key nobody looks at. `_db_readidx` takes the record apart at the separators, and
`db_nextrec` takes a record with a blank key for a deleted one.

`stored_represented`: a pair that is stored is found by every later fetch and scan as long as all keys
are without a separator and not all blank (`PlainKey`). `stored_represented_false` is what happens to
the keys `a:b` and a blank.
-/

namespace LearningNotes.Db

open Prog (exec)

variable {P : List Byte → Prop} {p : Pid} {db : DB} {os : OS} {w w' : World} {scan : Bool}
  {k d : CString} {flag : Int} {c : Call} {cs : List Call} {m : Map}

/-- The checks of an index record in `_db_readidx`. -/
def Fatal.InReadidx : Fatal → Bool
  | .readidxLseek | .readidxReadv | .readidxInvalidIdxlen | .readidxRead
  | .readidxMissingNewline | .readidxMissingFirstSep | .readidxMissingSecondSep
  | .readidxTooManySeps | .readidxNegativeOffset | .readidxInvalidDatlen => true
  | _ => false

/-- The message says so. -/
theorem Fatal.inReadidx_iff (e : Fatal) :
    e.InReadidx = true ↔ "_db_readidx:".toList <+: e.message.toList := by
  cases e <;> decide +kernel

theorem Fatal.IsLimit.not_inReadidx {e : Fatal} (h : e.IsLimit) : e.InReadidx = false := by
  rcases h with rfl | rfl | rfl <;> rfl

/-- A call of the library on an open database. -/
def Call.Admitted (P : List Byte → Prop) (c : Call) : Prop :=
  c.OnMap P ∨ c = .rewind ∨ c = .nextrec

/-- A scan goes from its `db_rewind` to its last `db_nextrec` with no other call in between; `scan`
says that one is going on. -/
def Paced : Bool → List Call → Prop
  | _, [] => True
  | _, .rewind :: cs => Paced true cs
  | scan, .nextrec :: cs => scan = true ∧ Paced true cs
  | _, _ :: cs => Paced false cs

/-- The call neither deletes nor replaces the pair of the key. -/
def Spares (k : CString) : Call → Prop
  | .delete key => key ≠ k
  | .store key _ flag => key = k → flag ≠ DB_REPLACE ∧ flag ≠ DB_STORE
  | _ => True

/-- The pair is returned by a fetch and by a scan. -/
structure Returned (p : Pid) (k d : CString) (db : DB) (os : OS) : Prop where
  fetch : ∃ db' os', (Call.fetch k).run p db os = .done (.data (some d.val), db') os'
  scan : ∃ pairs : List (List Byte × List Byte), (k.val, d.val) ∈ pairs ∧ ∀ n, ∃ db' os',
    exec (sysStep p) ((session (.rewind :: List.replicate n .nextrec)).run db) os =
      .done (.unit :: (List.range n).map fun i => .pair pairs[i]?, db') os'

/-- From now on, whatever calls are made that spare the key, and store keys that satisfy `P`: the pair
is returned, and no call ends in a check of `_db_readidx`. -/
def Represented (P : List Byte → Prop) (p : Pid) (k d : CString) (db : DB) (os : OS) : Prop :=
  ∀ cs : List Call, (∀ c ∈ cs, c.Admitted P ∧ Spares k c) → Paced false cs →
    (exec (sysStep p) ((session cs).run db) os).Sat (fun a os' => Returned p k d a.2 os')
      (fun e _ => e.InReadidx = false)

/-! ## The calls -/

/-- What is known between two calls, of which the last one may be one of a scan. -/
structure Awake (p : Pid) (scan : Bool) (db : DB) (w : World) : Prop
    extends Solo PlainKey (fun _ => False) p w where
  opened : Opened db
  live : w.live
  ahead : scan = true → ∃ rest, Ahead w rest db.idxpos

/-- The call is one of a scan. -/
def Call.scans : Call → Bool
  | .rewind | .nextrec => true
  | _ => false

theorem Paced.cons (h : Paced scan (c :: cs)) : (c = .nextrec → scan = true) ∧ Paced c.scans cs := by
  cases c with
  | nextrec => exact ⟨fun _ => h.1, h.2⟩
  | «open» creat trunc => exact ⟨nofun, h⟩
  | fetch key => exact ⟨nofun, h⟩
  | store key data flag => exact ⟨nofun, h⟩
  | delete key => exact ⟨nofun, h⟩
  | rewind => exact ⟨nofun, h⟩

/-- **One call.** -/
theorem Awake.call (h : Awake p scan db w) (hc : c.Admitted PlainKey)
    (hpaced : c = .nextrec → scan = true) :
    (c.run p db w.os).Sat
      (fun a os' => ∃ w', w'.os = os' ∧ Awake p c.scans a.2 w' ∧ w'.map = (c.spec w.map).1 ∧
        (c.OnMap PlainKey → a.1 = (c.spec w.map).2))
      (fun e _ => e.InReadidx = false) := by
  rcases hc with hc | rfl | rfl
  · have hscans : c.scans = false := by
      cases c with
      | rewind => exact hc.elim
      | nextrec => exact hc.elim
      | _ => rfl
    refine (h.toSolo.call h.opened hc).mono ?_ ?_
    · rintro a os' ⟨w', rfl, hsolo, hdb', hran, hret⟩
      obtain ⟨hr, hm⟩ : a.1 = (c.spec w.map).2 ∧ w'.map = (c.spec w.map).1 :=
        hran.result (Function.update_self ..) h.live hret
      have hlive : w'.live := hran.live ▸ h.live
      refine ⟨w', rfl, ⟨hsolo, hdb', hlive, fun hs => ?_⟩, hm, fun _ => hr⟩
      rw [hscans] at hs
      exact absurd hs (by decide)
    · rintro e os' ⟨w', -, -, -, hl, hy⟩
      exact (hy.limit (fun _ hk => hk.2) hl.inv).1.not_inReadidx
  · obtain ⟨w', hrun, hq⟩ := h.toSolo.rewind h.opened
    rw [hrun]
    refine ⟨w', rfl, ⟨hq.toSolo, ⟨h.opened.nhash, h.opened.hashoff⟩, hq.live ▸ h.live, fun _ => ?_⟩,
      hq.map, fun hf => hf.elim⟩
    exact ⟨w'.x.recs, ahead_recs⟩
  · obtain ⟨rest, hahead⟩ := h.ahead (hpaced rfl)
    -- the pairs that are ahead, from number `0` on
    have hscan : Scanning PlainKey (fun _ => False) p (pairsOf w.y rest) 0 db w :=
      ⟨h.toSolo, h.opened, h.lowBlanks, rest, hahead, rfl⟩
    obtain ⟨db', w', hrun, hq, hnext⟩ := hscan.nextrec fun _ hk => hk.2
    rw [hrun]
    obtain ⟨rest', hahead', -⟩ := hnext.ahead
    exact ⟨w', rfl, ⟨hq.toSolo, hnext.opened, hq.live ▸ h.live, fun _ => ⟨rest', hahead'⟩⟩, hq.map,
      fun hf => hf.elim⟩

/-- **A sequence of calls.** -/
theorem Awake.session (cs : List Call) :
    ∀ {scan : Bool} {db : DB} {w : World}, Awake p scan db w → (∀ c ∈ cs, c.Admitted PlainKey) →
      Paced scan cs → (exec (sysStep p) ((session cs).run db) w.os).Sat
        (fun a os' => ∃ w' scan', w'.os = os' ∧ Awake p scan' a.2 w' ∧ w'.map = mapAfter cs w.map)
        (fun e _ => e.InReadidx = false) := by
  induction cs with
  | nil => exact fun {scan db w} h _ _ => ⟨w, scan, rfl, h, rfl⟩
  | cons c cs ih =>
    intro scan db w h hc hpaced
    obtain ⟨hnext, hpaced⟩ := hpaced.cons
    have hcall := h.call (hc c (List.mem_cons_self ..)) hnext
    rw [exec_session_cons]
    cases hrun : c.run p db w.os with
    | blocked os' =>
      rw [hrun] at hcall
      exact hcall
    | halted e os' =>
      rw [hrun] at hcall
      exact hcall
    | done a os' =>
      obtain ⟨r, db'⟩ := a
      rw [hrun] at hcall
      obtain ⟨w', rfl, h', hm, -⟩ := hcall
      have hrest := ih h' (fun c' hc' => hc c' (List.mem_cons_of_mem _ hc')) hpaced
      dsimp only
      rw [hm] at hrest
      cases hses : exec (sysStep p) ((LearningNotes.Db.session cs).run db') w'.os with
      | blocked os'' =>
        rw [hses] at hrest
        exact hrest
      | halted e os'' =>
        rw [hses] at hrest
        exact hrest
      | done b os'' =>
        rw [hses] at hrest
        exact hrest

/-! ## The pair -/

/-- The calls that spare the key leave its pair. -/
theorem mapAfter_spares (h : ∀ c ∈ cs, Spares k c) (hm : m k.val = some d.val) :
    mapAfter cs m k.val = some d.val := by
  induction cs generalizing m with
  | nil => exact hm
  | cons c cs ih =>
    refine ih (fun c' hc' => h c' (List.mem_cons_of_mem _ hc')) ?_
    have hs := h c (List.mem_cons_self ..)
    cases c with
    | «open» creat trunc => exact hm
    | fetch key => exact hm
    | rewind => exact hm
    | nextrec => exact hm
    | delete key =>
      have hne : k.val ≠ key.val := fun he => hs (Subtype.ext he.symm)
      exact (m.set_ne none hne).trans hm
    | store key data flag =>
      show (if storeRc (m key.val) flag = 0 then m.set key.val (some data.val) else m) k.val = _
      split
      next hrc =>
        by_cases hk : key = k
        · -- only an insertion spares the key, and it finds it there
          subst hk
          obtain ⟨hrep, hst⟩ := hs rfl
          rw [hm] at hrc
          unfold storeRc at hrc
          split at hrc
          · exact absurd hrc (by decide)
          next hlegal =>
            have hins : flag = DB_INSERT := by
              rcases not_not.mp hlegal with h | h | h
              · exact h
              · exact absurd h hrep
              · exact absurd h hst
            dsimp only at hrc
            rw [if_pos hins] at hrc
            exact absurd hrc (by decide)
        · have hne : k.val ≠ key.val := fun he => hk (Subtype.ext he.symm)
          exact (m.set_ne _ hne).trans hm
      next => exact hm

/-- A store that returns `0` has stored the pair. -/
theorem spec_stored (h : (Call.spec (.store k d flag) m).2 = .rc 0) :
    (Call.spec (.store k d flag) m).1 k.val = some d.val := by
  have hrc : storeRc (m k.val) flag = 0 := by
    cases h' : storeRc (m k.val) flag == 0 with
    | true => exact eq_of_beq h'
    | false => exact absurd (Ret.rc.inj h) (by simpa using h')
  show (if storeRc (m k.val) flag = 0 then m.set k.val (some d.val) else m) k.val = _
  rw [if_pos hrc]
  exact m.set_self k.val (some d.val)

/-- What the map has is returned. -/
theorem Awake.returned (h : Awake p scan db w) (hm : w.map k.val = some d.val) :
    Returned p k d db w.os where
  fetch := by
    obtain ⟨db', w', hrun, -⟩ :=
      h.toSolo.fetch (k := k) h.opened fun e he => (h.toSolo.legal he).2
    have hview : w.view k.val = w.map k.val :=
      h.inv.map h.live k.val fun q => h.toSolo.not_owns (by simp) q
    rw [hview, hm] at hrun
    exact ⟨db', w'.os, hrun⟩
  scan := by
    obtain ⟨w', hrun, hq⟩ := h.toSolo.rewind h.opened
    have hscan := hq.scanning h.opened h.toSolo.lowBlanks
    refine ⟨pairsOf w.y w.x.recs, (h.toSolo.pair_iff (fun _ hk => hk.1) h.live).mpr hm, fun n => ?_⟩
    obtain ⟨db', os', hrest⟩ := hscan.nextrecs (fun _ hk => hk.2) n
    refine ⟨db', os', ?_⟩
    rw [exec_session_cons, hrun]
    dsimp only
    rw [hrest, List.range_eq_range']

theorem Awake.represented (h : Awake p scan db w) (hm : w.map k.val = some d.val)
    (hscan : scan = false) : Represented PlainKey p k d db w.os := by
  intro cs hcs hpaced
  have hadm : ∀ c ∈ cs, c.Admitted PlainKey := by
    intro c hc
    exact (hcs c hc).1
  refine (h.session cs hadm (hscan ▸ hpaced)).mono ?_ fun _ _ he => he
  rintro a os' ⟨w', scan', rfl, h', hmap⟩
  refine h'.returned ?_
  rw [hmap]
  exact mapAfter_spares (fun c hc => (hcs c hc).2) hm

/-- **A stored pair is represented.** On a new database, after any calls that store keys without a
separator and not all blank: if a `db_store` of such a key returns `0`, then from now on the pair is
returned by `db_fetch` and by a scan, and no call ends in a check of `_db_readidx`. -/
theorem stored_represented (p : Pid) (idx dat : List Byte) (db : DB) (cs : List Call)
    (hcs : ∀ c ∈ cs, c.Admitted PlainKey) (hpaced : Paced true cs) (k d : CString) (flag : Int)
    (hk : PlainKey k.val) :
    ∃ db₀ os₀, (Call.open true true).run p db ⟨idx, dat, []⟩ = .done (.unit, db₀) os₀ ∧
      (exec (sysStep p) ((session cs).run db₀) os₀).Sat
        (fun a os => ((Call.store k d flag).run p a.2 os).Sat
          (fun b os' => b.1 = .rc 0 → Represented PlainKey p k d b.2 os')
          (fun e _ => e.InReadidx = false))
        (fun e _ => e.InReadidx = false) := by
  refine ⟨DB.opened, OS.created, run_open (exec_create p idx dat db), ?_⟩
  have hsolo : Solo PlainKey (fun _ => False) p World.created := Solo.created p
  have hstart : Awake p true DB.opened World.created :=
    ⟨hsolo, opened_opened, trivial, fun _ => ⟨_, ahead_recs⟩⟩
  refine (hstart.session cs hcs hpaced).mono ?_ fun _ _ he => he
  rintro a os ⟨w, scan, rfl, hw, -⟩
  have hc : (Call.store k d flag).OnMap PlainKey := hk
  refine (hw.call (Or.inl hc) nofun).mono ?_ fun _ _ he => he
  rintro b os' ⟨w', rfl, hw', hmap, hret⟩ hzero
  refine hw'.represented ?_ rfl
  rw [hmap]
  exact spec_stored ((hret hc).symm.trans hzero)

/-- On a new database the store returns `0`, and what the calls `cs` then return satisfies `f`. -/
def storedThen (k d : CString) (cs : List Call) (f : Prog.Outcome Fatal (List Ret × DB) OS → Bool) :
    Bool :=
  match (Call.store k d DB_INSERT).run 0 DB.opened OS.created with
  | .done (.rc 0, db) os => f (exec (sysStep 0) ((session cs).run db) os)
  | _ => false

theorem storedThen_iff {f : Prog.Outcome Fatal (List Ret × DB) OS → Bool}
    (h : storedThen k d cs f = true) :
    ∃ db os, (Call.store k d DB_INSERT).run 0 DB.opened OS.created = .done (.rc 0, db) os ∧
      f (exec (sysStep 0) ((session cs).run db) os) = true := by
  unfold storedThen at h
  split at h
  next db os heq => exact ⟨db, os, heq, h⟩
  next => exact absurd h (by simp)

/-- The run is ended by a check of `_db_readidx`. -/
def endsInReadidx : Prog.Outcome Fatal (List Ret × DB) OS → Bool
  | .halted e _ => e.InReadidx
  | _ => false

/-- The run gets to its end, and the calls return `rs`. -/
def endsWith (rs : List Ret) : Prog.Outcome Fatal (List Ret × DB) OS → Bool
  | .done (rs', _) _ => rs' = rs
  | _ => false

/-- A key with a separator is accepted, and the next fetch of it ends in a check of `_db_readidx`. A
blank key is accepted, and no scan returns it. -/
theorem stored_represented_false :
    (∃ db os, (Call.store ⟨[97, 58, 98], by decide⟩ ⟨[99], by decide⟩ DB_INSERT).run 0 DB.opened
      OS.created = .done (.rc 0, db) os ∧
      ¬ Represented PlainKey 0 ⟨[97, 58, 98], by decide⟩ ⟨[99], by decide⟩ db os) ∧
    ∃ db os, (Call.store ⟨[32], by decide⟩ ⟨[99], by decide⟩ DB_INSERT).run 0 DB.opened
      OS.created = .done (.rc 0, db) os ∧
      ¬ Represented PlainKey 0 ⟨[32], by decide⟩ ⟨[99], by decide⟩ db os := by
  constructor
  · have hrun : storedThen ⟨[97, 58, 98], by decide⟩ ⟨[99], by decide⟩
        [.fetch ⟨[97, 58, 98], by decide⟩] endsInReadidx = true := by
      decide +kernel
    obtain ⟨db, os, hstore, hends⟩ := storedThen_iff hrun
    refine ⟨db, os, hstore, fun hrep => ?_⟩
    have hsat := hrep [.fetch ⟨[97, 58, 98], by decide⟩] (by simp [Call.Admitted, Call.OnMap, Spares])
      trivial
    unfold endsInReadidx at hends
    split at hends
    next e os' heq =>
      rw [heq] at hsat
      exact absurd hends (by simp [show e.InReadidx = false from hsat])
    next => exact absurd hends (by simp)
  · have hrun : storedThen ⟨[32], by decide⟩ ⟨[99], by decide⟩ [.rewind, .nextrec]
        (endsWith [.unit, .pair none]) = true := by
      decide +kernel
    obtain ⟨db, os, hstore, hends⟩ := storedThen_iff hrun
    refine ⟨db, os, hstore, fun hrep => ?_⟩
    have hret : Returned 0 ⟨[32], by decide⟩ ⟨[99], by decide⟩ db os := hrep [] (by simp) trivial
    obtain ⟨pairs, hmem, hscan⟩ := hret.scan
    obtain ⟨db', os', hone⟩ := hscan 1
    rw [show ([Call.rewind, .nextrec] = .rewind :: List.replicate 1 .nextrec) from rfl, hone] at hends
    -- the first call of the scan already returns `NULL`
    have hnil : pairs[0]? = none := by simpa [endsWith] using hends
    have hlen : pairs.length = 0 := Nat.le_zero.mp (List.getElem?_eq_none_iff.mp hnil)
    rw [List.eq_nil_of_length_eq_zero hlen] at hmem
    exact absurd hmem List.not_mem_nil

/-- A pair is stored behind another one, when a scan has begun. -/
theorem stored_represented_one :
    ∃ db₀ os₀, (Call.open true true).run 0 {} ⟨[], [], []⟩ = .done (.unit, db₀) os₀ ∧
      (exec (sysStep 0) ((session [.store ⟨[98], by decide⟩ ⟨[99], by decide⟩ DB_INSERT, .rewind,
        .nextrec]).run db₀) os₀).Sat
        (fun a os => ((Call.store ⟨[97], by decide⟩ ⟨[99], by decide⟩ DB_INSERT).run 0 a.2 os).Sat
          (fun b os' => b.1 = .rc 0 →
            Represented PlainKey 0 ⟨[97], by decide⟩ ⟨[99], by decide⟩ b.2 os')
          (fun e _ => e.InReadidx = false))
        (fun e _ => e.InReadidx = false) :=
  stored_represented 0 [] [] {} _ (by
    intro c hc
    simp only [List.mem_cons, List.not_mem_nil, or_false] at hc
    rcases hc with rfl | rfl | rfl
    · exact Or.inl ⟨by decide, by decide⟩
    · exact Or.inr (Or.inl rfl)
    · exact Or.inr (Or.inr rfl)) (by exact ⟨rfl, trivial⟩) _ _ _ ⟨by decide, by decide⟩

end LearningNotes.Db
