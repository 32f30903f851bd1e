import LearningNotes.Db.Calls

/-!
# One process at a time

What the calls do when nobody runs beside them: a call is run to its end (`Call.run`) and the
process is as idle as before (`Solo.call`). From this the sequences of calls follow by
induction (`session_sat`): on a database that `db_open` has just initialised the library
returns what a map returns, until a call exceeds a limit. A call that a check ends is the last one of
its sequence, since its process has ended with it; what other processes find then is the subject of
the module on opening the database again.
-/

namespace LearningNotes.Db

open Prog (exec Outcome wp_exec)
open RangeLock (releaseAll)

variable {P : List Byte → Prop} {p q : Pid} {dead : Pid → Prop} {c : Call} {db : DB}
  {os : OS} {w w' : World} {r : Ret}

/-- Call `c` of process `p`, which has the handle `db`, run to its end. -/
def Call.run (p : Pid) (c : Call) (db : DB) (os : OS) : Outcome Fatal (Ret × DB) OS :=
  exec (sysStep p) (c.prog.run db) os

/-- The calls one after the other. -/
def session : List Call → DbM (List Ret)
  | [] => pure []
  | c :: cs => do
    let r ← c.prog
    let rs ← session cs
    return r :: rs

/-- What a map returns to the calls. -/
def results : List Call → Map → List Ret
  | [], _ => []
  | c :: cs, m => (c.spec m).2 :: results cs (c.spec m).1

/-- The map after the calls. -/
def mapAfter : List Call → Map → Map
  | [], m => m
  | c :: cs, m => mapAfter cs (c.spec m).1

/-- One of the calls exceeds the limits, as it finds the files. -/
def Exceeds (p : Pid) : List Call → DB → OS → Prop
  | [], _, _ => False
  | c :: cs, db, os => ¬ c.Fits os ∨
      ∃ r db' os', c.run p db os = .done (r, db') os' ∧ Exceeds p cs db' os'

/-! ## A call -/

/-- Process `p` is idle and nobody else is there, but for what dead processes have left. -/
structure Solo (P : List Byte → Prop) (dead : Pid → Prop) (p : Pid) (w : World) : Prop
    extends Idle P p w where
  alone : Alone p w.os
  hands : ∀ q, ¬ dead q → w.cells (.hand q) = [] ∧ w.pend q = []

/-- Nobody owns anything. -/
theorem Solo.not_owns (h : Solo P dead p w) {ℓ : Place} (hℓ : ∀ r, ℓ ≠ .hand r) (q : Pid) :
    ¬ w.Owns q ℓ := by
  have hno : ∀ f t n, ¬ RangeLock.Held w.os.locks q f t n := by
    rintro f t n ⟨l, hl, ho, hrest⟩
    have hqp : q = p := ho.symm.trans (h.alone l hl)
    exact h.locks f t n ⟨l, hl, ho.trans hqp, hrest⟩
  cases ℓ with
  | free => exact hno _ _ _
  | chain i => exact hno _ _ _
  | hand r => exact absurd rfl (hℓ r)

theorem Solo.gap (h : Solo P dead p w) (i : Nat) : w.gap i = none := by
  cases hg : w.gap i with
  | none => rfl
  | some g =>
    obtain ⟨q, hq, -⟩ := h.inv.guarded.gap i g hg
    exact absurd hq (h.not_owns (by simp) q)

/-- The others' hands stay as they are. -/
theorem Ran.hands_nil (h : Ran P p c w w') (hidle : Idle P p w')
    (hh : ∀ q, ¬ dead q → w.cells (.hand q) = [] ∧ w.pend q = []) (q : Pid) (hq : ¬ dead q) :
    w'.cells (.hand q) = [] ∧ w'.pend q = [] := by
  by_cases hqp : q = p
  · exact hqp ▸ ⟨hidle.hand, hidle.pend⟩
  · exact ⟨(h.hands q hqp).1.trans (hh q hq).1, (h.hands q hqp).2.trans (hh q hq).2⟩

/-- What is known of the end of a program that was proved for a process alone. -/
theorem sat_alone {α : Type} {m : DbM α} {Q : α → DB → World → Prop} {H : Fatal → World → Prop}
    (halone : Alone p w.os) (hinv : Inv P w)
    (h : wpM (rules (Env.nobody P p) c) p m Q H db w) :
    (exec (sysStep p) (m.run db) w.os).Sat
      (fun a os' => ∃ w', w'.os = os' ∧ Alone p os' ∧ Ran P p c w w' ∧ Q a.1 a.2 w')
      (fun e os' => ∃ w', w'.os = os' ∧ Alone p os' ∧ Ran P p c w w' ∧ H e w') := by
  have hsat := @wp_exec Op Res Fatal (α × DB) OS World (sysStep p) (rules (Env.nobody P p) c)
    (fun w w' => Inv P w → Ran P p c w w') (rules_lawful _ _) (fun _ hw => Ran.refl hw)
    (fun _ _ _ h₁ h₂ hw => (h₁ hw).trans (h₂ (h₁ hw).inv)) (fun _ _ _ hg hw => (hg hw).ran)
    (Alone p) _ _ (fun o os => alone_step o os) (m.run db) w halone h
  refine hsat.mono ?_ ?_
  · exact fun a os' ⟨w', ho, ha, hr, hq⟩ => ⟨w', ho, ha, hr hinv, hq⟩
  · exact fun e os' ⟨w', ho, ha, hr, hh⟩ => ⟨w', ho, ha, hr hinv, hh⟩

/-- The same of a program that no check can end. -/
theorem done_alone {α : Type} {m : DbM α} {Q : α → DB → World → Prop}
    (halone : Alone p w.os) (hinv : Inv P w)
    (h : wpM (rules (Env.nobody P p) c) p m Q (fun _ _ => False) db w) :
    ∃ a db' w', exec (sysStep p) (m.run db) w.os = .done (a, db') w'.os ∧ Alone p w'.os ∧
      Ran P p c w w' ∧ Q a db' w' := by
  have hsat := (sat_alone halone hinv h).mono (fun _ _ => id)
    fun _ _ ⟨_, _, _, _, hf⟩ => hf
  obtain ⟨⟨a, db'⟩, os', hrun, w', rfl, hrest⟩ := hsat.exists_done
  exact ⟨a, db', w', hrun, hrest⟩

/-- **A call by a process alone.** -/
theorem Solo.call (h : Solo P dead p w) (hdb : Opened db) (hc : c.OnMap P) :
    (c.run p db w.os).Sat
      (fun a os' => ∃ w', w'.os = os' ∧ Solo P dead p w' ∧ Opened a.2 ∧
        Ran P p c (w.begin p) w' ∧ Returns P p c a.1 w')
      (fun e os' => ∃ w', w'.os = os' ∧ Alone p os' ∧ Ran P p c (w.begin p) w' ∧ Leaves P p w' ∧
        Why (Env.nobody P p) c w e w') := by
  have hready := h.toIdle.ready
  have hwp := @wpM_call P p (Env.nobody P p) c
    (fun e w' => Leaves P p w' ∧ Why (Env.nobody P p) c (w.begin p) e w') db (w.begin p)
    (fun r db' w' => Opened db' ∧ Returns P p c r w') hready hdb hc
    (fun _ _ _ hdb' hr => ⟨hdb', hr⟩) (fun _ _ hl hy => ⟨hl, hy⟩)
  have halone : Alone p (w.begin p).os := h.alone
  refine (sat_alone halone hready.inv hwp).mono ?_ ?_
  · rintro a os' ⟨w', rfl, ha, hran, hdb', hret⟩
    exact ⟨w', rfl, ⟨hret.idle, ha, hran.hands_nil hret.idle h.hands⟩, hdb', hran, hret⟩
  · rintro e os' ⟨w', rfl, ha, hran, hl, hy⟩
    exact ⟨w', rfl, ha, hran, hl, hy⟩

/-- The call has done to the map what it should, and has returned what it should. -/
theorem Ran.result (h : Ran P p c w w') (hlin : w.lin p = none) (hlive : w.live)
    (hr : Returns P p c r w') : r = (c.spec w.map).2 ∧ w'.map = (c.spec w.map).1 := by
  have hl : w'.live := h.live ▸ hlive
  rcases hr.lin hl with hsome | ⟨hnone, hspec⟩
  · rcases h.step with ⟨-, hl'⟩ | ⟨-, hm, hl'⟩
    · rw [hl', hlin] at hsome
      exact absurd hsome (by simp)
    · rw [hl'] at hsome
      exact ⟨(Option.some.inj hsome).symm, hm⟩
  · rw [hspec]
    rcases h.step with ⟨hm, -⟩ | ⟨-, hm, -⟩
    · exact ⟨rfl, hm⟩
    · rw [hspec] at hm
      exact ⟨rfl, hm⟩

/-- Keys without separators never fail the check for separators. -/
theorem Why.limit (h : Why (Env.nobody P p) c w e w') (hclean : ∀ k, P k → SEP ∉ k)
    (hinv : Inv P w') : e.IsLimit ∧ ¬ c.Fits w.os := by
  rcases h with ⟨he, hfits⟩ | ⟨-, o, rec, hrec, hs⟩
  · exact ⟨he, hfits fun _ _ hw => hw.symm⟩
  · rcases hinv.legal o rec hrec with hb | hP
    · exact absurd (hb SEP hs) (by decide)
    · exact absurd hs (hclean _ hP)

/-! ## Opening -/

/-- The handle that `db_open` returns. -/
def DB.opened : DB := DB.rewound { nhash := NHASH_DEF, hashoff := HASH_OFF }

theorem opened_opened : Opened DB.opened := ⟨rfl, rfl⟩

theorem nul_not_mem_a : (0 : Byte) ∉ [97] := by decide

theorem nul_not_mem_b : (0 : Byte) ∉ [98] := by decide

/-- The files of a new database. -/
def OS.created : OS := ⟨emptyTable, [], []⟩

/-- A system call that is answered. -/
theorem exec_sys {α : Type} {o : Op} {f : Res o → DbM α} {os' : OS} {r : Res o}
    (h : sysStep p o os = some (r, os')) :
    exec (sysStep p) ((sys o >>= f).run db) os = exec (sysStep p) ((f r).run db) os' := by
  show exec (sysStep p) (.op o fun r => (f r).run db) os = _
  rw [exec, h]

/-- `db_open` initialises a new database, whatever the files were. -/
theorem exec_create (p : Pid) (idx dat : List Byte) (db : DB) :
    exec (sysStep p) ((dbOpen true true).run db) ⟨idx, dat, []⟩ =
      .done ((), DB.opened) OS.created := by
  have hacq : RangeLock.acquire [] p Fd.idxfd .wrlck 0 (lockStop 0 0) =
      some [⟨p, .idxfd, .wrlck, 0, none⟩] := rfl
  have hclip : RangeLock.clip [⟨p, .idxfd, .wrlck, 0, none⟩] p Fd.idxfd 0 (lockStop 0 0) = [] := by
    simp [RangeLock.clip, RangeLock.pieces, lockStop]
  have hwrite : overwrite 0 [] 0 emptyTable = emptyTable := overwrite_end 0 [] emptyTable
  have hcreated : OS.created = ⟨overwrite 0 [] 0 emptyTable, [], []⟩ := by rw [hwrite]; rfl
  unfold dbOpen
  rw [StateT.run_bind, hcreated]
  show exec (sysStep p) ((sys (.openf .idxfd true) >>= fun _ => _).run _) _ = _
  rw [exec_sys rfl]
  show exec (sysStep p) ((sys (.openf .datfd true) >>= fun _ => _).run _) _ = _
  rw [exec_sys rfl]
  show exec (sysStep p) ((sys (.lock .idxfd .wrlck 0 0) >>= fun _ => _).run _) (⟨[], [], []⟩ : OS) = _
  rw [exec_sys (sysStep_lock hacq)]
  show exec (sysStep p) ((sys (.size .idxfd) >>= fun _ => _).run _) (⟨[], [], _⟩ : OS) = _
  rw [exec_sys rfl]
  -- the file is empty, so the table is written
  show exec (sysStep p) ((sys (.write .idxfd 0 emptyTable) >>= fun _ => _).run _)
    (⟨[], [], _⟩ : OS) = _
  rw [exec_sys rfl]
  show exec (sysStep p) ((sys (.unlock .idxfd 0 0) >>= fun _ => _).run _)
    (⟨overwrite 0 [] 0 emptyTable, [], _⟩ : OS) = _
  rw [exec_sys rfl]
  show exec (sysStep p) (dbRewind.run _)
    (⟨overwrite 0 [] 0 emptyTable, [], RangeLock.clip _ p Fd.idxfd 0 (lockStop 0 0)⟩ : OS) = _
  rw [hclip]
  generalize overwrite 0 [] 0 emptyTable = x
  rfl

/-- `db_open` of a database that exists does nothing to it. -/
theorem exec_reopen (p : Pid) (os : OS) (db : DB) :
    exec (sysStep p) ((dbOpen false false).run db) os = .done ((), DB.opened) os := by
  unfold dbOpen
  rw [StateT.run_bind]
  show exec (sysStep p) ((sys (.openf .idxfd false) >>= fun _ => _).run _) _ = _
  rw [exec_sys rfl]
  show exec (sysStep p) ((sys (.openf .datfd false) >>= fun _ => _).run _) _ = _
  rw [exec_sys rfl]
  rfl

/-- The call `db_open`. -/
theorem run_open {creat trunc : Bool} {os os' : OS} {db' : DB}
    (h : exec (sysStep p) ((dbOpen creat trunc).run db) os = .done ((), db') os') :
    (Call.open creat trunc).run p db os = .done (.unit, db') os' := by
  unfold Call.run Call.prog
  rw [StateT.run_bind, Prog.exec_bind, h]
  rfl

/-- The world of a new database. -/
def World.created : World where
  os := OS.created
  x := Index.empty
  y := []
  cells := fun _ => []
  own := fun _ => .free
  named := fun _ => .proc 0
  pend := fun _ => []
  gap := fun _ => none
  wiped := none
  wrote := fun _ _ => False
  live := True
  map := Map.empty
  lin := fun _ => none
  moved := fun _ => false

theorem recAt_empty (o : Nat) : Index.empty.recAt o = none := rfl

theorem item_created (o : Nat) : World.created.item o = none := by
  show (Index.empty.recAt o).bind _ = none
  rw [recAt_empty]
  rfl

/-- A new database is in order. -/
theorem Inv.created : Inv P World.created where
  files := ⟨Index.bytes_empty.symm, Index.empty_ok, rfl⟩
  placed := by
    refine ⟨?_, ?_, ?_, ?_, ?_, ?_, ?_, ?_⟩
    · intro _ e he
      exact absurd he List.not_mem_nil
    · intro _ e he
      exact absurd he List.not_mem_nil
    · intro _
      exact List.nodup_nil
    · intro o r hr
      exact absurd ((recAt_empty o).symm.trans hr) (by simp)
    · intro _ e he
      exact absurd he List.not_mem_nil
    · intro _ e he
      exact absurd he List.not_mem_nil
    · intro _ b hb
      exact absurd hb List.not_mem_nil
    · intro d s hs
      exact absurd (show (none : Option CString) = some s from hs) (by simp)
  lists := by
    refine ⟨⟨⟨0, rfl, rfl⟩, fun e he => absurd he List.not_mem_nil⟩, ?_, fun _ _ => rfl⟩
    intro h hh
    have hget : Index.empty.get (.chain h) = some 0 := by
      show (List.replicate NHASH_DEF 0)[h]? = some 0
      rw [List.getElem?_replicate, if_pos hh]
    refine ⟨⟨0, hget, rfl⟩, ?_, List.nodup_nil, ?_, ?_⟩
    · intro e he
      exact absurd he List.not_mem_nil
    · intro e he
      exact absurd he List.not_mem_nil
    · intro e he
      exact absurd he List.not_mem_nil
  guarded := by
    refine ⟨?_, ?_, fun h => absurd rfl h⟩
    · rintro _ _ _ _ _ ⟨l, hl, -⟩
      exact absurd hl List.not_mem_nil
    · intro h g hg
      exact absurd (show (none : Option Gap) = some g from hg) (by simp)
  legal := fun o r hr => absurd ((recAt_empty o).symm.trans hr) (by simp)
  low := fun o r hr => absurd ((recAt_empty o).symm.trans hr) (by simp)
  wrote := fun o it hit => absurd ((item_created o).symm.trans hit) (by simp)
  map := fun _ _ _ => rfl

theorem Solo.created (p : Pid) : Solo P dead p World.created := by
  refine ⟨⟨Inv.created, ?_, rfl, rfl⟩, ?_, fun _ _ => ⟨rfl, rfl⟩⟩
  · rintro _ _ _ ⟨l, hl, -⟩
    exact absurd hl List.not_mem_nil
  · intro l hl
    exact absurd hl List.not_mem_nil

/-! ## Sequences of calls -/

theorem exec_session_cons (c : Call) (cs : List Call) :
    exec (sysStep p) ((session (c :: cs)).run db) os =
      match c.run p db os with
      | .done (r, db') os' =>
        match exec (sysStep p) ((session cs).run db') os' with
        | .done (rs, db'') os'' => .done (r :: rs, db'') os''
        | .halted e os'' => .halted e os''
        | .blocked os'' => .blocked os''
      | .halted e os' => .halted e os'
      | .blocked os' => .blocked os' := by
  rw [session, StateT.run_bind, Prog.exec_bind]
  unfold Call.run
  cases exec (sysStep p) (c.prog.run db) os with
  | done a os' =>
    obtain ⟨r, db'⟩ := a
    dsimp only
    rw [StateT.run_bind, Prog.exec_bind]
    cases exec (sysStep p) ((session cs).run db') os' with
    | done a os'' => rfl
    | halted e os'' => rfl
    | blocked os'' => rfl
  | halted e os' => rfl
  | blocked os' => rfl

/-- **A sequence of calls** returns what the map returns, or a call exceeds a limit. -/
theorem session_sat (hclean : ∀ k, P k → SEP ∉ k) (cs : List Call) :
    ∀ {db : DB} {w : World}, Solo P dead p w → w.live → Opened db → (∀ c ∈ cs, c.OnMap P) →
      (exec (sysStep p) ((session cs).run db) w.os).Sat
        (fun a os' => a.1 = results cs w.map ∧ Opened a.2 ∧
          ∃ w', w'.os = os' ∧ Solo P dead p w' ∧ w'.live ∧ w'.map = mapAfter cs w.map)
        (fun e _ => e.IsLimit ∧ Exceeds p cs db w.os) := by
  induction cs with
  | nil => exact fun {db w} h hlive hdb _ => ⟨rfl, hdb, w, rfl, h, hlive, rfl⟩
  | cons c cs ih =>
    intro db w h hlive hdb hc
    have hcall := h.call hdb (hc c (List.mem_cons_self ..))
    rw [exec_session_cons]
    cases hrun : c.run p db w.os with
    | blocked os' =>
      rw [hrun] at hcall
      exact hcall
    | halted e os' =>
      rw [hrun] at hcall
      obtain ⟨w', -, -, -, hl, hy⟩ := hcall
      obtain ⟨hlim, hfits⟩ := hy.limit hclean hl.inv
      exact ⟨hlim, Or.inl hfits⟩
    | done a os' =>
      obtain ⟨r, db'⟩ := a
      rw [hrun] at hcall
      obtain ⟨w', rfl, h', hdb', hran, hret⟩ := hcall
      -- alone, the call sees the map as the calls before have left it
      obtain ⟨hr, hm⟩ : r = (c.spec w.map).2 ∧ w'.map = (c.spec w.map).1 :=
        hran.result (Function.update_self ..) hlive hret
      have hlive' : w'.live := hran.live ▸ hlive
      have hrest := ih h' hlive' hdb' fun c' hc' => hc c' (List.mem_cons_of_mem _ hc')
      dsimp only
      cases hses : exec (sysStep p) ((session cs).run db') w'.os with
      | blocked os'' =>
        rw [hses] at hrest
        exact hrest
      | halted e os'' =>
        rw [hses] at hrest
        exact ⟨hrest.1, Or.inr ⟨r, db', w'.os, hrun, hrest.2⟩⟩
      | done b os'' =>
        obtain ⟨rs, db''⟩ := b
        rw [hses] at hrest
        rw [hm] at hrest
        refine ⟨?_, hrest.2⟩
        show r :: rs = (c.spec w.map).2 :: results cs (c.spec w.map).1
        have hrs : rs = results cs (c.spec w.map).1 := hrest.1
        rw [hr, hrs]

/-- A key with a byte in it and without separators. -/
def LegalKey (k : List Byte) : Prop := k ≠ [] ∧ SEP ∉ k

instance (k : List Byte) : Decidable (LegalKey k) := inferInstanceAs (Decidable (_ ∧ _))

/-- **The library is a map.** On a database that `db_open` has just initialised, every sequence
of stores, deletes and fetches returns what a map returns, until a call exceeds a limit. -/
theorem session_map (p : Pid) (idx dat : List Byte) (db : DB) (cs : List Call)
    (hcs : ∀ c ∈ cs, c.OnMap LegalKey) :
    ∃ db₀ os₀, (Call.open true true).run p db ⟨idx, dat, []⟩ = .done (.unit, db₀) os₀ ∧
      (exec (sysStep p) ((session cs).run db₀) os₀).Sat
        (fun a _ => a.1 = results cs Map.empty)
        (fun e _ => e.IsLimit ∧ Exceeds p cs db₀ os₀) := by
  refine ⟨DB.opened, OS.created, run_open (exec_create p idx dat db), ?_⟩
  have hsolo : Solo LegalKey (fun _ => False) p World.created := Solo.created p
  have h := session_sat (fun _ hk => hk.2) cs hsolo trivial opened_opened hcs
  exact h.mono (fun _ _ ha => ha.1) fun _ _ he => he

/-- The same for a store, a second store and a fetch. -/
theorem session_map_three :
    let k : CString := ⟨[97], by decide⟩
    let d : CString := ⟨[98], by decide⟩
    ∃ db₀ os₀, (Call.open true true).run 0 {} ⟨[], [], []⟩ = .done (.unit, db₀) os₀ ∧
      (exec (sysStep 0) ((session [.store k d DB_INSERT, .store k d DB_INSERT, .fetch k]).run
        db₀) os₀).Sat
        (fun a _ => a.1 = results [.store k d DB_INSERT, .store k d DB_INSERT, .fetch k] Map.empty)
        (fun e _ => e.IsLimit ∧
          Exceeds 0 [.store k d DB_INSERT, .store k d DB_INSERT, .fetch k] db₀ os₀) :=
  session_map 0 [] [] {} _ (by
    intro c hc
    simp only [List.mem_cons, List.not_mem_nil, or_false] at hc
    rcases hc with rfl | rfl | rfl
    · exact ⟨by simp, by decide⟩
    · exact ⟨by simp, by decide⟩
    · trivial)

end LearningNotes.Db
