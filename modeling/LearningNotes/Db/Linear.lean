import LearningNotes.Db.Crash
import LearningNotes.Db.Processes
import LearningNotes.Lib.Linear

/-!
# Any number of processes

Processes that store, delete and fetch on one database, each with a handle of its own; their
system calls interleave in any way. `linearizable`: the calls can be lined up so that each of them
returns what a map returns, and the files hold that map.

A call has its moment when it gives the lock of its chain back; the invariant says of every
operation whether it is that moment (`Guar.step`). What is left is to keep the line of the calls
beside the log (`Lined`).

A process may be ended by a check of a limit. That does no harm unless its call has changed a
pointer by then (`Broken`): a `db_store` that replaces a record deletes the old one first, and if the
new one then does not fit, the pair is lost (`linearizable_false`).
-/

namespace LearningNotes.Db

open RangeLock (Held)

variable {p q : Pid} {log : List Happening} {e : Happening} {w w' : World} {i j n : Nat} {c : Call}
  {o : Op} {l : DB} {r : Ret} {os : OS} {m : Map}

/-- A call with a legal key, and data of a length that `db_store` admits. -/
def Call.Regular : Call → Prop
  | .store key data _ => LegalKey key.val ∧
      DATLEN_MIN ≤ data.val.length + 1 ∧ data.val.length + 1 ≤ DATLEN_MAX
  | .fetch key | .delete key => LegalKey key.val
  | _ => False

/-- A check has ended process `p`, as number `n` of the log, in the call number `i`, which had
written a pointer as number `j`. -/
structure Broken (log : List Happening) (p : Pid) (i j n : Nat) : Prop where
  order : i < j ∧ j < n
  call : ∃ c, log[i]? = some (.call p c)
  write : ∃ o, log[j]? = some (.op p o) ∧ o.SetsPtr
  stop : ∃ e, log[n]? = some (.stop p e)
  within : ∀ k e, i < k → k < n → log[k]? = some e → ¬ e.Bounds p

/-- No process has been ended behind a pointer that it has written. -/
def Unbroken (log : List Happening) : Prop := ∀ p i j n, ¬ Broken log p i j n

theorem Unbroken.of_concat (h : Unbroken (log ++ [e])) : Unbroken log := by
  intro p i j n hb
  obtain ⟨c, hc⟩ := hb.call
  obtain ⟨o, ho, hptr⟩ := hb.write
  obtain ⟨e', he⟩ := hb.stop
  refine h p i j n ⟨hb.order, ⟨c, ?_⟩, ⟨o, ?_, hptr⟩, ⟨e', ?_⟩, fun k e hik hkn hk => ?_⟩
  · exact (getElem?_concat_lt (lt_length_of_getElem? hc)).trans hc
  · exact (getElem?_concat_lt (lt_length_of_getElem? ho)).trans ho
  · exact (getElem?_concat_lt (lt_length_of_getElem? he)).trans he
  · have hlt := Nat.lt_trans hkn (lt_length_of_getElem? he)
    exact hb.within k e hik hkn ((getElem?_concat_lt hlt).symm.trans hk)

/-- The end of a process whose call has written a pointer. -/
theorem broken_of_pending {e : Fatal} (h : LearningNotes.Pending log p i c) (hij : i < j)
    (hj : log[j]? = some (.op p o)) (ho : o.SetsPtr) :
    Broken (log ++ [Event.stop p e]) p i j log.length := by
  have hlt := lt_length_of_getElem? hj
  refine ⟨⟨hij, hlt⟩, ⟨c, ?_⟩, ⟨o, ?_, ho⟩, ⟨e, List.getElem?_concat_length⟩, fun k e hik hk he => ?_⟩
  · exact (getElem?_concat_lt (Nat.lt_trans hij hlt)).trans h.call
  · exact (getElem?_concat_lt hlt).trans hj
  · exact h.last k e hik ((getElem?_concat_lt hk).symm.trans he)

/-! ## The invariant -/

/-- The log so far, and the world. While the map is right, the calls of the log lead to it. -/
structure Lined (log : List Happening) (w : World) : Prop where
  inv : Inv LegalKey w
  live : Unbroken log → w.live
  moved : ∀ p i c, LearningNotes.Pending log p i c → w.moved p = true →
    ∃ j o, i < j ∧ log[j]? = some (.op p o) ∧ o.SetsPtr
  stops : ∀ (n : Nat) (p : Pid) (e : Fatal), log[n]? = some (.stop p e) → e.IsLimit
  line : w.live → ∃ line, Linearized Call.spec Map.empty log line w.map w.lin

/-- A pointer written before one more event. -/
theorem Lined.moved_concat (h : Lined log w) (hp : LearningNotes.Pending log p i c)
    (hm : w.moved p = true) (e : Happening) :
    ∃ j o, i < j ∧ (log ++ [e])[j]? = some (.op p o) ∧ o.SetsPtr := by
  obtain ⟨j, o, hij, hj, ho⟩ := h.moved p i c hp hm
  exact ⟨j, o, hij, (getElem?_concat_lt (lt_length_of_getElem? hj)).trans hj, ho⟩

/-- One more event that ends no process. -/
theorem Lined.stops_concat (h : Lined log w) (he : ∀ p e', e = .stop p e' → e'.IsLimit) (n : Nat)
    (p : Pid) (e' : Fatal) (hn : (log ++ [e])[n]? = some (.stop p e')) : e'.IsLimit := by
  rcases getElem?_concat_cases hn with ⟨-, hn⟩ | ⟨-, hn⟩
  · exact h.stops n p e' hn
  · exact he p e' hn.symm

/-- A process begins a call. -/
theorem Lined.call (h : Lined log w) (p : Pid) (c : Call) :
    Lined (log ++ [.call p c]) (w.begin p) where
  inv := h.inv.begin p
  live := fun hu => h.live hu.of_concat
  moved := by
    intro q i c' hp hm
    rcases pending_concat.mp hp with ⟨hp, hb⟩ | ⟨-, he⟩
    · have hsame : (w.begin p).moved q = w.moved q := Function.update_of_ne (Ne.symm hb) ..
      exact h.moved_concat hp (hsame.symm.trans hm) _
    · cases he
      have hfalse : (w.begin p).moved p = false := Function.update_self ..
      rw [hfalse] at hm
      exact absurd hm (by simp)
  stops := h.stops_concat nofun
  line := by
    intro hl
    obtain ⟨line, hline⟩ := h.line hl
    exact ⟨line, hline.begin (Function.update_self ..) fun q hq => Function.update_of_ne hq ..⟩

/-- An operation of a call, which may be the moment of the call. -/
theorem Lined.op (h : Lined log w) (hp : LearningNotes.Pending log p i c)
    (hg : Guar LegalKey p c o w w') : Lined (log ++ [.op p o]) w' where
  inv := hg.inv
  live := fun hu => hg.live.symm ▸ h.live hu.of_concat
  moved := by
    intro q i' c' hq hm
    rcases pending_concat.mp hq with ⟨hold, -⟩ | ⟨-, he⟩
    · by_cases hqp : q = p
      · subst hqp
        rcases hg.turn.sets hm with hm | ho
        · exact h.moved_concat hold hm _
        · exact ⟨log.length, o, lt_length_of_getElem? hold.call, List.getElem?_concat_length, ho⟩
      · rw [hg.moved q hqp] at hm
        exact h.moved_concat hold hm _
    · cases he
  stops := h.stops_concat nofun
  line := by
    intro hl
    rw [hg.live] at hl
    obtain ⟨line, hline⟩ := h.line hl
    rcases hg.step with ⟨hmap, hlin⟩ | ⟨hnone, hmap, hsome⟩
    · have hlins : w'.lin = w.lin := by
        funext q
        by_cases hqp : q = p
        · rw [hqp, hlin]
        · exact hg.lin q hqp
      rw [hmap, hlins]
      exact ⟨line, hline.concat nofun nofun⟩
    · rw [hmap]
      exact ⟨_, (hline.moment hp hnone hsome hg.lin).concat nofun nofun⟩

/-- A call returns. -/
theorem Lined.ret (h : Lined log w) (hp : LearningNotes.Pending log p i c)
    (hr : Returns LegalKey p c r w) : Lined (log ++ [.ret p r]) w where
  inv := h.inv
  live := fun hu => h.live hu.of_concat
  moved := by
    intro q i' c' hq hm
    rcases pending_concat.mp hq with ⟨hold, -⟩ | ⟨-, he⟩
    · exact h.moved_concat hold hm _
    · cases he
  stops := h.stops_concat nofun
  line := by
    intro hl
    obtain ⟨line, hline⟩ := h.line hl
    rcases hr.lin hl with hsome | ⟨hnone, hspec⟩
    · refine ⟨line, hline.concat nofun fun q r' he => ?_⟩
      cases he
      exact hsome
    · exact ⟨_, hline.refused hp hnone hspec⟩

/-- A check ends a process. -/
theorem Lined.stop {e : Fatal} (h : Lined log w) (hp : LearningNotes.Pending log p i c)
    (hl : Leaves LegalKey p w) (he : e.IsLimit) :
    Lined (log ++ [.stop p e]) (w.exit p (w.live ∧ w.moved p = false)) where
  inv := Inv.exit hl id
  live := by
    intro hu
    refine ⟨h.live hu.of_concat, ?_⟩
    by_contra hm
    obtain ⟨j, o, hij, hj, ho⟩ := h.moved p i c hp (Bool.not_eq_false _ ▸ hm)
    exact hu p i j log.length (broken_of_pending hp hij hj ho)
  moved := by
    intro q i' c' hq hm
    rcases pending_concat.mp hq with ⟨hold, -⟩ | ⟨-, he⟩
    · exact h.moved_concat hold hm _
    · cases he
  stops := h.stops_concat fun q e' h' => by
    cases h'
    exact he
  line := by
    intro hlive
    obtain ⟨line, hline⟩ := h.line hlive.1
    exact ⟨line, hline.concat nofun nofun⟩

theorem lined_start : Lined [] World.created where
  inv := Inv.created
  live := fun _ => trivial
  moved := fun _ _ _ h => absurd h not_pending_nil
  stops := by simp
  line := fun _ => ⟨[], .start⟩

/-- Only a limit ends a process if no key has a separator. -/
theorem Why.isLimit {P : List Byte → Prop} {E : Env P p} {e : Fatal} (h : Why E c w e w')
    (hclean : ∀ k, P k → SEP ∉ k) (hinv : Inv P w') : e.IsLimit := by
  rcases h with ⟨he, -⟩ | ⟨-, o, rec, hrec, hs⟩
  · exact he
  · rcases hinv.legal o rec hrec with hb | hP
    · exact absurd (hb SEP hs) (by decide)
    · exact absurd hs (hclean _ hP)

/-- A call of a process, among the others. -/
theorem wpM_lined (h : Idle LegalKey p w) (hdb : Opened l) (hc : c.OnMap LegalKey) :
    wpM (rules (Env.others LegalKey p) c) p c.prog
      (fun r l w => Returns LegalKey p c r w ∧ Opened l)
      (fun e w => Leaves LegalKey p w ∧ e.IsLimit) l (w.begin p) := by
  refine wpM_call h.ready hdb hc ?_ ?_
  · intro r db' w' hdb' hr
    exact ⟨hr, hdb'⟩
  · intro e w' hl hy
    exact ⟨hl, hy.isLimit (fun _ hk => hk.2) hl.inv⟩

/-- What holds when processes work on the map. -/
def lining : Argument library (fun _ => Call.OnMap LegalKey) World where
  erase := World.os
  rely := Rely LegalKey
  guar := fun p c o w w' => Inv LegalKey w → Guar LegalKey p c o w w'
  good := Lined
  idle := fun p l w => Idle LegalKey p w ∧ Opened l
  done := fun p c a w => Returns LegalKey p c a.1 w ∧ Opened a.2
  stopped := fun p _ e w => Leaves LegalKey p w ∧ e.IsLimit
  rely_refl := fun _ w => Rely.refl w
  rely_trans := fun h h' => h.trans h'
  idle_rely := fun hr h => ⟨h.1.rely hr, h.2⟩
  done_rely := fun hr h => ⟨h.1.rely hr, h.2⟩
  stopped_rely := fun hr h => ⟨h.1.rely hr, h.2⟩
  call := by
    intro log w p l c h hidle hc _
    refine ⟨w.begin p, rfl, ⟨h.call p c, fun q hq => rely_begin w hq⟩, ?_⟩
    exact wpM_lined hidle.1 hidle.2 hc
  op := by
    intro log w w' p c i o h hp hg
    have hguar := hg h.inv
    exact ⟨h.op hp hguar, fun q hq => hguar.rely h.inv hq⟩
  ret := by
    intro log w p c i r l h hp hd
    exact ⟨w, rfl, ⟨h.ret hp hd.1, fun _ _ => Rely.refl w⟩, hd.1.idle, hd.2⟩
  stop := by
    intro log w p c i e h hp hs
    exact ⟨_, rfl, h.stop hp hs.1 hs.2, fun q hq => hs.1.rely_exit id hq⟩

/-! ## The files -/

/-- Nobody has the exclusive lock of chain `h`. -/
def Settled (os : OS) (h : Nat) : Prop :=
  ∀ q, ¬ Held os.locks q .idxfd .wrlck (h * PTR_SZ + HASH_OFF)

/-- **The files hold the map**, `x` and `y` being the files and `cells` the lists: every record is
in one place, on a chain, on the free list or in the hand of a process, and only once there; no
chain has a key twice; and a chain that nobody has locked exclusively can be followed, and has the
keys with the data that the map says. -/
structure FilesHold (os : OS) (m : Map) (x : Index) (y : List CString) (cells : Place → List Cell) :
    Prop where
  idx : os.idx = x.bytes
  ok : x.Ok
  dat : os.dat = datBytes y
  store : ∀ ℓ, ∀ e ∈ cells ℓ, x.recAt e.1 = some e.2.toRec ∧
    blockAt y e.2.datoff = some e.2.data ∧ e.2.datlen = blockSize e.2.data
  once : ∀ o r, x.recAt o = some r → ∃! ℓ, o ∈ (cells ℓ).map Prod.fst
  nodup : ∀ ℓ, ((cells ℓ).map Prod.fst).Nodup
  hash : ∀ h, ∀ e ∈ cells (.chain h), dbHash NHASH_DEF e.2.key = h
  keys : ∀ h, ((cells (.chain h)).map (·.2.key)).Nodup
  blank : ∀ e ∈ cells .free, Blank e.2.key
  chain : ∀ h, h < NHASH_DEF → Settled os h →
    ∃ a, x.get (.chain h) = some a ∧ Seg 0 link a (cells (.chain h)) 0
  map : ∀ k, Settled os (dbHash NHASH_DEF k) → lookup k (cells (World.chainOf k)) = m k

/-- What holds of every chain holds of the chains of the table, the others being empty. -/
theorem Inv.on_chain {P : List Byte → Prop} (h : Inv P w) (i : Nat) :
    (∀ e ∈ w.cells (.chain i), dbHash NHASH_DEF e.2.key = i) ∧
      ((w.cells (.chain i)).map (·.2.key)).Nodup := by
  by_cases hi : i < NHASH_DEF
  · exact ⟨(h.lists.chain i hi).hash, (h.lists.chain i hi).keys⟩
  · rw [h.lists.range i (Nat.le_of_not_lt hi)]
    exact ⟨fun e he => absurd he List.not_mem_nil, List.nodup_nil⟩

theorem Inv.filesHold {P : List Byte → Prop} (h : Inv P w) (hlive : w.live) :
    FilesHold w.os w.map w.x w.y w.cells where
  idx := h.files.idx
  ok := h.files.ok
  dat := h.files.dat
  store := fun ℓ e he => ⟨h.placed.recAt he, h.placed.block he, h.placed.len ℓ e he⟩
  once := by
    intro o r hr
    refine ⟨w.own o, h.placed.total o r hr, fun ℓ hmem => ?_⟩
    obtain ⟨e, he, rfl⟩ := List.mem_map.mp hmem
    exact (h.placed.own ℓ e he).symm
  nodup := h.placed.once
  hash := fun i => (h.on_chain i).1
  keys := fun i => (h.on_chain i).2
  blank := h.lists.free.blank
  chain := by
    intro i hi hset
    have hthread := (h.lists.chain i hi).thread
    have hgap : w.gap i = none := by
      cases hg : w.gap i with
      | none => rfl
      | some g =>
        obtain ⟨q, hq, -⟩ := h.guarded.gap i g hg
        exact absurd hq (hset q)
    rw [hgap] at hthread
    exact hthread
  map := fun k hset => h.map hlive k hset

/-- **The library is linearizable.** Any number of processes with a handle each, on a database
that `db_open` has just initialised, make any stores, deletes and fetches, and their system calls
interleave in any way. In every state that is reached, unless a process was ended in the middle of a
replacement, the calls so far can be lined up, in agreement with their order in time, so that each
returns what a map returns; the files hold the map to which the line leads; and only a limit has
ended a process. -/
theorem linearizable {s : Processes}
    (hr : Reached (Call.OnMap LegalKey) OS.created (fun _ => DB.opened) s)
    (hu : Unbroken s.log) :
    ∃ line m, Linearizes Call.spec Map.empty s.log line m ∧
      (∃ x y cells, FilesHold s.state m x y cells) ∧
      ∀ (n : Nat) (p : Pid) (e : Fatal), s.log[n]? = some (.stop p e) → e.IsLimit := by
  have hidle : ∀ p, Idle LegalKey p World.created ∧ Opened DB.opened := by
    intro p
    have hsolo : Solo LegalKey (fun _ => False) p World.created := Solo.created p
    exact ⟨hsolo.toIdle, opened_opened⟩
  obtain ⟨w, hw⟩ := (lining.holds_start lined_start hidle).reach hr
  have hlined : Lined s.log w := hw.good
  have hlive := hlined.live hu
  obtain ⟨line, hline⟩ := hlined.line hlive
  have hstate : w.os = s.state := hw.state
  refine ⟨line, w.map, hline.toLinearizes, ⟨w.x, w.y, w.cells, ?_⟩, hlined.stops⟩
  rw [← hstate]
  exact hlined.inv.filesHold hlive

/-- No process has been ended. -/
def goOnB : Happening → Bool
  | .stop _ _ => false
  | _ => true

theorem unbroken_of_goOnB (h : log.all goOnB = true) : Unbroken log := by
  intro p i j n hb
  obtain ⟨e, he⟩ := hb.stop
  have hgo := List.all_eq_true.mp h _ (List.mem_of_getElem? he)
  exact absurd hgo (by simp [goOnB])

/-- Two processes insert a pair under one key; the second one waits for the first. -/
def bothInsert : List (Act Pid Call) :=
  .call 0 (.store ⟨[97], nul_not_mem_a⟩ ⟨[98], nul_not_mem_b⟩ DB_INSERT) ::
    .call 1 (.store ⟨[97], nul_not_mem_a⟩ ⟨[97], nul_not_mem_a⟩ DB_INSERT) ::
      List.replicate 17 (.go 0) ++ List.replicate 6 (.go 1)

/-- The two insertions have an order. -/
theorem linearizable_two : ∃ s : Processes,
    Reached (Call.OnMap LegalKey) OS.created (fun _ => DB.opened) s ∧
      ∃ line m, Linearizes Call.spec Map.empty s.log line m ∧
        (∃ x y cells, FilesHold s.state m x y cells) ∧
        ∀ (n : Nat) (p : Pid) (e : Fatal), s.log[n]? = some (.stop p e) → e.IsLimit := by
  have hrun : (library.perform bothInsert (Pool.start OS.created fun _ => DB.opened)).any
      (fun s => s.log.all goOnB) = true := by
    decide +kernel
  obtain ⟨s, hs, hgo⟩ := (Option.any_eq_true _ _).mp hrun
  have hok : ∀ a ∈ bothInsert, a.Ok fun _ => Call.OnMap LegalKey := by
    intro a ha
    simp only [bothInsert, List.cons_append, List.mem_cons, List.mem_append, List.mem_replicate] at ha
    rcases ha with rfl | rfl | ⟨-, rfl⟩ | ⟨-, rfl⟩
    · exact ⟨by decide, by decide⟩
    · exact ⟨by decide, by decide⟩
    · trivial
    · trivial
  have hr : Reached (Call.OnMap LegalKey) OS.created (fun _ => DB.opened) s :=
    Machine.reach_of_perform hok hs
  exact ⟨s, hr, linearizable hr (unbroken_of_goOnB hgo)⟩

/-! ## A replacement that is stopped -/

/-- Only a delete takes a key away. -/
theorem Call.spec_keeps {k : List Byte} (hdel : ∀ key, c ≠ .delete key) (hm : m k ≠ none) :
    (c.spec m).1 k ≠ none := by
  by_cases hk : c.key? = some k
  · cases c with
    | store key data flag =>
      cases hk
      show (if storeRc (m key.val) flag = 0 then m.set key.val (some data.val) else m) key.val ≠ none
      by_cases hrc : storeRc (m key.val) flag = 0
      · rw [if_pos hrc, Map.set_self]
        exact Option.some_ne_none _
      · rw [if_neg hrc]
        exact hm
    | delete key => exact absurd rfl (hdel key)
    | fetch key => exact hm
    | «open» creat trunc => exact hm
    | rewind => exact hm
    | nextrec => exact hm
  · rw [Call.spec_ne c m hk]
    exact hm

/-- A key that has been stored and not deleted cannot be missing afterwards. -/
theorem not_linearizes {k d : CString} {flag : Int} {i' j' : Nat}
    (hs : Completed log p i (.store k d flag) j (.rc 0))
    (hf : Completed log q i' (.fetch k) j' (.data none)) (hji : j < i')
    (hdel : ∀ (n : Nat) (q : Pid) (key : CString), log[n]? ≠ some (.call q (.delete key))) (line : List (Entry Pid Call Ret)) :
    ¬ Linearizes Call.spec Map.empty log line m := by
  intro h
  have hsmem := h.returned _ _ _ _ _ hs
  have hfmem := h.returned _ _ _ _ _ hf
  obtain ⟨line₁, rest, rfl⟩ := List.append_of_mem hsmem
  obtain ⟨-, htail, hcross⟩ := List.pairwise_append.mp h.time
  -- the fetch begins behind the end of the store, so it is behind it in the line
  have hin : ⟨i', q, .fetch k, .data none⟩ ∈ rest := by
    rcases List.mem_append.mp hfmem with hfront | hback
    · have hlt := hcross _ hfront _ (List.mem_cons_self ..) j (.rc 0) hs
      change i' < j at hlt
      omega
    · rcases List.mem_cons.mp hback with heq | hrest
      · cases heq
      · exact hrest
  obtain ⟨line₂, line₃, rfl⟩ := List.append_of_mem hin
  obtain ⟨m₁, -, hret, hreplay⟩ := replays_append.mp h.replay
  obtain ⟨m₂, hmid, hfetch, -⟩ := replays_append.mp hreplay
  have hstored : ((Call.store k d flag).spec m₁).1 k.val ≠ none := by
    have hrc : storeRc (m₁ k.val) flag = 0 := (Ret.rc.inj hret).symm
    show (if storeRc (m₁ k.val) flag = 0 then m₁.set k.val (some d.val) else m₁) k.val ≠ none
    rw [if_pos hrc, Map.set_self]
    exact Option.some_ne_none _
  have hkept : m₂ k.val ≠ none := by
    refine hmid.keeps (fun m => m k.val ≠ none) (fun a ha m hm => ?_) hstored
    refine Call.spec_keeps (fun key hc => hdel a.idx a.proc key ?_) hm
    have hcall := h.call a (by simp [ha])
    rw [hc] at hcall
    exact hcall
  exact hkept (Ret.data.inj hfetch).symm

/-- A pair is stored, and its replacement, whose index record would be too long, is stopped. Another
process asks for the key. -/
def lostReplace : List (Act Pid Call) :=
  .call 0 (.store (letters 1019) (letters 8) DB_INSERT) :: List.replicate 17 (.go 0) ++
    .call 0 (.store (letters 1019) (letters 9) DB_REPLACE) :: List.replicate 17 (.go 0) ++
      .call 1 (.fetch (letters 1019)) :: List.replicate 4 (.go 1)

/-- The event is an operation. -/
def isOpB : Happening → Bool
  | .op _ _ => true
  | _ => false

/-- The event is no beginning of a delete. -/
def keepsB : Happening → Bool
  | .call _ (.delete _) => false
  | _ => true

/-- Number `i` is the call `c` of process `p`, number `j` its return, and there are only operations
between them. -/
def completedB (log : List Happening) (p : Pid) (i : Nat) (c : Call) (j : Nat) (r : Ret) : Bool :=
  (match (log[i]? : Option Happening) with
    | some (.call p' c') => p' = p && c' = c
    | _ => false) &&
  (match (log[j]? : Option Happening) with
    | some (.ret p' r') => p' = p && r' = r
    | _ => false) && ((log.take j).drop (i + 1)).all isOpB

theorem completed_of_completedB (hij : i < j) (h : completedB log p i c j r = true) :
    Completed log p i c j r := by
  simp only [completedB, Bool.and_eq_true] at h
  obtain ⟨⟨hcall, hret⟩, hops⟩ := h
  refine ⟨hij, ?_, ?_, fun n e hin hnj hn => ?_⟩
  · split at hcall
    next heq =>
      simp only [Bool.and_eq_true, decide_eq_true_eq] at hcall
      obtain ⟨rfl, rfl⟩ := hcall
      exact heq
    next => exact absurd hcall (by simp)
  · split at hret
    next heq =>
      simp only [Bool.and_eq_true, decide_eq_true_eq] at hret
      obtain ⟨rfl, rfl⟩ := hret
      exact heq
    next => exact absurd hret (by simp)
  · have hmem : ((log.take j).drop (i + 1))[n - (i + 1)]? = some e := by
      rw [List.getElem?_drop, show i + 1 + (n - (i + 1)) = n by omega, List.getElem?_take_of_lt hnj]
      exact hn
    have hop := List.all_eq_true.mp hops e (List.mem_of_getElem? hmem)
    cases e with
    | op q o => exact id
    | call q c => exact absurd hop (by simp [isOpB])
    | ret q r => exact absurd hop (by simp [isOpB])
    | stop q e => exact absurd hop (by simp [isOpB])

/-- What happens in that run: a store, an end of its process, a fetch that finds nothing. -/
def lostB (s : Processes) : Bool :=
  completedB s.log 0 0 (.store (letters 1019) (letters 8) DB_INSERT) 17 (.rc 0) &&
    completedB s.log 1 36 (.fetch (letters 1019)) 40 (.data none) && s.log.all keepsB

set_option maxRecDepth 100000 in
/-- A replacement that is stopped loses the pair, and no order of the calls explains that. -/
theorem linearizable_false : ¬ ∀ s : Processes,
    Reached Call.Regular OS.created (fun _ => DB.opened) s →
      ∃ line m, Linearizes Call.spec Map.empty s.log line m := by
  intro hall
  have hrun : (library.perform lostReplace (Pool.start OS.created fun _ => DB.opened)).any lostB =
      true := by
    decide +kernel
  obtain ⟨s, hs, hlost⟩ := (Option.any_eq_true _ _).mp hrun
  have hok : ∀ a ∈ lostReplace, a.Ok fun _ => Call.Regular := by
    have hkey : LegalKey (letters 1019).val := by decide +kernel
    intro a ha
    simp only [lostReplace, List.cons_append, List.mem_cons, List.mem_append, List.mem_replicate] at ha
    rcases ha with rfl | (⟨-, rfl⟩ | rfl | ⟨-, rfl⟩) | rfl | ⟨-, rfl⟩
    · exact ⟨hkey, by decide⟩
    · trivial
    · exact ⟨hkey, by decide⟩
    · trivial
    · exact hkey
    · trivial
  obtain ⟨line, m, hline⟩ := hall s (Machine.reach_of_perform hok hs)
  simp only [lostB, Bool.and_eq_true] at hlost
  obtain ⟨⟨hstore, hfetch⟩, hkeeps⟩ := hlost
  refine not_linearizes (completed_of_completedB (by decide) hstore)
    (completed_of_completedB (by decide) hfetch) (by decide) (fun n q key hn => ?_) line hline
  have hk := List.all_eq_true.mp hkeeps _ (List.mem_of_getElem? hn)
  exact absurd hk (by simp [keepsB])

end LearningNotes.Db
