import LearningNotes.Db.Alone

/-!
# Well-formed files

What the two files look like between calls, said of the files alone (`Formed`): records one
behind the other, each of them on one list, the lists ending in `0`, the keys where they hash
to, and the extents of the data tiling the data file. `formed_session` says it of the files
that any sequence of calls leaves on a new database.

A sequence of calls ends with the first one that a check ends. What such a call had taken off a list
is then on none; the rest holds of the files behind it as well (`Chained`), also when other processes
go on with them and are ended in turn (`Reach.chained`, in the module on opening the database again).
-/

namespace LearningNotes.Db

open Prog (exec)

variable {P : List Byte → Prop} {p : Pid} {dead : Pid → Prop} {db : DB} {w : World} {os : OS}

/-- A list of the index file: the free list, or a chain of the hash table. -/
def Place.IsList : Place → Prop
  | .free => True
  | .chain h => h < NHASH_DEF
  | .hand _ => False

/-- The slot of the head of a list. -/
def Place.head : Place → Slot
  | .chain h => .chain h
  | _ => .free

/-- The files `os` are the index `x` and the blocks of data `y`, and `cells` are the lists. -/
structure Formed (os : OS) (x : Index) (y : List CString) (cells : Place → List Cell) : Prop where
  idx : os.idx = x.bytes
  ok : x.Ok
  dat : os.dat = datBytes y
  store : ∀ ℓ, ∀ e ∈ cells ℓ, x.recAt e.1 = some e.2.toRec ∧
    blockAt y e.2.datoff = some e.2.data ∧ e.2.datlen = blockSize e.2.data
  list : ∀ ℓ, ℓ.IsList → ∃ a, x.get ℓ.head = some a ∧ Seg 0 link a (cells ℓ) 0
  nodup : ∀ ℓ, ((cells ℓ).map Prod.fst).Nodup
  short : ∀ ℓ, ℓ.IsList → (cells ℓ).length < loopFuel
  once : ∀ o r, x.recAt o = some r → ∃! ℓ, Place.IsList ℓ ∧ o ∈ (cells ℓ).map Prod.fst
  hash : ∀ h, ∀ e ∈ cells (.chain h), dbHash NHASH_DEF e.2.key = h
  keys : ∀ h, ((cells (.chain h)).map (·.2.key)).Nodup
  blank : ∀ e ∈ cells .free, Blank e.2.key
  within : ∀ o r, x.recAt o = some r → r.datoff + r.datlen ≤ os.dat.length
  tile : ∀ i, i < os.dat.length → ∃! o, ∃ r, x.recAt o = some r ∧ r.datoff ≤ i ∧
    i < r.datoff + r.datlen

/-- What holds of the files when checks may have ended some of the calls: no record is on two lists. -/
structure Chained (os : OS) (x : Index) (y : List CString) (cells : Place → List Cell) : Prop where
  idx : os.idx = x.bytes
  ok : x.Ok
  dat : os.dat = datBytes y
  store : ∀ ℓ, ∀ e ∈ cells ℓ, x.recAt e.1 = some e.2.toRec ∧
    blockAt y e.2.datoff = some e.2.data ∧ e.2.datlen = blockSize e.2.data
  list : ∀ ℓ, ℓ.IsList → ∃ a, x.get ℓ.head = some a ∧ Seg 0 link a (cells ℓ) 0
  nodup : ∀ ℓ, ((cells ℓ).map Prod.fst).Nodup
  short : ∀ ℓ, ℓ.IsList → (cells ℓ).length < loopFuel
  apart : ∀ ℓ ℓ', ∀ o ∈ (cells ℓ).map Prod.fst, o ∈ (cells ℓ').map Prod.fst → ℓ = ℓ'
  hash : ∀ h, ∀ e ∈ cells (.chain h), dbHash NHASH_DEF e.2.key = h
  keys : ∀ h, ((cells (.chain h)).map (·.2.key)).Nodup
  blank : ∀ e ∈ cells .free, Blank e.2.key
  within : ∀ o r, x.recAt o = some r → r.datoff + r.datlen ≤ os.dat.length

/-! ## Extents -/

/-- A record names a block of its length. -/
theorem Placed.blockOf (hp : Placed w) {o : Nat} {r : Rec} (hr : w.x.recAt o = some r) :
    ∃ d, blockAt w.y r.datoff = some d ∧ r.datlen = blockSize d ∧ w.named r.datoff = .record o := by
  obtain ⟨it, hmem, rfl⟩ := hp.exists_cell hr
  exact ⟨it.data, hp.block hmem, hp.len _ _ hmem, hp.named _ _ hmem⟩

theorem Placed.within (hp : Placed w) (hf : Files w) {o : Nat} {r : Rec}
    (hr : w.x.recAt o = some r) : r.datoff + r.datlen ≤ w.os.dat.length := by
  obtain ⟨d, hd, hlen, -⟩ := hp.blockOf hr
  have hle := (entryAt_le blockSize_pos hd).2
  rw [hf.dat, length_datBytes, hlen]
  omega

/-- With nothing pending, every byte of the data file is in the extent of one record. -/
theorem Placed.tile (hp : Placed w) (hf : Files w) (hpend : ∀ q, w.pend q = []) {i : Nat}
    (hi : i < w.os.dat.length) : ∃! o, ∃ r, w.x.recAt o = some r ∧ r.datoff ≤ i ∧
      i < r.datoff + r.datlen := by
  rw [hf.dat, length_datBytes] at hi
  obtain ⟨d, s, hs, hle, hlt⟩ := entryAt_cover blockSize_pos (Nat.zero_le i)
    (show i < 0 + extent blockSize w.y by omega)
  have hcover := hp.cover d s hs
  cases hn : w.named d with
  | proc q =>
    rw [hn] at hcover
    dsimp only at hcover
    rw [hpend q] at hcover
    exact absurd hcover (by simp)
  | record o =>
    rw [hn] at hcover
    obtain ⟨r, hr, hd⟩ := hcover
    subst hd
    obtain ⟨s', hs', hlen, -⟩ := hp.blockOf hr
    have hss : s' = s := Option.some.inj (hs'.symm.trans hs)
    subst hss
    refine ⟨o, ⟨r, hr, hle, by omega⟩, ?_⟩
    rintro o' ⟨r', hr', hle', hlt'⟩
    -- two blocks with a byte in common are the same block, and a block is named once
    obtain ⟨d', hd', hlen', hnamed'⟩ := hp.blockOf hr'
    have heq : r'.datoff = r.datoff := by
      by_contra hne
      rcases Nat.lt_or_gt_of_ne hne with hlt₂ | hlt₂
      · have := entryAt_disjoint blockSize_pos hd' hs hlt₂
        omega
      · have := entryAt_disjoint blockSize_pos hs hd' hlt₂
        omega
    rw [heq, hn] at hnamed'
    cases hnamed'
    rfl

/-! ## The files between two calls -/

/-- The files of a process alone, whatever dead processes have left. -/
theorem Solo.chained (h : Solo P dead p w) : Chained w.os w.x w.y w.cells := by
  have hp := h.inv.placed
  have hf := h.inv.files
  have hlist : ∀ ℓ, ℓ.IsList → ∃ a, w.x.get ℓ.head = some a ∧ Seg 0 link a (w.cells ℓ) 0 := by
    intro ℓ hℓ
    cases ℓ with
    | free => exact h.inv.lists.free.thread
    | chain i =>
      have hthread := (h.inv.lists.chain i hℓ).thread
      rw [h.gap i] at hthread
      exact hthread
    | hand q => exact hℓ.elim
  refine ⟨hf.idx, hf.ok, hf.dat, ?_, hlist, hp.once, ?_, ?_, ?_, ?_, h.inv.lists.free.blank,
    fun o r hr => hp.within hf hr⟩
  · intro ℓ e he
    exact ⟨hp.recAt he, hp.block he, hp.len ℓ e he⟩
  · intro ℓ hℓ
    obtain ⟨a, ha, hseg⟩ := hlist ℓ hℓ
    exact length_lt_fuel (Index.get_split hf.ok ha).1 hseg (fun e he => h.inv.ptr_le e he) (hp.once ℓ)
  · intro ℓ ℓ' o ho ho'
    obtain ⟨e, he, rfl⟩ := List.mem_map.mp ho
    obtain ⟨e', he', heq⟩ := List.mem_map.mp ho'
    exact (hp.own ℓ e he).symm.trans (heq ▸ hp.own ℓ' e' he')
  · intro i e he
    by_cases hi : i < NHASH_DEF
    · exact (h.inv.lists.chain i hi).hash e he
    · rw [h.inv.lists.range i (Nat.le_of_not_lt hi)] at he
      exact absurd he List.not_mem_nil
  · intro i
    by_cases hi : i < NHASH_DEF
    · exact (h.inv.lists.chain i hi).keys
    · rw [h.inv.lists.range i (Nat.le_of_not_lt hi)]
      exact List.nodup_nil

/-- When no dead process has left anything, every record is on a list. -/
theorem Solo.formed (h : Solo P (fun _ => False) p w) : Formed w.os w.x w.y w.cells := by
  have hp := h.inv.placed
  have hc := h.chained
  have hhand : ∀ q, w.cells (.hand q) = [] := fun q => (h.hands q id).1
  refine ⟨hc.idx, hc.ok, hc.dat, hc.store, hc.list, hc.nodup, hc.short, ?_, hc.hash, hc.keys, hc.blank,
    hc.within, fun i hi => hp.tile h.inv.files (fun q => (h.hands q id).2) hi⟩
  intro o r hr
  refine ⟨w.own o, ⟨?_, hp.total o r hr⟩, fun ℓ hℓ => hc.apart _ _ o hℓ.2 (hp.total o r hr)⟩
  have hmem := hp.total o r hr
  cases hown : w.own o with
  | free => trivial
  | hand q =>
    rw [hown, hhand q] at hmem
    exact absurd hmem (by simp)
  | chain i =>
    rw [hown] at hmem
    by_contra hlt
    rw [h.inv.lists.range i (Nat.le_of_not_lt hlt)] at hmem
    exact absurd hmem (by simp)

/-- **The files stay well-formed.** Whatever stores, deletes and fetches a process makes on a
database that `db_open` has just initialised, the files are well-formed when it has made them,
and no loop of the library runs out of steps. -/
theorem formed_session (p : Pid) (idx dat : List Byte) (db : DB) (cs : List Call)
    (hcs : ∀ c ∈ cs, c.OnMap LegalKey) :
    ∃ db₀ os₀, (Call.open true true).run p db ⟨idx, dat, []⟩ = .done (.unit, db₀) os₀ ∧
      (exec (sysStep p) ((session cs).run db₀) os₀).Sat
        (fun _ os => ∃ x y cells, Formed os x y cells)
        (fun e _ => e ≠ .hang) := by
  refine ⟨DB.opened, OS.created, run_open (exec_create p idx dat db), ?_⟩
  have hsolo : Solo LegalKey (fun _ => False) p World.created := Solo.created p
  have h := session_sat (fun _ hk => hk.2) cs hsolo trivial opened_opened hcs
  refine h.mono ?_ ?_
  · rintro a os ⟨-, -, w', rfl, hw', -⟩
    exact ⟨w'.x, w'.y, w'.cells, hw'.formed⟩
  · rintro e _ ⟨he, -⟩ rfl
    rcases he with he | he | he
    · exact absurd he (by simp)
    · exact absurd he (by simp)
    · exact absurd he (by simp)

/-- The same for a store, a replacement and a delete. -/
theorem formed_session_three :
    let k : CString := ⟨[97], by decide⟩
    let d : CString := ⟨[98], by decide⟩
    let d' : CString := ⟨[98, 98], by decide⟩
    ∃ db₀ os₀, (Call.open true true).run 0 {} ⟨[], [], []⟩ = .done (.unit, db₀) os₀ ∧
      (exec (sysStep 0) ((session [.store k d DB_INSERT, .store k d' DB_REPLACE, .delete k]).run
        db₀) os₀).Sat
        (fun _ os => ∃ x y cells, Formed os x y cells)
        (fun e _ => e ≠ .hang) :=
  formed_session 0 [] [] {} _ (by
    intro c hc
    simp only [List.mem_cons, List.not_mem_nil, or_false] at hc
    rcases hc with rfl | rfl | rfl
    · exact ⟨by simp, by decide⟩
    · exact ⟨by simp, by decide⟩
    · trivial)

end LearningNotes.Db
