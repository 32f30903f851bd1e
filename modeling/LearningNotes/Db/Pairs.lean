import LearningNotes.Db.Alone
import LearningNotes.Db.Processes

/-!
# A scan beside other processes

One process steps through the database with `db_nextrec` while the others store, delete and fetch.
It has no lock but a shared one on the free list, and reads a record, the rest of the record and
the data at three different times.

`nextrec_pair`: what it returns is nevertheless a key and the data that one `db_store` has written
for it. Behind this is `wpM_nextrec`, and that every pair in the ghost component `wrote` has been
written by a call that is in the log.
-/

namespace LearningNotes.Db

variable {p q scanner : Pid} {log : List Happening} {e : Happening} {w w' : World}
  {k d : List Byte} {i j n : Nat} {c : Call} {o : Op} {l : DB}

/-- One process scans; the others work on the map. -/
def ScanRole (scanner p : Pid) (c : Call) : Prop :=
  if p = scanner then c = .rewind ∨ c = .nextrec else c.OnMap PlainKey

/-! ## What the log says of a pair -/

/-- Before event `n`, one call `db_store` of this key and this data has written the data. -/
structure Written (log : List Happening) (n i j : Nat) (q : Pid) (k d : List Byte) : Prop where
  before : i < j ∧ j < n
  call : ∃ c, log[i]? = some (.call q c) ∧ c.Puts k d
  write : ∃ o, log[j]? = some (.op q o) ∧ o.PutsData d
  within : ∀ m e, i < m → m < j → log[m]? = some e → ¬ e.Bounds q

/-- The pair was written. -/
def WrittenBefore (log : List Happening) (n : Nat) (k d : List Byte) : Prop :=
  ∃ i j q, Written log n i j q k d

theorem WrittenBefore.mono {log' : List Happening} {n' : Nat} (h : WrittenBefore log n k d)
    (hlog : ∀ m, m < n → log'[m]? = log[m]?) (hn : n ≤ n') : WrittenBefore log' n' k d := by
  obtain ⟨i, j, q, ⟨hij, hjn⟩, hcall, hwrite, hwithin⟩ := h
  refine ⟨i, j, q, ⟨hij, by omega⟩, ?_, ?_, fun m e him hmj hm => ?_⟩
  · rw [hlog i (by omega)]
    exact hcall
  · rw [hlog j hjn]
    exact hwrite
  · rw [hlog m (by omega)] at hm
    exact hwithin m e him hmj hm

theorem WrittenBefore.concat (h : WrittenBefore log log.length k d) (e : Happening) :
    WrittenBefore (log ++ [e]) (log ++ [e]).length k d := by
  apply h.mono
  · intro m hm
    exact getElem?_concat_lt hm
  · rw [List.length_append]
    omega

/-- An operation of a call that is still going on. -/
theorem written_of_pending (h : LearningNotes.Pending log p i c) (hc : c.Puts k d) (ho : o.PutsData d) :
    WrittenBefore (log ++ [Event.op p o]) (log ++ [Event.op p o]).length k d := by
  have hlt := lt_length_of_getElem? h.call
  refine ⟨i, log.length, p, ⟨hlt, ?_⟩, ⟨c, ?_, hc⟩, ⟨o, ?_, ho⟩, fun m e him hm hlog => ?_⟩
  · rw [List.length_append, List.length_singleton]
    omega
  · rw [getElem?_concat_lt hlt]
    exact h.call
  · exact List.getElem?_concat_length
  · rw [getElem?_concat_lt hm] at hlog
    exact h.last m e him hlog

/-- What holds of the log: everything that is known to be written was written, and so was every pair
that the scan has returned. -/
structure PairsLogged (scanner : Pid) (log : List Happening) (w : World) : Prop where
  inv : Inv PlainKey w
  wrote : ∀ k d, w.wrote k d → WrittenBefore log log.length k d
  pairs : ∀ n k d, log[n]? = some (.ret scanner (.pair (some (k, d)))) → WrittenBefore log n k d

/-- One more event. -/
theorem PairsLogged.concat (h : PairsLogged scanner log w) (hinv : Inv PlainKey w')
    (hwrote : ∀ k d, w'.wrote k d → w.wrote k d ∨
      WrittenBefore (log ++ [e]) (log ++ [e]).length k d)
    (hret : ∀ k d, e = .ret scanner (.pair (some (k, d))) → w.wrote k d) :
    PairsLogged scanner (log ++ [e]) w' where
  inv := hinv
  wrote := by
    intro k d hw
    rcases hwrote k d hw with hold | hnew
    · exact (h.wrote k d hold).concat e
    · exact hnew
  pairs := by
    intro n k d hn
    have hlog : ∀ m, m < log.length → (log ++ [e])[m]? = log[m]? := by
      intro m hm
      exact getElem?_concat_lt hm
    rcases getElem?_concat_cases hn with ⟨hlt, hold⟩ | ⟨rfl, he⟩
    · exact (h.pairs n k d hold).mono (fun m hm => hlog m (by omega)) (Nat.le_refl n)
    · exact (h.wrote k d (hret k d he.symm)).mono hlog (Nat.le_refl _)

/-! ## The argument -/

/-- A process between two calls; the one that scans is at an edge. -/
structure ScanIdle (scanner p : Pid) (l : DB) (w : World) : Prop where
  idle : Idle PlainKey p w
  opened : Opened l
  edge : p = scanner → AtEdge w l.idxpos

theorem ScanIdle.rely (h : ScanIdle scanner p l w) (hr : Rely PlainKey p w w') :
    ScanIdle scanner p l w' :=
  ⟨h.idle.rely hr, h.opened, fun hp => (h.edge hp).rely hr⟩

/-- A call has returned, the one that scans with a pair that was written. -/
structure ScanDone (scanner p : Pid) (r : Ret) (l : DB) (w : World) : Prop
    extends ScanIdle scanner p l w where
  pair : p = scanner → ∀ k d, r = .pair (some (k, d)) → w.wrote k d

theorem ScanDone.rely {r : Ret} (h : ScanDone scanner p r l w) (hr : Rely PlainKey p w w') :
    ScanDone scanner p r l w' :=
  ⟨h.toScanIdle.rely hr, fun hp k d hret => hr.wrote k d (h.pair hp k d hret)⟩

/-- The call of a process in its role. -/
theorem wpM_scanRole (h : ScanIdle scanner p l w) (hc : ScanRole scanner p c) :
    wpM (rules (Env.others PlainKey p) c) p c.prog (fun r l w => ScanDone scanner p r l w)
      (fun _ w => Leaves PlainKey p w) l (w.begin p) := by
  have hready := h.idle.ready
  unfold ScanRole at hc
  by_cases hp : p = scanner
  · rw [if_pos hp] at hc
    rcases hc with rfl | rfl
    · unfold Call.prog
      simp only [wpM_bind, wpM_pure]
      refine wpM_rewind h.opened ⟨⟨hready.toIdle, ⟨h.opened.nhash, h.opened.hashoff⟩, ?_⟩, by simp⟩
      intro _
      exact atEdge_recs
    · unfold Call.prog
      simp only [wpM_bind, wpM_pure]
      have hedge : AtEdge (w.begin p) l.idxpos := h.edge hp
      have hpos := hedge.pos
      obtain ⟨pre, rest, hrecs, hoff⟩ := hedge
      have hahead : Ahead (w.begin p) rest l.idxpos := ⟨pre, hrecs, hoff⟩
      have hedge : AtEdge (w.begin p) l.idxpos := h.edge hp
      refine wpM_nextrec (fun _ hk => hk.2) (fun _ hinv _ => lowBlanks_plain hinv) hready.toIdle
        hready.lin h.opened hedge hpos (fun _ => hahead) ?_ ?_
      · intro db' w' hidle _ hdb' hedge₁ _
        exact ⟨⟨hidle, hdb', fun _ => hedge₁⟩, by simp⟩
      · intro r d db' w' hidle _ hdb' hedge₁ hwrote _
        refine ⟨⟨hidle, hdb', fun _ => hedge₁⟩, fun _ k d' he => ?_⟩
        cases he
        exact hwrote
  · rw [if_neg hp] at hc
    refine wpM_call hready h.opened hc ?_ ?_
    · intro r db' w' hdb' hr
      exact ⟨⟨hr.idle, hdb', fun hs => absurd hs hp⟩, fun hs => absurd hs hp⟩
    · intro e w' hl _
      exact hl

/-- What holds when one process scans beside the others. -/
def scanning (scanner : Pid) : Argument library (ScanRole scanner) World where
  erase := World.os
  rely := Rely PlainKey
  guar := fun p c o w w' => Inv PlainKey w → Guar PlainKey p c o w w'
  good := PairsLogged scanner
  idle := fun p l w => ScanIdle scanner p l w
  done := fun p _ a w => ScanDone scanner p a.1 a.2 w
  stopped := fun p _ _ w => Leaves PlainKey p w
  rely_refl := fun _ w => Rely.refl w
  rely_trans := fun h h' => h.trans h'
  idle_rely := fun hr h => h.rely hr
  done_rely := fun hr h => h.rely hr
  stopped_rely := fun hr h => h.rely hr
  call := by
    intro log w p l c h hidle hc _
    refine ⟨w.begin p, rfl, ⟨h.concat (h.inv.begin p) (fun _ _ => Or.inl) nofun, ?_⟩, ?_⟩
    · intro q hq
      exact rely_begin w hq
    · exact wpM_scanRole hidle hc
  op := by
    intro log w w' p c i o h hp hg
    have hguar := hg h.inv
    refine ⟨h.concat hguar.inv (fun k d hw => ?_) nofun, fun q hq => hguar.rely h.inv hq⟩
    rcases hguar.put k d hw with hold | ⟨hput, hcall⟩
    · exact Or.inl hold
    · exact Or.inr (written_of_pending hp hcall hput)
  ret := by
    intro log w p c i r l h _ hd
    refine ⟨w, rfl, ⟨h.concat h.inv (fun _ _ => Or.inl) ?_, fun _ _ => Rely.refl w⟩, hd.toScanIdle⟩
    intro k d he
    cases he
    exact hd.pair rfl k d rfl
  stop := by
    intro log w p c i e h _ hl
    refine ⟨w.exit p False, rfl, ⟨h.concat (Inv.exit hl nofun) (fun _ _ => Or.inl) nofun, ?_⟩⟩
    intro q hq
    exact hl.rely_exit nofun hq

/-- **A scan never mixes records.** Every pair that `db_nextrec` returns is the key and the data of
one `db_store` that has written the data before. -/
theorem nextrec_pair {s : Processes}
    (hr : ReachedBy (ScanRole scanner) OS.created (fun _ => DB.opened) s)
    (hret : s.log[n]? = some (.ret scanner (.pair (some (k, d))))) : WrittenBefore s.log n k d := by
  have hgood : PairsLogged scanner [] World.created := ⟨Inv.created, nofun, by simp⟩
  have hidle : ∀ p, ScanIdle scanner p DB.opened World.created := by
    intro p
    have hsolo : Solo PlainKey (fun _ => False) p World.created := Solo.created p
    exact ⟨hsolo.toIdle, opened_opened, fun _ => atEdge_recs⟩
  obtain ⟨w, hw⟩ := ((scanning scanner).holds_start hgood hidle).reach hr
  have hlogged : PairsLogged scanner s.log w := hw.good
  exact hlogged.pairs n k d hret

/-- Process `1` stores a pair, and process `0` scans. -/
def storeScan : List (Act Pid Call) :=
  .call 1 (.store ⟨[97], by decide⟩ ⟨[98], by decide⟩ DB_INSERT) :: List.replicate 17 (.go 1) ++
    .call 0 .nextrec :: List.replicate 6 (.go 0)

/-- Event `24` is the end of the scan, with the pair. -/
def scanEnds (s : Processes) : Bool :=
  match (s.log[24]? : Option Happening) with
  | some (.ret p (.pair (some (k, d)))) => p = 0 && k = [97] && d = [98]
  | _ => false

theorem scanEnds_iff {s : Processes} (h : scanEnds s = true) :
    s.log[24]? = some (.ret 0 (.pair (some ([97], [98])))) := by
  unfold scanEnds at h
  split at h
  next heq =>
    simp only [Bool.and_eq_true, decide_eq_true_eq] at h
    obtain ⟨⟨rfl, rfl⟩, rfl⟩ := h
    exact heq
  next => exact absurd h (by simp)

/-- The pair that the scan returns has been written by the other process. -/
theorem nextrec_pair_one : ∃ s : Processes,
    ReachedBy (ScanRole 0) OS.created (fun _ => DB.opened) s ∧
      WrittenBefore s.log 24 [97] [98] := by
  have hrun : (library.perform storeScan (Pool.start OS.created fun _ => DB.opened)).any scanEnds =
      true := by
    decide +kernel
  obtain ⟨s, hs, hends⟩ := (Option.any_eq_true _ _).mp hrun
  have hok : ∀ a ∈ storeScan, a.Ok (ScanRole 0) := by
    intro a ha
    simp only [storeScan, List.cons_append, List.mem_cons, List.mem_append, List.mem_replicate] at ha
    rcases ha with rfl | ⟨-, rfl⟩ | rfl | ⟨-, rfl⟩
    · exact ⟨by decide, by decide⟩
    · trivial
    · exact Or.inr rfl
    · trivial
  have hr : ReachedBy (ScanRole 0) OS.created (fun _ => DB.opened) s := Machine.reach_of_perform hok hs
  exact ⟨s, hr, nextrec_pair hr (scanEnds_iff hends)⟩

end LearningNotes.Db
