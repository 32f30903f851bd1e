import LearningNotes.Filedir.Ftw8

/-!
# Which calls `ftw8.c` gets right

`dopath_right_iff`: `dopath` calls `func` for the visits of the tree, returns what the last call
returned and puts the string back exactly when all is `Clear`. `enter` has put the slash behind
the path when `opendir` fails; `FTW_DNR` is reported with the slash, and it stays in the buffer.
-/

namespace LearningNotes.Ftw8

variable {S σ : Type} (junk : Nat → Nat → UInt8) (func : Visit S → σ → Int × σ)

/-! ## The log only grows -/

theorem logged_grows (x : Visit S) (v : σ × List (Visit S)) : v.2 <+: (logged func x v).2.2 :=
  List.prefix_append _ _

mutual

theorem dopath_log : ∀ (node : Node S) {b : List UInt8} {v : σ × List (Visit S)}
    {r : Int × List UInt8 × σ × List (Visit S)},
    dopath junk (logged func) node b v = some r → v.2 <+: r.2.2.2
  | .nostat, b, v, r, h => by
    rw [dopath] at h
    rw [← Option.some.inj h]
    exact logged_grows func _ v
  | .file st, b, v, r, h => by
    rw [dopath] at h
    rw [← Option.some.inj h]
    exact logged_grows func _ v
  | .noopen st, b, v, r, h => by
    rw [dopath] at h
    by_cases hstop : (logged func ⟨cstr b, some st, .D⟩ v).1 ≠ 0
    · simp only [if_pos hstop] at h
      rw [← Option.some.inj h]
      exact logged_grows func _ v
    · simp only [if_neg hstop] at h
      obtain ⟨e, -, rfl⟩ := Option.map_eq_some_iff.mp h
      exact (logged_grows func _ v).trans (logged_grows func _ _)
  | .dir st entries, b, v, r, h => by
    rw [dopath] at h
    by_cases hstop : (logged func ⟨cstr b, some st, .D⟩ v).1 ≠ 0
    · simp only [if_pos hstop] at h
      rw [← Option.some.inj h]
      exact logged_grows func _ v
    · simp only [if_neg hstop] at h
      obtain ⟨e, -, h⟩ := Option.bind_eq_some_iff.mp h
      obtain ⟨r', hloop, h⟩ := Option.bind_eq_some_iff.mp h
      obtain ⟨b', -, rfl⟩ := Option.map_eq_some_iff.mp h
      have hentries := readLoop_log entries hloop
      exact (logged_grows func _ v).trans hentries

theorem readLoop_log : ∀ (entries : List (Name × Node S)) {n : Nat} {b : List UInt8}
    {v : σ × List (Visit S)} {r : Int × List UInt8 × σ × List (Visit S)},
    readLoop junk (logged func) entries n b v = some r → v.2 <+: r.2.2.2
  | [], n, b, v, r, h => by
    rw [readLoop] at h
    have hr := Option.some.inj h
    exact hr ▸ List.prefix_rfl
  | (name, child) :: entries, n, b, v, r, h => by
    rw [readLoop] at h
    by_cases hdots : isDots name = true
    · rw [if_pos hdots] at h
      exact readLoop_log entries h
    · rw [if_neg hdots] at h
      obtain ⟨b₁, -, h⟩ := Option.bind_eq_some_iff.mp h
      obtain ⟨r₁, hcall, h⟩ := Option.bind_eq_some_iff.mp h
      have hchild := dopath_log child hcall
      by_cases hstop : r₁.1 ≠ 0
      · rw [if_pos hstop] at h
        rw [← Option.some.inj h]
        exact hchild
      · rw [if_neg hstop] at h
        exact hchild.trans (readLoop_log entries h)

end

/-! ## A call that does not stay clear -/

theorem enter_none {b path : List UInt8} (h : Holds b path)
    (hlong : INT_MAX < path.length + NAME_MAX + 2) : enter junk b = none := by
  unfold enter
  rw [h.cstr, if_pos hlong]

mutual

/-- When something is not clear, `func` is called for something else, unless the run has left the
buffer before. -/
theorem dopath_unclear : ∀ (node : Node S) {b path : List UInt8} {v : σ × List (Visit S)}
    {r : Int × List UInt8 × σ × List (Visit S)}, Holds b path →
    ¬ Clear (logged func) (visits node path) v →
    dopath junk (logged func) node b v = some r → Differ (v.2 ++ visits node path) r.2.2.2
  | .nostat, b, path, v, r, _, hclear, _ => by
    refine absurd ?_ hclear
    rw [visits, Clear]
    exact ⟨nofun, Or.inr ⟨(fun hl => nomatch hl.1), trivial⟩⟩
  | .file st, b, path, v, r, _, hclear, _ => by
    refine absurd ?_ hclear
    rw [visits, Clear]
    exact ⟨nofun, Or.inr ⟨(fun hl => nomatch hl.1), trivial⟩⟩
  | .noopen st, b, path, v, r, hb, hclear, h => by
    rw [visits, Clear] at hclear
    rw [dopath, hb.cstr] at h
    by_cases hstop : (logged func ⟨path, some st, .D⟩ v).1 ≠ 0
    · exact absurd ⟨nofun, Or.inl hstop⟩ hclear
    · simp only [if_neg hstop] at h
      by_cases hlong : INT_MAX < path.length + NAME_MAX + 2
      · rw [enter_none junk hb hlong] at h
        exact nomatch h
      · obtain ⟨b', henter, -, hslash, -⟩ := enter_some junk hb (Nat.le_of_not_lt hlong)
        rw [henter, Option.map_some, hslash] at h
        rw [← Option.some.inj h, visits]
        -- the path of the second call has one byte more
        have hne : (⟨path, some st, .DNR⟩ : Visit S) ≠ ⟨path ++ [SLASH], some st, .DNR⟩ := by
          intro he
          have hlen := congrArg (fun x => x.path.length) he
          simp at hlen
        have hdiffer := differ_append hne (v.2 ++ [⟨path, some st, .D⟩]) [] []
        simpa using hdiffer
  | .dir st entries, b, path, v, r, hb, hclear, h => by
    rw [visits, Clear] at hclear
    rw [dopath, hb.cstr] at h
    by_cases hstop : (logged func ⟨path, some st, .D⟩ v).1 ≠ 0
    · exact absurd ⟨nofun, Or.inl hstop⟩ hclear
    · simp only [if_neg hstop] at h
      by_cases hlong : INT_MAX < path.length + NAME_MAX + 2
      · rw [enter_none junk hb hlong] at h
        exact nomatch h
      · obtain ⟨b', henter, ho, -, -⟩ := enter_some junk hb (Nat.le_of_not_lt hlong)
        rw [henter, Option.bind_some] at h
        obtain ⟨r', hloop, h⟩ := Option.bind_eq_some_iff.mp h
        obtain ⟨b'', -, rfl⟩ := Option.map_eq_some_iff.mp h
        have hentries : ¬ Clear (logged func) (entryVisits entries path)
            (logged func ⟨path, some st, .D⟩ v).2 := by
          intro hc
          exact hclear ⟨nofun, Or.inr ⟨fun hl => hlong hl.2, hc⟩⟩
        have hdiffer := readLoop_unclear entries ho hentries hloop
        rwa [logged_snd, List.append_assoc, List.singleton_append] at hdiffer

theorem readLoop_unclear : ∀ (entries : List (Name × Node S)) {b path : List UInt8}
    {v : σ × List (Visit S)} {r : Int × List UInt8 × σ × List (Visit S)}, Open b path →
    ¬ Clear (logged func) (entryVisits entries path) v →
    readLoop junk (logged func) entries (path.length + 1) b v = some r →
    Differ (v.2 ++ entryVisits entries path) r.2.2.2
  | [], b, path, v, r, _, hclear, _ => absurd trivial hclear
  | (name, child) :: entries, b, path, v, r, ho, hclear, h => by
    rw [entryVisits] at hclear ⊢
    rw [readLoop] at h
    by_cases hdots : isDots name = true
    · rw [if_pos hdots] at hclear h
      rw [if_pos hdots]
      exact readLoop_unclear entries ho hclear h
    · rw [if_neg hdots] at hclear h
      rw [if_neg hdots]
      obtain ⟨b₁, hname, hb₁, hlen₁⟩ := ho.name name
      rw [hname, Option.bind_some] at h
      obtain ⟨r₁, hcall, h⟩ := Option.bind_eq_some_iff.mp h
      by_cases hchild : Clear (logged func) (visits child (path ++ SLASH :: name.1)) v
      · -- the first entry goes well, so it is one of the others
        obtain ⟨b₂, hcall₂, hb₂, hle₂⟩ := dopath_clear junk (logged func) child v hb₁ hchild
        rw [hcall] at hcall₂
        rw [Option.some.inj hcall₂] at h
        rw [clear_append] at hclear
        have hgo : ¬ (callAll (logged func) (visits child (path ++ SLASH :: name.1)) v).1 ≠ 0 :=
          fun hs => hclear ⟨hchild, Or.inl hs⟩
        rw [if_neg hgo] at h
        have hdiffer := readLoop_unclear entries (hb₂.opened ho (by omega))
          (fun hc => hclear ⟨hchild, Or.inr hc⟩) h
        rwa [callAll_logged_zero func (not_not.mp hgo), List.append_assoc] at hdiffer
      · have hdiffer := dopath_unclear child hb₁ hchild hcall
        rw [← List.append_assoc]
        by_cases hstop : r₁.1 ≠ 0
        · rw [if_pos hstop] at h
          rw [← Option.some.inj h]
          exact hdiffer.mono (List.prefix_append _ _) List.prefix_rfl
        · rw [if_neg hstop] at h
          exact hdiffer.mono (List.prefix_append _ _) (readLoop_log junk func entries h)

end

/-! ## The whole walk -/

/-- What `fullpath` points at when `dopath` is called: a string in a buffer of `path_alloc`. -/
structure PathBuf where
  bytes : List UInt8
  terminated : (0 : UInt8) ∈ bytes
  long : PATH_MAX ≤ bytes.length

theorem PathBuf.holds (b : PathBuf) : Holds b.bytes (cstr b.bytes) := by
  obtain ⟨path, rest, hb, hzero⟩ := List.eq_append_cons_of_mem b.terminated
  have hpath : cstr b.bytes = path := by rw [hb, cstr_append hzero]
  rw [hpath]
  exact ⟨⟨rest, hb⟩, hzero, b.long⟩

/-- The run stays inside the buffer, `func` is called for the visits of the tree in their order up
to the first call that does not return 0, `dopath` returns what that call returned, and the string
in the buffer is the one that was there. -/
def DopathRight (node : Node S) (b : PathBuf) (v : σ) : Prop :=
  ∃ b', dopath junk (logged func) node b.bytes (v, []) =
      some ((callAll (logged func) (visits node (cstr b.bytes)) (v, [])).1, b',
        (callAll (logged func) (visits node (cstr b.bytes)) (v, [])).2) ∧
    cstr b' = cstr b.bytes

theorem clear_logged (xs : List (Visit S)) (v : σ × List (Visit S)) :
    Clear (logged func) xs v ↔ Clear func xs v.1 := by
  induction xs generalizing v with
  | nil => exact Iff.rfl
  | cons x xs ih => rw [Clear, Clear, ih, logged_fst, logged_snd]

theorem right_of_clear {node : Node S} {b : PathBuf} {v : σ}
    (h : Clear func (visits node (cstr b.bytes)) v) : DopathRight junk func node b v := by
  obtain ⟨b', hrun, hb', -⟩ := dopath_clear junk (logged func) node (v, []) b.holds
    ((clear_logged func _ _).mpr h)
  exact ⟨b', hrun, hb'.cstr⟩

theorem not_right_of_unclear {node : Node S} {b : PathBuf} {v : σ}
    (h : ¬ Clear func (visits node (cstr b.bytes)) v) : ¬ DopathRight junk func node b v := by
  intro ⟨b', hrun, _⟩
  have hdiffer := dopath_unclear junk func node b.holds (mt (clear_logged func _ (v, [])).mp h) hrun
  exact hdiffer.not_extended (callAll_logged func _ _)

/-- `dopath` is right when `func` stops the walk before a directory that cannot be opened, and
before one whose path is too long for an `int`, and at no other time. -/
theorem dopath_right_iff (node : Node S) (b : PathBuf) (v : σ) :
    DopathRight junk func node b v ↔ Clear func (visits node (cstr b.bytes)) v := by
  constructor
  · intro hright
    by_contra hclear
    exact not_right_of_unclear junk func hclear hright
  · intro hclear
    exact right_of_clear junk func hclear

/-- The string "d" in the least buffer. -/
def PathBuf.d : PathBuf where
  bytes := 'd'.toUInt8 :: List.replicate 4095 0
  terminated := List.mem_cons_of_mem _ (List.mem_replicate.mpr ⟨by decide, rfl⟩)
  long := Nat.le_of_eq (by rw [List.length_cons, List.length_replicate])

/-- A directory that cannot be opened: `FTW_DNR` is reported for "d/". -/
theorem dopath_unopened : ¬ ∀ (func : Visit Unit → Unit → Int × Unit) (node : Node Unit)
    (b : PathBuf) (v : Unit), DopathRight (fun _ _ => 0) func node b v := by
  intro hall
  have hclear : ¬ Clear (fun _ _ => (0, ())) (visits (.noopen ()) (cstr PathBuf.d.bytes)) () := by
    rw [visits, Clear, Clear]
    intro ⟨_, hgo⟩
    rcases hgo with hstop | ⟨_, hdnr, _⟩
    · exact hstop rfl
    · exact hdnr rfl
  exact not_right_of_unclear _ _ hclear (hall _ (.noopen ()) PathBuf.d ())

/-! ## `myftw` -/

/-- The size `path_alloc` gives. -/
def pathAlloc (posixVersion xsiVersion : Int) : Nat :=
  if posixVersion < 200112 ∧ xsiVersion < 4 then PATH_MAX + 1 else PATH_MAX

theorem le_pathAlloc (posixVersion xsiVersion : Int) :
    PATH_MAX ≤ pathAlloc posixVersion xsiVersion := by
  unfold pathAlloc
  split
  · exact Nat.le_succ _
  · exact Nat.le_refl _

/-- `fullpath` when `myftw` calls `dopath`. -/
def startPath (size : Nat) (pathname : CString) : Option (List UInt8) :=
  let b := realloc junk [] size
  let b := if b.length ≤ pathname.1.length then realloc junk b (pathname.1.length * 2) else b
  store b 0 (pathname.1 ++ [0])

def myftw (posixVersion xsiVersion : Int) (node : Node S) (pathname : CString) (v : σ) :
    Option (Int × List UInt8 × σ) :=
  (startPath junk (pathAlloc posixVersion xsiVersion) pathname).bind fun b =>
    dopath junk func node b v

/-- The buffer is long enough for the string. -/
theorem startPath_some {size : Nat} (hsize : PATH_MAX ≤ size) (pathname : CString) :
    ∃ b, startPath junk size pathname = some b ∧ Holds b pathname.1 := by
  have hlen : (realloc junk [] size).length = size := length_realloc junk (Nat.zero_le _)
  unfold startPath
  simp only [hlen]
  obtain ⟨b, hb, hroom, hlong⟩ : ∃ b, (if size ≤ pathname.1.length
      then realloc junk (realloc junk [] size) (pathname.1.length * 2)
      else realloc junk [] size) = b ∧ pathname.1.length < b.length ∧ PATH_MAX ≤ b.length := by
    simp only [PATH_MAX] at hsize ⊢
    by_cases hshort : size ≤ pathname.1.length
    · rw [if_pos hshort]
      have htwice : (realloc junk (realloc junk [] size) (pathname.1.length * 2)).length =
          pathname.1.length * 2 := by
        apply length_realloc
        omega
      exact ⟨_, rfl, by omega, by omega⟩
    · rw [if_neg hshort]
      exact ⟨_, rfl, by omega, by omega⟩
  have hfit : (pathname.1 ++ [0]).length ≤ b.length := by
    rw [List.length_append, List.length_singleton]
    exact hroom
  have hstore := store_tail [] hfit
  rw [List.nil_append, List.nil_append] at hstore
  rw [hb]
  refine ⟨_, hstore, ⟨⟨b.drop (pathname.1 ++ [0]).length, ?_⟩, pathname.2, ?_⟩⟩
  · rw [List.append_assoc, List.singleton_append]
  · rw [List.length_append, List.length_drop, Nat.add_sub_cancel' hfit]
    exact hlong

/-- The buffer that `dopath` is called with. -/
theorem startPath_pathBuf (posixVersion xsiVersion : Int) (pathname : CString) :
    ∃ b : PathBuf, startPath junk (pathAlloc posixVersion xsiVersion) pathname = some b.bytes ∧
      cstr b.bytes = pathname.1 := by
  obtain ⟨b, hstart, hb⟩ := startPath_some junk (le_pathAlloc posixVersion xsiVersion) pathname
  have hzero : (0 : UInt8) ∈ b := by
    obtain ⟨rest, hrest⟩ := hb.bytes
    rw [hrest]
    exact List.mem_append_right _ List.mem_cons_self
  exact ⟨⟨b, hzero, hb.long⟩, hstart, hb.cstr⟩

/-- The walk from `pathname` is `DopathRight`. -/
def MyftwRight (posixVersion xsiVersion : Int) (node : Node S) (pathname : CString) (v : σ) : Prop :=
  ∃ b', myftw junk (logged func) posixVersion xsiVersion node pathname (v, []) =
      some ((callAll (logged func) (visits node pathname.1) (v, [])).1, b',
        (callAll (logged func) (visits node pathname.1) (v, [])).2) ∧
    cstr b' = pathname.1

/-- **The whole program.** The walk from `pathname`, however long the name is. -/
theorem myftw_right_iff (posixVersion xsiVersion : Int) (node : Node S) (pathname : CString) (v : σ) :
    MyftwRight junk func posixVersion xsiVersion node pathname v ↔
      Clear func (visits node pathname.1) v := by
  obtain ⟨b, hstart, hpath⟩ := startPath_pathBuf junk posixVersion xsiVersion pathname
  have hdopath : MyftwRight junk func posixVersion xsiVersion node pathname v ↔
      DopathRight junk func node b v := by
    unfold MyftwRight DopathRight myftw
    rw [hstart, Option.bind_some, hpath]
  rw [hdopath, ← hpath]
  exact ⟨fun hright => by_contra fun hclear => not_right_of_unclear junk func hclear hright,
    right_of_clear junk func⟩

end LearningNotes.Ftw8
