import LearningNotes.Printd.Headers

/-!
# Reading the attributes back

An IPP reader takes an attribute apart by the lengths in front of its name and its value, so what
a name or a value holds is of no consequence for the other attributes (`readAttrs_bytes`). It stops
at the tag for the end of the attributes, and `add_option` must not be called with that tag.

The attributes of a request are read back from `ibuf` when there is room for its header there.
-/

namespace LearningNotes.Printd

/-- A two-byte length, the high byte first, and so many bytes. -/
def readField : List Byte → Option (List Byte × List Byte)
  | hi :: lo :: b =>
    let n := 256 * hi.toNat + lo.toNat
    if n ≤ b.length then some (b.take n, b.drop n) else none
  | _ => none

/-- At most `n` attributes, up to the tag for their end; the bytes behind it. -/
def readAttrsUpTo : Nat → List Byte → Option (List Attr × List Byte)
  | n + 1, tag :: b =>
    if tag = TAG_END_OF_ATTR then some ([], b)
    else do
      let (name, b) ← readField b
      let (value, b) ← readField b
      let (as, b) ← readAttrsUpTo n b
      return (⟨tag, name, value⟩ :: as, b)
  | _, _ => none

/-- The IPP attribute reader. -/
def readAttrs (b : List Byte) : Option (List Attr × List Byte) := readAttrsUpTo b.length b

/-- What `add_option` is called with, as strings without a zero byte. -/
structure Attr.Sound (a : Attr) : Prop where
  name : (0 : Byte) ∉ a.name
  value : (0 : Byte) ∉ a.value
  nameLen : a.name.length < 32768
  valueLen : a.value.length < 32768

/-- The calls of `add_option` for these attributes. -/
def addOptions (cp : Pen) (as : List Attr) : Pen :=
  as.foldl (fun cp a => addOption cp a.tag a.name a.value) cp

/-- The bytes from the pointer `cp` up to the pointer `icp`. -/
def between (cp icp : Pen) : List Byte := slice icp.mem cp.cp (icp.cp - cp.cp)

variable {a : Attr} {as : List Attr} {p : Pen} {s rest : List Byte} {n : Nat}

theorem readField_bytes (h : s.length < 65536) (rest : List Byte) :
    readField (fieldBytes s ++ rest) = some (s, rest) := by
  have hlen : 256 * (UInt8.ofNat (s.length / 256)).toNat + (UInt8.ofNat s.length).toNat =
      s.length := by
    rw [UInt8.toNat_ofNat', UInt8.toNat_ofNat']
    omega
  have hle : s.length ≤ (s ++ rest).length := by
    rw [List.length_append]
    exact Nat.le_add_right ..
  rw [fieldBytes, List.cons_append, List.cons_append, readField, hlen, if_pos hle, List.take_left, List.drop_left]

/-- **The round trip**, with anything behind the attributes. -/
theorem readAttrs_bytes (hlen : ∀ a ∈ as, a.name.length < 65536 ∧ a.value.length < 65536)
    (htag : ∀ a ∈ as, a.tag ≠ TAG_END_OF_ATTR) (hn : as.length < n) (rest : List Byte) :
    readAttrsUpTo n (as.flatMap Attr.bytes ++ TAG_END_OF_ATTR :: rest) = some (as, rest) := by
  induction as generalizing n with
  | nil =>
    obtain ⟨n, rfl⟩ := Nat.exists_eq_succ_of_ne_zero (Nat.ne_of_gt hn)
    rfl
  | cons a as ih =>
    obtain ⟨n, rfl⟩ := Nat.exists_eq_succ_of_ne_zero (Nat.ne_of_gt (Nat.zero_lt_of_lt hn))
    obtain ⟨hname, hvalue⟩ := hlen a (List.mem_cons_self ..)
    have hrest := ih (fun b hb => hlen b (.tail _ hb)) (fun b hb => htag b (.tail _ hb))
      (Nat.lt_of_succ_lt_succ hn)
    have hbytes : (a :: as).flatMap Attr.bytes ++ TAG_END_OF_ATTR :: rest = a.tag ::
        (fieldBytes a.name ++ (fieldBytes a.value ++
          (as.flatMap Attr.bytes ++ TAG_END_OF_ATTR :: rest))) := by
      simp [Attr.bytes]
    rw [hbytes, readAttrsUpTo, if_neg (htag a (List.mem_cons_self ..)), readField_bytes hname]
    change (readField _).bind _ = _
    rw [readField_bytes hvalue]
    change (readAttrsUpTo _ _).bind _ = _
    rw [hrest]
    rfl

/-- The successive calls write the attributes one behind the other. -/
theorem addOptions_wrote {o : Nat} {b : List Byte} (h : p.Wrote o b)
    (hsound : ∀ a ∈ as, a.Sound) : (addOptions p as).Wrote o (b ++ as.flatMap Attr.bytes) := by
  induction as generalizing p b with
  | nil => simpa [addOptions] using h
  | cons a as ih =>
    have ha := hsound a (List.mem_cons_self ..)
    have hone := h.addOption a.tag a.name a.value
    rw [cstr_of_not_mem ha.name, cstr_of_not_mem ha.value] at hone
    have hall := ih hone fun b hb => hsound b (.tail _ hb)
    rw [List.append_assoc] at hall
    exact hall

theorem length_lt_flatMap (as : List Attr) (rest : List Byte) :
    as.length < (as.flatMap Attr.bytes ++ TAG_END_OF_ATTR :: rest).length := by
  induction as with
  | nil => exact Nat.succ_pos _
  | cons a as ih =>
    rw [List.flatMap_cons, List.append_assoc, List.length_append, List.length_cons, Attr.bytes,
      List.length_cons]
    omega

/-- The attributes in the bytes between two pointers, when the end tag has been written. -/
theorem readAttrs_between (h : p.cp ≤ p.mem.length) (hsound : ∀ a ∈ as, a.Sound)
    (htag : ∀ a ∈ as, a.tag ≠ TAG_END_OF_ATTR) :
    readAttrs (between p ((addOptions p as).put TAG_END_OF_ATTR)) = some (as, []) := by
  have hwrote := (addOptions_wrote (.start h) hsound).put TAG_END_OF_ATTR
  rw [between, hwrote.bytes, List.nil_append, readAttrs]
  exact readAttrs_bytes (fun a ha => ⟨(hsound a ha).nameLen.trans (by decide),
    (hsound a ha).valueLen.trans (by decide)⟩) htag (length_lt_flatMap as []) []

section Header

variable {jp : Job} {behind : List Byte} {printer_name : CString}

theorem attributes_tag : ∀ a ∈ attributes jp behind printer_name, a.tag ≠ TAG_END_OF_ATTR := by
  have htags : (attributes jp behind printer_name).map Attr.tag =
      [TAG_CHARSET, TAG_NATULANG, TAG_URI, TAG_NAMEWOLANG, TAG_NAMEWOLANG, TAG_MIMETYPE] := rfl
  intro a ha
  have hmem := List.mem_map_of_mem (f := Attr.tag) ha
  rw [htags] at hmem
  intro he
  rw [he] at hmem
  exact absurd hmem (by decide)

theorem attributes_lengths (husernm : (cstr (jp.usernm behind)).length < 65536)
    (hjobnm : (cstr (jp.jobnm behind)).length < 65536)
    (huri : (printerUri printer_name).length < 65536) :
    ∀ a ∈ attributes jp behind printer_name, a.name.length < 65536 ∧ a.value.length < 65536 := by
  have hformat : (documentFormat jp.text).length < 65536 := by
    rw [length_documentFormat]
    split
    · decide
    · decide
  simp only [attributes, List.forall_mem_cons]
  exact ⟨by decide, by decide, ⟨by decide, huri⟩, ⟨by decide, husernm⟩, ⟨by decide, hjobnm⟩,
    ⟨by decide, hformat⟩, fun _ hmem => absurd hmem List.not_mem_nil⟩

/-- The attributes of the header, behind the first fields and the tag of the group. -/
theorem readAttrs_header (husernm : (cstr (jp.usernm behind)).length < 65536)
    (hjobnm : (cstr (jp.jobnm behind)).length < 65536)
    (huri : (printerUri printer_name).length < 65536) :
    readAttrs ((between Pen.blank (ippHeader jp behind printer_name)).drop 9) =
      some (attributes jp behind printer_name, []) := by
  have hlen : (ippHdr jp.jobid ++ [TAG_OPERATION_ATTR]).length = 9 := rfl
  rw [between, show Pen.blank.cp = 0 from rfl, (ippHeader_wrote jp behind printer_name).bytes,
    ippBytes, List.append_assoc (ippHdr jp.jobid ++ [TAG_OPERATION_ATTR]), List.drop_left' hlen,
    readAttrs]
  exact readAttrs_bytes (attributes_lengths husernm hjobnm huri) attributes_tag
    (length_lt_flatMap _ []) []

/-- With room for them, the names are short. -/
theorem Room.lengths {st_size : Nat} (h : Room jp behind printer_name st_size) :
    (cstr (jp.usernm behind)).length < 65536 ∧ (cstr (jp.jobnm behind)).length < 65536 ∧
      (printerUri printer_name).length < 65536 := by
  have hibuf := h.ibuf
  have huri : (printerUri printer_name).length + 1 ≤ STRSZ := uriFits_iff.mpr h.str
  rw [STRSZ] at huri
  exact ⟨by omega, by omega, by omega⟩

/-- **The attributes are read back** as they were passed to `add_option`; and when there is room
for the header of a request, it is in `ibuf`, and its attributes are those of the request, whatever
the names are. -/
theorem addOptions_read (p : Pen) (as : List Attr) (h : p.cp ≤ p.mem.length)
    (hsound : ∀ a ∈ as, a.Sound) (htag : ∀ a ∈ as, a.tag ≠ TAG_END_OF_ATTR) (jp : Job)
    (behind : List Byte) (printer_name : CString) (st_size : Nat)
    (hroom : Room jp behind printer_name st_size) :
    readAttrs (between p ((addOptions p as).put TAG_END_OF_ATTR)) = some (as, []) ∧
    ∃ ibuf hbuf, headers jp behind printer_name st_size = some (ibuf, hbuf) ∧
      readAttrs ((between Pen.blank ibuf).drop 9) = some (attributes jp behind printer_name, []) := by
  obtain ⟨husernm, hjobnm, huri⟩ := hroom.lengths
  exact ⟨readAttrs_between h hsound htag, _, _, headers_eq jp behind printer_name st_size hroom,
    readAttrs_header husernm hjobnm huri⟩

/-- An attribute of which the value looks like two others, and a job with the longest names that
there is room for in plain text. -/
theorem addOptions_read_tags :
    readAttrs (between ⟨[7], 1⟩ ((addOptions ⟨[7], 1⟩
      [⟨TAG_URI, str "u", [TAG_END_OF_ATTR, TAG_URI]⟩]).put TAG_END_OF_ATTR)) =
        some ([⟨TAG_URI, str "u", [TAG_END_OF_ATTR, TAG_URI]⟩], []) ∧
    ∃ ibuf hbuf, headers (namesJob PR_TEXT 63 255 (by decide) (by decide)) []
      ⟨str "laser", by decide⟩ 1000 = some (ibuf, hbuf) ∧
      readAttrs ((between Pen.blank ibuf).drop 9) =
        some (attributes (namesJob PR_TEXT 63 255 (by decide) (by decide)) []
          ⟨str "laser", by decide⟩, []) :=
  addOptions_read ⟨[7], 1⟩ [⟨TAG_URI, str "u", [TAG_END_OF_ATTR, TAG_URI]⟩] (by decide)
    (fun a ha => by
      rw [List.mem_singleton] at ha
      subst ha
      exact ⟨by decide, by decide, by decide, by decide⟩)
    (by decide) (namesJob PR_TEXT 63 255 (by decide) (by decide)) [] ⟨str "laser", by decide⟩ 1000
    ⟨by decide, by decide +kernel, by decide +kernel⟩

/-- The tag for the end of the attributes ends them. -/
theorem addOptions_end_tag : ¬ ∀ (p : Pen) (as : List Attr), p.cp ≤ p.mem.length →
    (∀ a ∈ as, a.Sound) →
    readAttrs (between p ((addOptions p as).put TAG_END_OF_ATTR)) = some (as, []) := by
  intro h
  have hread := h Pen.blank [⟨TAG_END_OF_ATTR, [], []⟩] (by decide) fun a ha => by
    rw [List.mem_singleton] at ha
    subst ha
    exact ⟨by decide, by decide, by decide, by decide⟩
  exact absurd hread (by decide)

end Header

end LearningNotes.Printd
