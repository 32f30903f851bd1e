import LearningNotes.Printd.Source
import LearningNotes.Lib.Pen

/-!
# The headers of a print request

`printer_thread` puts the IPP header together in `ibuf` and the HTTP header in `hbuf`. No write is
checked against the size of its buffer, so a `Pen` stands for a buffer without an end, and how far
it has been filled is the length of its memory. The joint maximum of the names is more than `ibuf`
holds (`header_sizes_iff`).

`headers` are the two as the thread has them: nothing, if a write was behind the end of its buffer.
They are what the pens hold exactly when there is `Room` for the names.

Mirroring notes:
- `usernm` and `jobnm` are strings up to the first zero byte, which may be behind the field; the
  memory behind `struct job` is `behind`.
- A write behind the end of `str`, `ibuf` or `hbuf` is undefined, as is a sum that is no `long`;
  what the thread does from there is not known.
-/

namespace LearningNotes.Printd

@[simp, reducible] def IBUFSZ : Nat := 512
@[simp, reducible] def HBUFSZ : Nat := 512
@[reducible] def IPP_PORT : Nat := 631

@[reducible] def OP_PRINT_JOB : Nat := 0x02

@[reducible] def TAG_OPERATION_ATTR : Byte := 0x01
@[reducible] def TAG_END_OF_ATTR : Byte := 0x03
@[reducible] def TAG_NAMEWOLANG : Byte := 0x42
@[reducible] def TAG_URI : Byte := 0x45
@[reducible] def TAG_CHARSET : Byte := 0x47
@[reducible] def TAG_NATULANG : Byte := 0x48
@[reducible] def TAG_MIMETYPE : Byte := 0x49

/-- The size of `str`, for the URI of the printer. -/
def STRSZ : Nat := 64

/-! ## `add_option` -/

/-- The two bytes of a `uint16_t` in memory, `u.c[0]` and `u.c[1]`. -/
def hostBytes16 (n : UInt16) : Byte × Byte := (UInt8.ofNat n.toNat, UInt8.ofNat (n.toNat / 256))

/-- `htons`, on a machine whose low byte comes first. -/
def htons (n : UInt16) : UInt16 := UInt16.ofNat (256 * (n.toNat % 256) + n.toNat / 256)

/-- `add_option`; `optname` and `optval` are what is in memory from there on. -/
def addOption (cp : Pen) (tag : Byte) (optname optval : List Byte) : Pen :=
  let cp := cp.put tag
  let n := (cstr optname).length
  let u := hostBytes16 (htons (UInt16.ofNat n))
  let cp := (cp.put u.1).put u.2
  let cp := (cp.strcpy optname).skip n
  let n := (cstr optval).length
  let u := hostBytes16 (htons (UInt16.ofNat n))
  let cp := (cp.put u.1).put u.2
  (cp.strcpy optval).skip n

/-! ## The headers -/

/-- `jp->req.usernm`, as a string. -/
def Job.usernm (jp : Job) (behind : List Byte) : List Byte :=
  jp.req.usernm.val ++ (jp.req.jobnm.val ++ behind)

/-- `jp->req.jobnm`, as a string. -/
def Job.jobnm (jp : Job) (behind : List Byte) : List Byte := jp.req.jobnm.val ++ behind

/-- `jp->req.flags & PR_TEXT` -/
def Job.text (jp : Job) : Bool := jp.req.flags &&& PR_TEXT ≠ 0

/-- `str` -/
def printerUri (printer_name : CString) : List Byte :=
  str "http://" ++ printer_name.val ++ str "/ipp"

/-- `p` -/
def documentFormat (text : Bool) : List Byte :=
  if text then str "text/plain" else str "application/postscript"

/-- `extra` -/
def extra (text : Bool) : Nat := if text then 1 else 0

/-- The fields of `struct ipp_hdr` in front of `attr_group`. -/
def ippHdr (jobid : Int) : List Byte :=
  let op := hostBytes16 (htons (UInt16.ofNat OP_PRINT_JOB))
  [1, 1, op.1, op.2] ++ hostBytes (ntohl (UInt32.ofInt jobid))

/-- The IPP header in `ibuf`, with `icp` behind it. -/
def ippHeader (jp : Job) (behind : List Byte) (printer_name : CString) : Pen :=
  let icp := (ippHdr jp.jobid).foldl Pen.put Pen.blank
  let icp := icp.put TAG_OPERATION_ATTR
  let icp := addOption icp TAG_CHARSET (str "attributes-charset") (str "utf-8")
  let icp := addOption icp TAG_NATULANG (str "attributes-natural-language") (str "en-us")
  let icp := addOption icp TAG_URI (str "printer-uri") (printerUri printer_name)
  let icp := addOption icp TAG_NAMEWOLANG (str "requesting-user-name") (jp.usernm behind)
  let icp := addOption icp TAG_NAMEWOLANG (str "job-name") (jp.jobnm behind)
  let icp := addOption icp TAG_MIMETYPE (str "document-format") (documentFormat jp.text)
  icp.put TAG_END_OF_ATTR

/-- `sprintf(hcp, ...)` or `strcpy(hcp, ...)`, and `hcp += strlen(hcp)`. -/
def addLine (hcp : Pen) (line : List Byte) : Pen :=
  let hcp := hcp.strcpy line
  hcp.skip hcp.strlen

/-- The HTTP header in `hbuf`, with `hcp` behind it. -/
def httpHeader (printer_name : CString) (length : Nat) : Pen :=
  let hcp := addLine Pen.blank (str "POST /ipp HTTP/1.1\r\n")
  let hcp := addLine hcp (str "Content-Length: " ++ decimal length ++ str "\r\n")
  let hcp := addLine hcp (str "Content-Type: application/ipp\r\n")
  let hcp := addLine hcp
    (str "Host: " ++ printer_name.val ++ str ":" ++ decimal IPP_PORT ++ str "\r\n")
  (hcp.put 13).put 10

/-- The sum that is announced as the `Content-Length`. -/
def announced (st_size ilen : Nat) (text : Bool) : Nat := st_size + ilen + extra text

/-! ## What is written -/

/-- An attribute of the request. -/
structure Attr where
  tag : Byte
  name : List Byte
  value : List Byte
  deriving DecidableEq

/-- A field with its length in front of it. -/
def fieldBytes (s : List Byte) : List Byte :=
  UInt8.ofNat (s.length / 256) :: UInt8.ofNat s.length :: s

/-- The tag, the name and the value, with their lengths. -/
def Attr.bytes (a : Attr) : List Byte := a.tag :: (fieldBytes a.name ++ fieldBytes a.value)

/-- The tag and the two lengths take five bytes. -/
theorem Attr.length_bytes (tag : Byte) (name value : List Byte) :
    (Attr.mk tag name value).bytes.length = 5 + name.length + value.length := by
  simp only [Attr.bytes, fieldBytes, List.length_append, List.length_cons]
  omega

/-- The high byte first. -/
theorem hostBytes16_htons (n : Nat) :
    hostBytes16 (htons (UInt16.ofNat n)) = (UInt8.ofNat (n / 256), UInt8.ofNat n) := by
  have hhigh : n % 65536 / 256 = n / 256 % 256 := Nat.mod_mul_right_div_self n 256 256
  have hlow : n % 65536 % 256 = n % 256 := Nat.mod_mod_of_dvd n ⟨256, rfl⟩
  have hval : (htons (UInt16.ofNat n)).toNat = 256 * (n % 256) + n / 256 % 256 := by
    have hn : (UInt16.ofNat n).toNat = n % 65536 := UInt16.toNat_ofNat'
    rw [htons, hn, UInt16.toNat_ofNat', hlow, hhigh]
    exact Nat.mod_eq_of_lt (by omega)
  rw [hostBytes16, hval]
  apply Prod.ext
  · apply UInt8.toNat.inj
    simp only [UInt8.toNat_ofNat', Nat.reducePow]
    rw [Nat.mul_add_mod, Nat.mod_mod]
  · apply UInt8.toNat.inj
    simp only [UInt8.toNat_ofNat', Nat.reducePow]
    have hdiv : (256 * (n % 256) + n / 256 % 256) / 256 = n % 256 := by omega
    rw [hdiv, Nat.mod_mod]

end LearningNotes.Printd

namespace LearningNotes.Pen

open Printd

variable {p : Pen} {o : Nat} {b : List Byte}

/-- **`add_option`** writes the attribute, and leaves the pointer behind it. -/
theorem Wrote.addOption (h : p.Wrote o b) (tag : Byte) (optname optval : List Byte) :
    (addOption p tag optname optval).Wrote o
      (b ++ (Attr.mk tag (cstr optname) (cstr optval)).bytes) := by
  have hname := (((h.put tag).put (UInt8.ofNat ((cstr optname).length / 256))).put
    (UInt8.ofNat (cstr optname).length)).strcpy optname
  have hval := ((hname.put (UInt8.ofNat ((cstr optval).length / 256))).put
    (UInt8.ofNat (cstr optval).length)).strcpy optval
  have hsame : ∀ x y : List Byte, b ++ [tag] ++ [UInt8.ofNat (x.length / 256)] ++
      [UInt8.ofNat x.length] ++ x ++ [UInt8.ofNat (y.length / 256)] ++ [UInt8.ofNat y.length] ++ y =
      b ++ (Attr.mk tag x y).bytes := by
    intro x y
    simp [Attr.bytes, fieldBytes]
  rw [hsame] at hval
  simpa only [Printd.addOption, hostBytes16_htons] using hval

/-- More bytes are written. -/
theorem Wrote.puts (h : p.Wrote o b) (bytes : List Byte) :
    (bytes.foldl Pen.put p).Wrote o (b ++ bytes) := by
  induction bytes generalizing p b with
  | nil => simpa using h
  | cons c bytes ih => simpa using ih (h.put c)

/-- A line is written. -/
theorem Wrote.addLine (h : p.Wrote o b) (line : List Byte) :
    (addLine p line).Wrote o (b ++ cstr line) := by
  rw [Printd.addLine, Pen.strlen_strcpy h.le]
  exact h.strcpy line

/-- `add_option` writes as far as its cursor goes, and a null behind it. -/
theorem Tight.addOption (h : p.Tight) (tag : Byte) (optname optval : List Byte) :
    (addOption p tag optname optval).Tight :=
  ((((((h.put _).put _).put _).strcpy optname).put _).put _).strcpy optval

/-- So far go bytes. -/
theorem Tight.puts (h : p.Tight) (bytes : List Byte) : (bytes.foldl Pen.put p).Tight := by
  induction bytes generalizing p with
  | nil => exact h
  | cons c bytes ih => exact ih (h.put c)

/-- So far goes a line. -/
theorem Tight.addLine (h : p.Tight) (line : List Byte) : (addLine p line).Tight := by
  rw [Printd.addLine, Pen.strlen_strcpy h.le]
  exact h.strcpy line

end LearningNotes.Pen

namespace LearningNotes.Printd

/-! ## The two headers -/

section Headers

variable {jp : Job} {behind : List Byte} {printer_name : CString} {n : Nat}

/-- The attributes of the request. -/
def attributes (jp : Job) (behind : List Byte) (printer_name : CString) : List Attr :=
  [⟨TAG_CHARSET, str "attributes-charset", str "utf-8"⟩,
    ⟨TAG_NATULANG, str "attributes-natural-language", str "en-us"⟩,
    ⟨TAG_URI, str "printer-uri", printerUri printer_name⟩,
    ⟨TAG_NAMEWOLANG, str "requesting-user-name", cstr (jp.usernm behind)⟩,
    ⟨TAG_NAMEWOLANG, str "job-name", cstr (jp.jobnm behind)⟩,
    ⟨TAG_MIMETYPE, str "document-format", documentFormat jp.text⟩]

/-- The bytes of the IPP header. -/
def ippBytes (jp : Job) (behind : List Byte) (printer_name : CString) : List Byte :=
  ippHdr jp.jobid ++ [TAG_OPERATION_ATTR] ++
    (attributes jp behind printer_name).flatMap Attr.bytes ++
    [TAG_END_OF_ATTR]

def crlf : List Byte := [13, 10]

/-- The lines of the HTTP header. -/
def httpLines (printer_name : CString) (length : Nat) : List (List Byte) :=
  [str "POST /ipp HTTP/1.1", str "Content-Length: " ++ decimal length,
    str "Content-Type: application/ipp",
    str "Host: " ++ printer_name.val ++ str ":" ++ decimal IPP_PORT]

/-- Lines, and the empty line behind them. -/
def headerBytes (lines : List (List Byte)) : List Byte := lines.flatMap (· ++ crlf) ++ crlf

/-- There is no null in a number. -/
theorem zero_not_mem_decimal (n : Nat) : (0 : Byte) ∉ decimal n := not_mem_decimal rfl n

/-- There is no null in the URI of the printer. -/
theorem cstr_printerUri : cstr (printerUri printer_name) = printerUri printer_name := by
  apply cstr_of_not_mem
  intro h
  rcases List.mem_append.mp h with h | h
  · rcases List.mem_append.mp h with h | h
    · exact absurd h (by decide)
    · exact printer_name.property h
  · exact absurd h (by decide)

/-- Nor in the format of the document. -/
theorem cstr_documentFormat (text : Bool) : cstr (documentFormat text) = documentFormat text := by
  cases text
  · exact cstr_of_not_mem (by decide)
  · exact cstr_of_not_mem (by decide)

/-- **The IPP header.** -/
theorem ippHeader_wrote (jp : Job) (behind : List Byte) (printer_name : CString) :
    (ippHeader jp behind printer_name).Wrote 0 (ippBytes jp behind printer_name) := by
  have hstart : Pen.blank.Wrote 0 [] := .start (Nat.le_refl 0)
  have h := ((((((((hstart.puts (ippHdr jp.jobid)).put TAG_OPERATION_ATTR).addOption
    TAG_CHARSET (str "attributes-charset") (str "utf-8")).addOption
    TAG_NATULANG (str "attributes-natural-language") (str "en-us")).addOption
    TAG_URI (str "printer-uri") (printerUri printer_name)).addOption
    TAG_NAMEWOLANG (str "requesting-user-name") (jp.usernm behind)).addOption
    TAG_NAMEWOLANG (str "job-name") (jp.jobnm behind)).addOption
    TAG_MIMETYPE (str "document-format") (documentFormat jp.text)).put TAG_END_OF_ATTR
  have hconst : cstr (str "attributes-charset") = str "attributes-charset" ∧
      cstr (str "utf-8") = str "utf-8" ∧
      cstr (str "attributes-natural-language") = str "attributes-natural-language" ∧
      cstr (str "en-us") = str "en-us" ∧ cstr (str "printer-uri") = str "printer-uri" ∧
      cstr (str "requesting-user-name") = str "requesting-user-name" ∧
      cstr (str "job-name") = str "job-name" ∧
      cstr (str "document-format") = str "document-format" := by decide
  obtain ⟨h₁, h₂, h₃, h₄, h₅, h₆, h₇, h₈⟩ := hconst
  rw [h₁, h₂, h₃, h₄, h₅, h₆, h₇, h₈, cstr_printerUri, cstr_documentFormat] at h
  simpa [ippBytes, attributes, ippHeader] using h

/-- **The HTTP header.** -/
theorem httpHeader_wrote (printer_name : CString) (length : Nat) :
    (httpHeader printer_name length).Wrote 0 (headerBytes (httpLines printer_name length)) := by
  have hstart : Pen.blank.Wrote 0 [] := .start (Nat.le_refl 0)
  have h := (((((hstart.addLine (str "POST /ipp HTTP/1.1\r\n")).addLine
    (str "Content-Length: " ++ decimal length ++ str "\r\n")).addLine
    (str "Content-Type: application/ipp\r\n")).addLine
    (str "Host: " ++ printer_name.val ++ str ":" ++ decimal IPP_PORT ++ str "\r\n")).put 13).put 10
  have hlen : cstr (str "Content-Length: " ++ decimal length ++ str "\r\n") =
      str "Content-Length: " ++ decimal length ++ crlf := by
    apply cstr_of_not_mem
    rw [List.append_assoc, List.mem_append, List.mem_append]
    exact not_or.mpr ⟨by decide, not_or.mpr ⟨zero_not_mem_decimal length, by decide⟩⟩
  have hhost : cstr (str "Host: " ++ printer_name.val ++ str ":" ++ decimal IPP_PORT ++ str "\r\n") =
      str "Host: " ++ printer_name.val ++ str ":" ++ decimal IPP_PORT ++ crlf := by
    apply cstr_of_not_mem
    simp only [List.mem_append]
    have hport := zero_not_mem_decimal IPP_PORT
    have hname := printer_name.property
    intro hmem
    rcases hmem with (((hmem | hmem) | hmem) | hmem) | hmem
    · exact absurd hmem (by decide)
    · exact hname hmem
    · exact absurd hmem (by decide)
    · exact hport hmem
    · exact absurd hmem (by decide)
  have hconst : cstr (str "POST /ipp HTTP/1.1\r\n") = str "POST /ipp HTTP/1.1" ++ crlf ∧
      cstr (str "Content-Type: application/ipp\r\n") =
        str "Content-Type: application/ipp" ++ crlf := by decide
  rw [hconst.1, hconst.2, hlen, hhost] at h
  simpa [headerBytes, httpLines, httpHeader, crlf] using h

/-! ## Sizes -/

/-- The length of the IPP header. -/
theorem length_ippBytes (jp : Job) (behind : List Byte) (printer_name : CString) :
    (ippBytes jp behind printer_name).length = 160 + printer_name.val.length +
      (cstr (jp.usernm behind)).length + (cstr (jp.jobnm behind)).length +
      (documentFormat jp.text).length := by
  have hhdr : (ippHdr jp.jobid).length = 8 := rfl
  have hnames : "attributes-charset".length = 18 ∧ "attributes-natural-language".length = 27 ∧
      "printer-uri".length = 11 ∧ "requesting-user-name".length = 20 ∧ "job-name".length = 8 ∧
      "document-format".length = 15 := by decide
  have hvalues : "utf-8".length = 5 ∧ "en-us".length = 5 ∧ "http://".length = 7 ∧
      "/ipp".length = 4 := by decide
  simp only [ippBytes, attributes, printerUri, List.flatMap_cons, List.flatMap_nil,
    List.length_append, Attr.length_bytes, hhdr, List.length_singleton, List.length_nil, str,
    List.length_map, String.length_toList]
  omega

theorem length_headerBytes (printer_name : CString) (length : Nat) :
    (headerBytes (httpLines printer_name length)).length =
      83 + (decimal length).length + printer_name.val.length := by
  have hport : (decimal IPP_PORT).length = 3 := by decide
  have hlines : "POST /ipp HTTP/1.1".length = 18 ∧ "Content-Length: ".length = 16 ∧
      "Content-Type: application/ipp".length = 29 ∧ "Host: ".length = 6 ∧ ":".length = 1 := by
    decide
  simp only [headerBytes, httpLines, crlf, List.flatMap_cons, List.flatMap_nil, List.length_append,
    List.length_cons, List.length_nil, hport, str, List.length_map, String.length_toList]
  omega

/-- `ibuf` is filled up to the pointer. -/
theorem ippHeader_mem (jp : Job) (behind : List Byte) (printer_name : CString) :
    (ippHeader jp behind printer_name).mem.length = (ippHeader jp behind printer_name).cp :=
  (((((((((Pen.tight_blank.puts _).put _).addOption _ _ _).addOption _ _ _).addOption _ _ _).addOption
    _ _ _).addOption _ _ _).addOption _ _ _).length_put _)

/-- So is `hbuf`. -/
theorem httpHeader_mem (printer_name : CString) (length : Nat) :
    (httpHeader printer_name length).mem.length = (httpHeader printer_name length).cp :=
  ((((((Pen.tight_blank.addLine _).addLine _).addLine _).addLine _).put _).length_put _)

/-- The size of the IPP header. -/
theorem ippHeader_cp (jp : Job) (behind : List Byte) (printer_name : CString) :
    (ippHeader jp behind printer_name).cp = 160 + printer_name.val.length +
      (cstr (jp.usernm behind)).length + (cstr (jp.jobnm behind)).length +
      (documentFormat jp.text).length := by
  rw [(ippHeader_wrote jp behind printer_name).cp, length_ippBytes, Nat.zero_add]

/-- The size of the HTTP header. -/
theorem httpHeader_cp (printer_name : CString) (length : Nat) :
    (httpHeader printer_name length).cp =
      83 + (decimal length).length + printer_name.val.length := by
  rw [(httpHeader_wrote printer_name length).cp, length_headerBytes, Nat.zero_add]

/-- A name ends within its field. -/
theorem usernm_ends (h : 0 ∈ jp.req.usernm.val) : cstr (jp.usernm behind) = cstr jp.req.usernm.val ∧
    (cstr jp.req.usernm.val).length < USERNM_MAX := by
  obtain ⟨heq, hlt⟩ := cstr_append_of_mem h (jp.req.jobnm.val ++ behind)
  rw [jp.req.usernm.property] at hlt
  exact ⟨heq, hlt⟩

theorem jobnm_ends (h : 0 ∈ jp.req.jobnm.val) : cstr (jp.jobnm behind) = cstr jp.req.jobnm.val ∧
    (cstr jp.req.jobnm.val).length < JOBNM_MAX := by
  obtain ⟨heq, hlt⟩ := cstr_append_of_mem h behind
  rw [jp.req.jobnm.property] at hlt
  exact ⟨heq, hlt⟩

theorem length_documentFormat (text : Bool) :
    (documentFormat text).length = if text then 10 else 22 := by
  cases text
  · decide
  · decide

/-- `str` holds the URI, with the zero byte behind it. -/
def UriFits (printer_name : CString) : Prop := (printerUri printer_name).length + 1 ≤ STRSZ

instance : Decidable (UriFits printer_name) := Nat.decLe ..

theorem uriFits_iff : UriFits printer_name ↔ printer_name.val.length ≤ 52 := by
  have hconst : "http://".length = 7 ∧ "/ipp".length = 4 := by decide
  unfold UriFits
  rw [STRSZ]
  simp only [printerUri, str, List.length_append, List.length_map, String.length_toList]
  omega

/-- The headers fit into their buffers. -/
def HeadersFit (jp : Job) (behind : List Byte) (printer_name : CString) (st_size : Nat) : Prop :=
  (ippHeader jp behind printer_name).mem.length ≤ IBUFSZ ∧
  (httpHeader printer_name
    (announced st_size (ippHeader jp behind printer_name).cp jp.text)).mem.length ≤ HBUFSZ

instance (st_size : Nat) : Decidable (HeadersFit jp behind printer_name st_size) :=
  inferInstanceAs (Decidable (_ ∧ _))

/-- **The headers fit** exactly if the names and the format leave room for each other in `ibuf`;
`hbuf` is always large enough. -/
theorem header_sizes_iff (jp : Job) (behind : List Byte) (printer_name : CString) (st_size : Nat)
    (hsize : st_size < 2 ^ 63) (husernm : 0 ∈ jp.req.usernm.val) (hjobnm : 0 ∈ jp.req.jobnm.val)
    (huri : UriFits printer_name) :
    HeadersFit jp behind printer_name st_size ↔
      (cstr jp.req.usernm.val).length + (cstr jp.req.jobnm.val).length + printer_name.val.length +
        (if jp.text then 10 else 22) ≤ 352 := by
  obtain ⟨hu, hult⟩ := @usernm_ends jp behind husernm
  obtain ⟨hj, hjlt⟩ := @jobnm_ends jp behind hjobnm
  have hname := uriFits_iff.mp huri
  have hformat := length_documentFormat jp.text
  have hcp := ippHeader_cp jp behind printer_name
  rw [hu, hj, hformat] at hcp
  have hdigits : (decimal (announced st_size (ippHeader jp behind printer_name).cp
      jp.text)).length ≤ 20 := by
    have hextra : extra jp.text ≤ 1 := by
      rw [extra]
      split <;> omega
    have hformat' : (if jp.text then 10 else 22) ≤ 22 := by split <;> omega
    simp only [USERNM_MAX] at hult
    simp only [JOBNM_MAX] at hjlt
    apply length_decimal_le (by decide)
    rw [announced]
    omega
  rw [HeadersFit, ippHeader_mem, httpHeader_mem, httpHeader_cp, IBUFSZ, HBUFSZ]
  omega

/-- A job of which the names have these lengths. -/
def namesJob (flags : UInt32) (n m : Nat) (hn : n ≤ USERNM_MAX) (hm : m ≤ JOBNM_MAX) : Job where
  jobid := 1
  req :=
    { size := 0
      flags := flags
      usernm := ⟨List.replicate n 117 ++ List.replicate (USERNM_MAX - n) 0, by
        rw [List.length_append, List.length_replicate, List.length_replicate]
        omega⟩
      jobnm := ⟨List.replicate m 106 ++ List.replicate (JOBNM_MAX - m) 0, by
        rw [List.length_append, List.length_replicate, List.length_replicate]
        omega⟩ }

/-- The longest names as plain text, for a printer with a short name. -/
theorem header_sizes_text : HeadersFit (namesJob PR_TEXT 63 255 (by decide) (by decide)) []
    ⟨str "laser", by decide⟩ 1000 :=
  (header_sizes_iff _ _ _ _ (by decide) (by decide +kernel) (by decide +kernel) (by decide)).mpr
    (by decide +kernel)

/-- The longest names as PostScript, for a printer with a name in a domain. -/
theorem header_sizes_longest : ¬ ∀ (jp : Job) (behind : List Byte) (printer_name : CString)
    (st_size : Nat), st_size < 2 ^ 63 → 0 ∈ jp.req.usernm.val → 0 ∈ jp.req.jobnm.val →
      UriFits printer_name → HeadersFit jp behind printer_name st_size := by
  intro h
  have hfit := (h (namesJob 0 63 255 (by decide) (by decide)) [] ⟨str "laser.example.com", by decide⟩
    1000 (by decide) (by decide +kernel) (by decide +kernel) (by decide)).1
  rw [ippHeader_mem, ippHeader_cp] at hfit
  exact absurd hfit (by decide +kernel)

/-! ## The headers that the thread has -/

/-- `ibuf` and `hbuf`, if no write was behind the end of its buffer, and the sum is a `long`. -/
def headers (jp : Job) (behind : List Byte) (printer_name : CString) (st_size : Nat) :
    Option (Pen × Pen) :=
  let icp := ippHeader jp behind printer_name
  let length := announced st_size icp.cp jp.text
  if UriFits printer_name ∧ HeadersFit jp behind printer_name st_size ∧ length < 2 ^ 63 then
    some (icp, httpHeader printer_name length)
  else none

/-- The names and the format leave room for each other, and the sum is a `long`. -/
structure Room (jp : Job) (behind : List Byte) (printer_name : CString) (st_size : Nat) : Prop where
  str : printer_name.val.length ≤ 52
  ibuf : (cstr (jp.usernm behind)).length + (cstr (jp.jobnm behind)).length +
    printer_name.val.length + (if jp.text then 10 else 22) ≤ 352
  sum : st_size + 160 + (cstr (jp.usernm behind)).length + (cstr (jp.jobnm behind)).length +
    printer_name.val.length + (if jp.text then 11 else 22) < 2 ^ 63

/-- The sum that is announced, by the lengths of the names. -/
theorem announced_eq (jp : Job) (behind : List Byte) (printer_name : CString) (st_size : Nat) :
    announced st_size (ippHeader jp behind printer_name).cp jp.text =
      st_size + 160 + (cstr (jp.usernm behind)).length + (cstr (jp.jobnm behind)).length +
        printer_name.val.length + (if jp.text then 11 else 22) := by
  rw [announced, extra, ippHeader_cp, length_documentFormat]
  split
  · omega
  · omega

/-- The pens, which are the headers when there is room. -/
theorem headers_eq (jp : Job) (behind : List Byte) (printer_name : CString) (st_size : Nat)
    (h : Room jp behind printer_name st_size) : headers jp behind printer_name st_size =
      some (ippHeader jp behind printer_name, httpHeader printer_name
        (announced st_size (ippHeader jp behind printer_name).cp jp.text)) := by
  have hibuf := h.ibuf
  have hname := h.str
  have hsum := h.sum
  have hcp := ippHeader_cp jp behind printer_name
  rw [length_documentFormat] at hcp
  rw [← announced_eq] at hsum
  have hdigits : (decimal (announced st_size (ippHeader jp behind printer_name).cp
      jp.text)).length ≤ 19 := length_decimal_le (by decide) (by omega)
  unfold headers
  refine if_pos ⟨uriFits_iff.mpr hname, ⟨?_, ?_⟩, hsum⟩
  · rw [ippHeader_mem, hcp, IBUFSZ]
    omega
  · rw [httpHeader_mem, httpHeader_cp, HBUFSZ]
    omega

/-- Without room, a write is behind the end of its buffer. -/
theorem headers_none {st_size : Nat} (h : ¬ Room jp behind printer_name st_size) :
    headers jp behind printer_name st_size = none := by
  unfold headers
  refine if_neg fun hfit => h ?_
  obtain ⟨huri, ⟨hibuf, -⟩, hsum⟩ := hfit
  refine ⟨uriFits_iff.mp huri, ?_, announced_eq .. ▸ hsum⟩
  rw [ippHeader_mem, ippHeader_cp, length_documentFormat, IBUFSZ] at hibuf
  omega

end Headers

end LearningNotes.Printd
