import Yotta.Picohttp.Incremental

/-!
# The grammar of heads

The texts that the scanners of `picohttpparser.c` read, as types: a header line is a
`HeaderText`, and `headers` of a message are a `HeadersText`. A `LineGrammar` is the same for
the line in front of the headers, so that `parseHead` can be described once for the request
line and the status line.

Results:
* `parseHead_eq_done`: what is read is a line and headers of the grammar, and all of these are
  read as far as there is room for the headers.
* `parseHead_eq_eof` and `parseHead_eq_bad`: the input ends too early exactly where it is the
  proper front of a head, so that the parser never waits where nothing could follow, and it is
  refused exactly where no head begins with it or begins it.
-/

namespace Yotta.Picohttp

open Yotta.Bytes Yotta.Numeral Yotta.Scan

/-! ## Texts -/

/-- The bytes that `ADVANCE_TOKEN` steps over. -/
def isTokenByte (c : UInt8) : Bool := space < c && c != 0o177

/-- The bytes that `get_token_to_eol` steps over. -/
def isValueByte (c : UInt8) : Bool := c == ht || (space ≤ c && c != 0o177)

/-- The bytes of a header name behind the first one. -/
def isNameByte (c : UInt8) : Bool := c != 58 && !belowSpace c

def isBlank (c : UInt8) : Bool := c == space || c == ht

/-- A text over the bytes that satisfy `p`. -/
abbrev Text (p : UInt8 → Bool) := { s : List UInt8 // ∀ c ∈ s, p c }

/-- A line end. -/
inductive Newline where
  | lf
  | crlf
deriving DecidableEq

def Newline.text : Newline → List UInt8
  | lf => [Bytes.lf]
  | crlf => [cr, Bytes.lf]

/-- A number, as `parse_int` reads one. -/
structure Digits where
  text : Text isDigit
  ne_nil : text.1 ≠ []

/-- What `parse_int` makes of digits, in an `int`. -/
def intValue (digits : List UInt8) : ℤ :=
  digits.foldl (fun v c => Int.bmod (v * 10 + (c.toNat - 48)) (2 ^ 32)) 0

def Digits.value (digits : Digits) : ℤ := intValue digits.text.1

/-- A header name; only its first byte is looked up in `token_char_map`. -/
structure FieldName where
  first : UInt8
  more : Text isNameByte
  token : tokenCharMap.getD first.toNat 0 ≠ 0

def FieldName.text (name : FieldName) : List UInt8 := name.first :: name.more.1

/-- A header line: a name with its value, or a line that is the value of a header without a
name. -/
inductive HeaderText where
  | field (name : FieldName) (blanks : Text isBlank) (value : Text isValueByte)
      (tight : ∀ c ∈ value.1.head?, isBlank c = false) (newline : Newline)
  | continuation (value : Text isValueByte) (indented : ∃ c ∈ value.1.head?, isBlank c)
      (newline : Newline)

namespace HeaderText

def text : HeaderText → List UInt8
  | field name blanks value _ newline =>
    name.text ++ 58 :: (blanks.1 ++ (value.1 ++ newline.text))
  | continuation value _ newline => value.1 ++ newline.text

/-- The header of a line at the position `pos`. -/
def header (pos : ℕ) : HeaderText → PhrHeader
  | field name blanks value _ _ =>
    { name := some name.text, value := value.1,
      valueAt := pos + name.text.length + 1 + blanks.1.length }
  | continuation value _ _ => { name := none, value := value.1, valueAt := pos }

def IsField : HeaderText → Prop
  | field .. => True
  | continuation .. => False

end HeaderText

/-- The headers of lines at the position `pos`. -/
def headersAt (pos : ℕ) : List HeaderText → List PhrHeader
  | [] => []
  | line :: lines => line.header pos :: headersAt (pos + line.text.length) lines

/-- Header lines, of which the first one has a name, and the empty line. -/
structure HeadersText where
  lines : List HeaderText
  named : ∀ line ∈ lines.head?, line.IsField
  last : Newline

def HeadersText.text (h : HeadersText) : List UInt8 := h.lines.flatMap (·.text) ++ h.last.text

/-! ## Bytes and line ends -/

theorem isPrintableAscii_iff (c : UInt8) :
    isPrintableAscii c ↔ 32 ≤ c.toNat ∧ c.toNat < 127 := by
  have hlt := c.toNat_lt
  simp only [isPrintableAscii, decide_eq_true_eq, UInt8.lt_iff_toNat_lt, UInt8.toNat_sub]
  simp
  omega

theorem isTokenByte_eq (c : UInt8) : isTokenByte c =
    !(c = space || (!isPrintableAscii c && (c < 0o40 || c == 0o177))) := by
  have hspace : space.toNat = 32 := rfl
  rw [Bool.eq_iff_iff]
  simp [isTokenByte, isPrintableAscii_iff, ← UInt8.toNat_inj, UInt8.lt_iff_toNat_lt]
  omega

theorem isValueByte_eq (c : UInt8) : isValueByte c =
    !(!isPrintableAscii c && (c < 0o40 && c != ht || c == 0o177)) := by
  have hspace : space.toNat = 32 := rfl
  have hht : ht.toNat = 9 := rfl
  rw [Bool.eq_iff_iff]
  simp [isValueByte, isPrintableAscii_iff, ← UInt8.toNat_inj, UInt8.lt_iff_toNat_lt,
    UInt8.le_iff_toNat_le]
  omega

/-- What holds of every entry of a table. -/
theorem forall_entry {table : List UInt8} {P : UInt8 → ℕ → Bool}
    (h : table.zipIdx.all fun x => P x.1 x.2) {n : ℕ} (hn : n < table.length) :
    P (table.getD n 0) n := by
  have hmem : (table[n], n) ∈ table.zipIdx := by
    rw [List.mem_zipIdx_iff_getElem?]
    exact List.getElem?_eq_getElem hn
  rw [List.getD_eq_getElem _ _ hn]
  exact List.all_eq_true.mp h _ hmem

theorem token_table :
    tokenCharMap.zipIdx.all fun x => x.1 == 0 || (32 < x.2 && x.2 < 127 && x.2 != 58) := by
  decide +kernel

/-- The first byte of a name is one of a name, and no blank. -/
theorem isNameByte_of_token {c : UInt8} (h : tokenCharMap.getD c.toNat 0 ≠ 0) :
    isNameByte c ∧ isBlank c = false := by
  have hlt : c.toNat < tokenCharMap.length := by
    by_contra hge
    exact h (List.getD_eq_default _ _ (not_lt.mp hge))
  have hentry := forall_entry (P := fun v n => v == 0 || (32 < n && n < 127 && n != 58))
    token_table hlt
  simp only [Bool.or_eq_true, beq_iff_eq, h, false_or, Bool.and_eq_true, decide_eq_true_eq,
    bne_iff_ne] at hentry
  have hspace : space.toNat = 32 := rfl
  have hht : ht.toNat = 9 := rfl
  simp [isNameByte, belowSpace, isBlank, ← UInt8.toNat_inj, UInt8.lt_iff_toNat_lt,
    UInt8.le_iff_toNat_le]
  omega

theorem newline_eq_done {c : UInt8} {s rest : List UInt8} :
    newline c s = .done () rest ↔ ∃ nl : Newline, c :: s = nl.text ++ rest := by
  constructor
  · intro h
    obtain ⟨p, hp, rfl | rfl⟩ := reads_newline h
    · exact ⟨.lf, hp⟩
    · exact ⟨.crlf, hp⟩
  · rintro ⟨nl, h⟩
    cases nl with
    | lf =>
      obtain ⟨rfl, rfl⟩ := List.cons.inj h
      rfl
    | crlf =>
      obtain ⟨rfl, rfl⟩ := List.cons.inj h
      rfl

theorem Newline.exists_cons (nl : Newline) : ∃ c t, nl.text = c :: t ∧ (c = cr ∨ c = Bytes.lf) := by
  cases nl with
  | lf => exact ⟨Bytes.lf, [], rfl, Or.inr rfl⟩
  | crlf => exact ⟨cr, [Bytes.lf], rfl, Or.inl rfl⟩

/-! ## The loops -/

/-- `*buf == ' '`, or the byte is refused. -/
def atSpace (c : UInt8) (s : List UInt8) : Scan Unit :=
  if c = space then .done () (c :: s) else .bad

/-- `*buf == ':'`, or the byte is refused. -/
def atColon (c : UInt8) (s : List UInt8) : Scan Unit := if c = 58 then .done () s else .bad

/-- The byte ends a loop that has no condition on it. -/
def atOther (c : UInt8) (s : List UInt8) : Scan Unit := .done () (c :: s)

theorem advanceToken_eq_span (s : List UInt8) : advanceToken s = span isTokenByte atSpace s := by
  induction s with
  | nil => rfl
  | cons c s ih =>
    rw [advanceToken, span, ih, isTokenByte_eq, atSpace]
    by_cases h1 : c = space
    · simp [h1]
    · cases h2 : !isPrintableAscii c && (c < 0o40 || c == 0o177) with
      | true => rw [if_neg h1, if_pos rfl, if_neg h1, Bool.or_true]; rfl
      | false => rw [if_neg h1, decide_eq_false h1]; rfl

theorem foundCtl_eq_newline (c : UInt8) (s : List UInt8) :
    foundCtl c s = (newline c s).map fun _ => [] := by
  rw [foundCtl, newline]
  split_ifs <;> rfl

theorem getTokenToEol_eq_span (s : List UInt8) :
    getTokenToEol s = span isValueByte newline s := by
  induction s with
  | nil => rfl
  | cons c s ih =>
    rw [getTokenToEol, span, ih, foundCtl_eq_newline, isValueByte_eq]
    cases !isPrintableAscii c && (c < 0o40 && c != ht || c == 0o177) <;> rfl

theorem headerName_eq_span (s : List UInt8) : headerName s = span isNameByte atColon s := by
  induction s with
  | nil => rfl
  | cons c s ih =>
    rw [headerName, span, ih, isNameByte, atColon]
    split_ifs <;> simp_all

theorem skipBlanks_eq_span (s : List UInt8) :
    skipBlanks s = (span isBlank atOther s).map List.length := by
  induction s with
  | nil => rfl
  | cons c s ih =>
    rw [skipBlanks, span, ih, isBlank, atOther]
    split_ifs with h1 h2
    · cases span isBlank atOther s <;> rfl
    · simp_all
    · simp_all
    · rfl

theorem parseDigits_eq_span (v : ℤ) (s : List UInt8) : parseDigits v s =
    (span isDigit atOther s).map
      (List.foldl (fun v c => Int.bmod (v * 10 + (c.toNat - 48)) (2 ^ 32)) v) := by
  induction s generalizing v with
  | nil => rfl
  | cons c s ih =>
    rw [parseDigits, span, atOther]
    split_ifs with hc
    · rw [ih]
      cases span isDigit atOther s <;> rfl
    · rfl

theorem getTokenToEol_eq_done {s value rest : List UInt8} :
    getTokenToEol s = .done value rest ↔
      (∀ c ∈ value, isValueByte c) ∧ ∃ nl : Newline, s = value ++ (nl.text ++ rest) := by
  rw [getTokenToEol_eq_span, span_eq_done]
  constructor
  · rintro ⟨c, t, rfl, hall, -, hstop⟩
    obtain ⟨nl, hnl⟩ := newline_eq_done.mp hstop
    exact ⟨hall, nl, by rw [hnl]⟩
  · rintro ⟨hall, nl, rfl⟩
    cases nl with
    | lf => exact ⟨lf, rest, rfl, hall, rfl, rfl⟩
    | crlf => exact ⟨cr, lf :: rest, rfl, hall, rfl, rfl⟩

theorem advanceToken_eq_done {s token rest : List UInt8} :
    advanceToken s = .done token rest ↔
      (∀ c ∈ token, isTokenByte c) ∧ ∃ t, rest = space :: t ∧ s = token ++ space :: t := by
  rw [advanceToken_eq_span, span_eq_done]
  constructor
  · rintro ⟨c, t, rfl, hall, -, hstop⟩
    unfold atSpace at hstop
    split_ifs at hstop with hc
    cases hstop
    exact ⟨hall, t, by rw [hc], by rw [hc]⟩
  · rintro ⟨hall, t, rfl, rfl⟩
    exact ⟨space, t, rfl, hall, rfl, rfl⟩

theorem headerName_eq_done {s name rest : List UInt8} :
    headerName s = .done name rest ↔ (∀ c ∈ name, isNameByte c) ∧ s = name ++ 58 :: rest := by
  rw [headerName_eq_span, span_eq_done]
  constructor
  · rintro ⟨c, t, rfl, hall, -, hstop⟩
    unfold atColon at hstop
    split_ifs at hstop with hc
    cases hstop
    exact ⟨hall, by rw [hc]⟩
  · rintro ⟨hall, rfl⟩
    exact ⟨58, rest, rfl, hall, rfl, rfl⟩

theorem skipBlanks_eq_done {s rest : List UInt8} {n : ℕ} :
    skipBlanks s = .done n rest ↔
      ∃ blanks : Text isBlank, blanks.1.length = n ∧ s = blanks.1 ++ rest ∧
        ∃ c ∈ rest.head?, isBlank c = false := by
  rw [skipBlanks_eq_span, map_eq_done]
  constructor
  · rintro ⟨blanks, h, hn⟩
    obtain ⟨c, t, rfl, hall, hc, hstop⟩ := span_eq_done.mp h
    cases hstop
    exact ⟨⟨blanks, hall⟩, hn, rfl, c, rfl, hc⟩
  · rintro ⟨blanks, hn, rfl, c, hc, hblank⟩
    obtain ⟨t, rfl⟩ := List.head?_eq_some_iff.mp hc
    exact ⟨blanks.1, span_eq_done.mpr ⟨c, t, rfl, blanks.2, hblank, rfl⟩, hn⟩

theorem parseInt_eq_done {s rest : List UInt8} {v : ℤ} :
    parseInt s = .done v rest ↔
      ∃ digits : Digits, digits.value = v ∧ s = digits.text.1 ++ rest ∧
        ∃ c ∈ rest.head?, isDigit c = false := by
  have hloop : parseDigits 0 s = .done v rest ↔
      ∃ digits : Text isDigit, intValue digits.1 = v ∧ s = digits.1 ++ rest ∧
        ∃ c ∈ rest.head?, isDigit c = false := by
    rw [parseDigits_eq_span, map_eq_done]
    constructor
    · rintro ⟨digits, h, hv⟩
      obtain ⟨c, t, rfl, hall, hc, hstop⟩ := span_eq_done.mp h
      cases hstop
      exact ⟨⟨digits, hall⟩, hv, rfl, c, rfl, hc⟩
    · rintro ⟨digits, hv, rfl, c, hc, hdigit⟩
      obtain ⟨t, rfl⟩ := List.head?_eq_some_iff.mp hc
      exact ⟨digits.1, span_eq_done.mpr ⟨c, t, rfl, digits.2, hdigit, rfl⟩, hv⟩
  constructor
  · intro h
    cases s with
    | nil => cases h
    | cons c s =>
      rw [parseInt] at h
      split_ifs at h with hc
      obtain ⟨digits, hv, hs, hrest⟩ := hloop.mp h
      refine ⟨⟨digits, fun hnil => ?_⟩, hv, hs, hrest⟩
      obtain ⟨d, hd, hdigit⟩ := hrest
      rw [hnil, List.nil_append] at hs
      rw [← hs] at hd
      obtain rfl : c = d := by simpa using hd
      rw [hc] at hdigit
      cases hdigit
  · rintro ⟨digits, hv, hs, hrest⟩
    have hdone := hloop.mpr ⟨digits.text, hv, hs, hrest⟩
    obtain ⟨c, t, hcons⟩ := List.exists_cons_of_ne_nil digits.ne_nil
    have hc : isDigit c := digits.text.2 c (by rw [hcons]; exact List.mem_cons_self)
    rw [hcons, List.cons_append] at hs
    rw [hs] at hdone ⊢
    rw [parseInt, if_pos hc]
    exact hdone

/-! ## Header lines -/

/-- A line starts with a byte of a name, or with a blank. -/
theorem HeaderText.exists_cons (line : HeaderText) : ∃ c t, line.text = c :: t ∧
    (line.IsField ∧ tokenCharMap.getD c.toNat 0 ≠ 0 ∨ ¬ line.IsField ∧ isBlank c) := by
  cases line with
  | field name blanks value tight newline => exact ⟨_, _, rfl, Or.inl ⟨trivial, name.token⟩⟩
  | continuation value indented newline =>
    obtain ⟨c, hc, hblank⟩ := indented
    obtain ⟨t, ht⟩ := List.head?_eq_some_iff.mp hc
    exact ⟨c, t ++ newline.text, by rw [text, ht, List.cons_append], Or.inr ⟨id, hblank⟩⟩

/-- The first byte of a line tells the two kinds apart. -/
theorem HeaderText.first_byte {line : HeaderText} {c : UInt8} {s rest : List UInt8}
    (h : c :: s = line.text ++ rest) :
    line.IsField ∧ tokenCharMap.getD c.toNat 0 ≠ 0 ∨ ¬ line.IsField ∧ isBlank c := by
  obtain ⟨d, t, htext, hfirst⟩ := line.exists_cons
  rw [htext] at h
  obtain ⟨rfl, -⟩ := List.cons.inj h
  exact hfirst

/-- A header line with a name. -/
theorem namedLine_eq_done {pos : ℕ} {c : UInt8} {s rest : List UInt8} {header : PhrHeader}
    (htoken : tokenCharMap.getD c.toNat 0 ≠ 0) :
    ((headerName (c :: s)).bind fun name s => (skipBlanks s).bind fun blanks s =>
      headerValue (some name) (pos + name.length + 1 + blanks) s) = .done header rest ↔
    ∃ line : HeaderText, line.IsField ∧ c :: s = line.text ++ rest ∧ header = line.header pos := by
  constructor
  · intro h
    obtain ⟨name, u, hname, h⟩ := bind_eq_done.mp h
    obtain ⟨n, v, hblanks, h⟩ := bind_eq_done.mp h
    obtain ⟨value, hvalue, rfl⟩ := map_eq_done.mp h
    obtain ⟨hall, hs⟩ := headerName_eq_done.mp hname
    obtain ⟨blanks, rfl, rfl, d, hd, htight⟩ := skipBlanks_eq_done.mp hblanks
    obtain ⟨hlegal, nl, rfl⟩ := getTokenToEol_eq_done.mp hvalue
    -- the name is not empty, since it starts with a byte that is no colon
    cases name with
    | nil =>
      obtain ⟨rfl, -⟩ := List.cons.inj hs
      exact absurd (isNameByte_of_token htoken).1 (by decide)
    | cons e name =>
      obtain ⟨rfl, rfl⟩ := List.cons.inj hs
      refine ⟨.field ⟨c, ⟨name, fun x hx => hall x (List.mem_cons_of_mem _ hx)⟩, htoken⟩ blanks
        ⟨value, hlegal⟩ (fun x hx => ?_) nl, trivial, ?_, rfl⟩
      · have hhead : (value ++ (nl.text ++ rest)).head? = some x := by
          obtain ⟨t, rfl⟩ := List.head?_eq_some_iff.mp hx
          rfl
        rw [hhead] at hd
        obtain rfl : x = d := by simpa using hd
        exact htight
      · simp [HeaderText.text, FieldName.text]
  · rintro ⟨line, hfield, hs, rfl⟩
    cases line with
    | continuation value indented newline => exact hfield.elim
    | field name blanks value tight nl =>
      have hall : ∀ x ∈ name.text, isNameByte x :=
        List.forall_mem_cons.mpr ⟨(isNameByte_of_token name.token).1, name.more.2⟩
      have hhead : ∃ x ∈ (value.1 ++ (nl.text ++ rest)).head?, isBlank x = false := by
        obtain ⟨e, t, hnl, hend⟩ := nl.exists_cons
        cases hv : value.1 with
        | nil =>
          refine ⟨e, by rw [hnl]; rfl, ?_⟩
          rcases hend with rfl | rfl <;> decide
        | cons x t => exact ⟨x, rfl, tight x (by rw [hv]; rfl)⟩
      rw [hs, HeaderText.text, List.append_assoc, List.cons_append, List.append_assoc,
        List.append_assoc, headerName_eq_done.mpr ⟨hall, rfl⟩, bind_done,
        skipBlanks_eq_done.mpr ⟨blanks, rfl, rfl, hhead⟩, bind_done, headerValue,
        getTokenToEol_eq_done.mpr ⟨value.2, nl, rfl⟩]
      rfl

/-- A header line without a name. -/
theorem continuedLine_eq_done {pos : ℕ} {c : UInt8} {s rest : List UInt8} {header : PhrHeader}
    (hblank : isBlank c) : headerValue none pos (c :: s) = .done header rest ↔
    ∃ line : HeaderText, ¬ line.IsField ∧ c :: s = line.text ++ rest ∧
      header = line.header pos := by
  constructor
  · intro h
    obtain ⟨value, hvalue, rfl⟩ := map_eq_done.mp h
    obtain ⟨hlegal, nl, hs⟩ := getTokenToEol_eq_done.mp hvalue
    have hhead : value.head? = some c := by
      cases value with
      | nil =>
        obtain ⟨e, t, hnl, hend⟩ := nl.exists_cons
        rw [hnl] at hs
        have hce : c = e := (List.cons.inj hs).1
        subst hce
        rcases hend with rfl | rfl
        · exact absurd hblank (by decide)
        · exact absurd hblank (by decide)
      | cons d value => rw [(List.cons.inj hs).1, List.head?_cons]
    refine ⟨.continuation ⟨value, hlegal⟩ ⟨c, hhead, hblank⟩ nl, id, ?_, rfl⟩
    rw [HeaderText.text, List.append_assoc, hs]
  · rintro ⟨line, hfield, hs, rfl⟩
    cases line with
    | field name blanks value tight nl => exact absurd trivial hfield
    | continuation value indented nl =>
      rw [HeaderText.text, List.append_assoc] at hs
      rw [hs, headerValue, getTokenToEol_eq_done.mpr ⟨value.2, nl, rfl⟩]
      rfl

/-- **A header line.** -/
theorem headerLine_eq_done {pos : ℕ} {first : Bool} {c : UInt8} {s rest : List UInt8}
    {header : PhrHeader} :
    headerLine pos first (c :: s) = .done header rest ↔
      ∃ line : HeaderText, (first → line.IsField) ∧ c :: s = line.text ++ rest ∧
        header = line.header pos := by
  rw [headerLine]
  by_cases hcont : first = false ∧ isBlank c
  · obtain ⟨rfl, hblank⟩ := hcont
    have hnamed : (!(!false && (c == space || c == ht))) = false := by
      rw [isBlank] at hblank
      rw [hblank]
      rfl
    rw [hnamed, if_neg Bool.false_ne_true, continuedLine_eq_done hblank]
    refine exists_congr fun line => and_congr_left fun h => ?_
    rcases HeaderText.first_byte h.1 with ⟨-, htoken⟩ | ⟨hfield, -⟩
    · rw [(isNameByte_of_token htoken).2] at hblank
      cases hblank
    · exact iff_of_true hfield fun hfalse => absurd hfalse Bool.false_ne_true
  · have hnamed : (!(!first && (c == space || c == ht))) = true := by
      change (!(!first && isBlank c)) = true
      cases first <;> simp_all
    rw [hnamed, if_pos rfl]
    split_ifs with htoken
    · -- neither the first byte of a name nor a continuation
      refine iff_of_false (by simp) ?_
      rintro ⟨line, hfirst, hs, -⟩
      rcases HeaderText.first_byte hs with ⟨-, h⟩ | ⟨hfield, hblank⟩
      · exact h htoken
      · cases first with
        | true => exact hfield (hfirst rfl)
        | false => exact hcont ⟨rfl, hblank⟩
    · rw [namedLine_eq_done htoken]
      refine exists_congr fun line => and_congr_left fun h => ?_
      rcases HeaderText.first_byte h.1 with ⟨hfield, -⟩ | ⟨-, hblank⟩
      · exact iff_of_true hfield fun _ => hfield
      · rw [(isNameByte_of_token htoken).2] at hblank
        cases hblank

/-! ## Headers -/

/-- Headers that are read are header lines and an empty line. -/
theorem lines_of_parseHeaders {room pos n : ℕ} {headers headers' : List PhrHeader}
    {s rest : List UInt8} (hle : headers.length ≤ room)
    (h : parseHeaders room (pos + s.length) n headers s = (.done () rest, headers')) :
    ∃ (lines : List HeaderText) (last : Newline),
      (headers = [] → ∀ line ∈ lines.head?, line.IsField) ∧ headers.length + lines.length ≤ room ∧
      s = lines.flatMap (·.text) ++ (last.text ++ rest) ∧
      headers' = headers ++ headersAt pos lines := by
  induction n generalizing headers pos s with
  | zero => cases h
  | succ n ih =>
    rcases parseHeaders_done h with ⟨c, t, rfl, -, hnl, rfl⟩ |
      ⟨c, t, header, u, rfl, -, -, hroom, hline, hu⟩
    · obtain ⟨last, hlast⟩ := newline_eq_done.mp hnl
      exact ⟨[], last, fun _ => nofun, hle, hlast, (List.append_nil _).symm⟩
    · rw [Nat.add_sub_cancel] at hline
      obtain ⟨line, hfirst, htext, rfl⟩ := headerLine_eq_done.mp hline
      rw [htext, List.length_append, ← Nat.add_assoc] at hu
      obtain ⟨lines, last, -, hlen, rfl, rfl⟩ :=
        ih (by rw [List.length_append, List.length_singleton]; omega) hu
      refine ⟨line :: lines, last, ?_, ?_, ?_, ?_⟩
      · rintro rfl x hx
        obtain rfl : line = x := by simpa using hx
        exact hfirst rfl
      · rw [List.length_append, List.length_singleton] at hlen
        rw [List.length_cons]
        omega
      · rw [htext, List.flatMap_cons, List.append_assoc]
      · rw [headersAt, List.append_assoc, List.singleton_append]

/-- Header lines and an empty line are read. -/
theorem parseHeaders_of_lines {room : ℕ} (lines : List HeaderText) (last : Newline)
    {headers : List PhrHeader} (hfirst : headers = [] → ∀ line ∈ lines.head?, line.IsField)
    (hroom : headers.length + lines.length ≤ room) (pos : ℕ) {n : ℕ} (rest : List UInt8)
    (hn : (lines.flatMap (·.text)).length < n) :
    parseHeaders room (pos + (lines.flatMap (·.text) ++ (last.text ++ rest)).length) n headers
      (lines.flatMap (·.text) ++ (last.text ++ rest)) =
      (.done () rest, headers ++ headersAt pos lines) := by
  obtain ⟨n, rfl⟩ : ∃ m, n = m + 1 := ⟨n - 1, by omega⟩
  induction lines generalizing headers pos n with
  | nil =>
    obtain ⟨c, t, hlast, hc⟩ := last.exists_cons
    have hnl : newline c (t ++ rest) = .done () rest :=
      newline_eq_done.mpr ⟨last, by rw [hlast, List.cons_append]⟩
    rw [List.flatMap_nil, List.nil_append, hlast, List.cons_append, parseHeaders_newline hc, hnl,
      headersAt, List.append_nil]
  | cons line lines ih =>
    obtain ⟨c, t, htext, hbyte⟩ := line.exists_cons
    have hend : c ≠ cr ∧ c ≠ lf := by
      rcases hbyte with ⟨-, htoken⟩ | ⟨-, hblank⟩
      · constructor <;> rintro rfl <;> exact absurd (isNameByte_of_token htoken).1 (by decide)
      · constructor <;> rintro rfl <;> exact absurd hblank (by decide)
    rw [List.length_cons] at hroom
    have hline (u : List UInt8) :
        headerLine pos headers.isEmpty (c :: (t ++ u)) = .done (line.header pos) u := by
      refine headerLine_eq_done.mpr ⟨line, fun hempty => ?_, by rw [htext, List.cons_append], rfl⟩
      exact hfirst (List.isEmpty_iff.mp hempty) line rfl
    have hpos (u : List UInt8) :
        pos + (c :: (t ++ u)).length = pos + line.text.length + u.length := by
      rw [htext, List.length_cons, List.length_append, List.length_cons]
      omega
    rw [List.flatMap_cons, List.length_append, htext] at hn
    obtain ⟨n, rfl⟩ : ∃ m, n = m + 1 := ⟨n - 1, by rw [List.length_cons] at hn; omega⟩
    rw [List.flatMap_cons, List.append_assoc, htext, List.cons_append,
      parseHeaders_line hend.1 hend.2 (by omega), Nat.add_sub_cancel, hline, headersAt]
    dsimp only
    rw [hpos, ih, List.append_assoc, List.singleton_append]
    · intro h
      cases headers <;> cases h
    · rw [List.length_append, List.length_singleton]
      omega
    · rw [List.length_cons] at hn
      omega

/-! ## Numbers and versions -/

theorem expectChars_eq_done {chs s rest : List UInt8} :
    expectChars chs s = .done () rest ↔ s = chs ++ rest := by
  induction chs generalizing s with
  | nil =>
    rw [expectChars, List.nil_append]
    simp
  | cons ch chs ih =>
    cases s with
    | nil => exact iff_of_false (by simp [expectChars, expectChar]) (by simp)
    | cons c s =>
      rw [expectChars, expectChar]
      split_ifs with hc
      · rw [bind_done, ih, hc, List.cons_append, List.cons_inj_right]
      · exact iff_of_false (by simp) fun h => hc (List.cons.inj h).1

theorem parseHttpVersion_eq_done {s rest : List UInt8} {v : ℤ} :
    parseHttpVersion s = .done v rest ↔
      ∃ digits : Digits, digits.value = v ∧ s = ascii "HTTP/1." ++ (digits.text.1 ++ rest) ∧
        ∃ c ∈ rest.head?, isDigit c = false := by
  rw [parseHttpVersion, bind_eq_done]
  constructor
  · rintro ⟨_, u, hchars, hint⟩
    obtain ⟨digits, hv, rfl, hrest⟩ := parseInt_eq_done.mp hint
    exact ⟨digits, hv, expectChars_eq_done.mp hchars, hrest⟩
  · rintro ⟨digits, hv, hs, hrest⟩
    exact ⟨(), digits.text.1 ++ rest, expectChars_eq_done.mpr hs,
      parseInt_eq_done.mpr ⟨digits, hv, rfl, hrest⟩⟩

/-! ## Heads that are not complete -/

theorem viable_newline (c : UInt8) : Viable (· = []) (newline c) := by
  intro s h
  cases s with
  | nil =>
    rw [newline] at h
    split_ifs at h with hc
    exact ⟨[lf], (), [], by rw [hc]; rfl, rfl⟩
  | cons d s =>
    rw [newline, expectChar] at h
    split_ifs at h

theorem viable_getTokenToEol : Viable (· = []) getTokenToEol := by
  rw [funext getTokenToEol_eq_span]
  exact span_viable ⟨lf, [], [], rfl, rfl, rfl⟩ fun c _ => viable_newline c

theorem viable_headerName : Viable (· = []) headerName := by
  rw [funext headerName_eq_span]
  refine span_viable ⟨58, [], [], rfl, rfl, rfl⟩ fun c _ s h => ?_
  rw [atColon] at h
  split_ifs at h

/-- Any byte that is no blank ends the blanks. -/
theorem viable_skipBlanks : Viable (· = [dot]) skipBlanks := by
  have hloop : Viable (· = [dot]) (span isBlank atOther) :=
    span_viable ⟨dot, [], [dot], rfl, rfl, rfl⟩ fun _ _ _ h => by cases h
  rw [funext skipBlanks_eq_span]
  exact hloop.map _

/-- Any byte that is no digit ends a number. -/
theorem viable_parseInt {c : UInt8} (hc : isDigit c = false) : Viable (· = [c]) parseInt := by
  have hspan : Viable (· = [c]) (span isDigit atOther) :=
    span_viable ⟨c, [], [c], hc, rfl, rfl⟩ fun _ _ _ h => by cases h
  have hloop : Viable (· = [c]) (parseDigits 0) := by
    rw [funext (parseDigits_eq_span 0)]
    exact hspan.map _
  intro s h
  cases s with
  | nil =>
    refine ⟨[48, c], 0, [c],
      parseInt_eq_done.mpr
        ⟨⟨⟨[48], List.forall_mem_singleton.mpr rfl⟩, by simp⟩, rfl, rfl, ?_⟩, rfl⟩
    exact ⟨c, rfl, hc⟩
  | cons d s =>
    rw [parseInt] at h
    split_ifs at h with hd
    obtain ⟨t, v, rest, ht, hrest⟩ := hloop (d :: s) h
    exact ⟨t, v, rest, by rw [List.cons_append, parseInt, if_pos hd, ← List.cons_append, ht], hrest⟩

theorem viable_expectChars (chs : List UInt8) : Viable (· = []) (expectChars chs) := by
  induction chs with
  | nil => intro s h; cases h
  | cons ch chs ih =>
    intro s h
    cases s with
    | nil => exact ⟨ch :: chs, (), [], expectChars_eq_done.mpr (List.append_nil _).symm, rfl⟩
    | cons c s =>
      rw [expectChars, expectChar] at h
      split_ifs at h with hc
      swap
      · cases h
      obtain ⟨t, _, rest, ht, hrest⟩ := ih s h
      refine ⟨t, (), rest, ?_, hrest⟩
      rw [List.cons_append, expectChars, expectChar, if_pos hc, bind_done, ht]

theorem viable_parseHttpVersion {c : UInt8} (hc : isDigit c = false) :
    Viable (· = [c]) parseHttpVersion :=
  (viable_expectChars _).bind (extends_expectChars _) (fun _ => viable_parseInt hc) <| by
    rintro _ _ rfl
    rfl

/-- A header line that is not complete can be completed. -/
theorem viable_headerLine {pos : ℕ} {first : Bool} {c : UInt8} {s : List UInt8}
    (h : headerLine pos first (c :: s) = .eof) :
    ∃ t header, headerLine pos first (c :: (s ++ t)) = .done header [] := by
  have hnamed : Viable (· = []) fun s =>
      (headerName s).bind fun name s => (skipBlanks s).bind fun blanks s =>
        headerValue (some name) (pos + name.length + 1 + blanks) s := by
    refine viable_headerName.bind extends_headerName (fun _ => viable_skipBlanks.bind
      extends_skipBlanks (fun _ => viable_getTokenToEol.map _) ?_) ?_
    · rintro _ _ rfl
      rfl
    · rintro _ _ rfl
      rfl
  have hvalue : Viable (· = []) (headerValue none pos) := viable_getTokenToEol.map _
  rw [headerLine] at h
  split_ifs at h with h1 h2
  · obtain ⟨t, header, _, ht, rfl⟩ := hnamed (c :: s) h
    refine ⟨t, header, ?_⟩
    rw [headerLine, if_pos h1, if_neg h2]
    exact ht
  · obtain ⟨t, header, _, ht, rfl⟩ := hvalue (c :: s) h
    refine ⟨t, header, ?_⟩
    rw [headerLine, if_neg h1]
    exact ht

/-- Headers that are not complete can be completed, within the room that there is. -/
theorem viable_parseHeaders {room len n : ℕ} {headers headers' : List PhrHeader}
    {s : List UInt8} (hle : headers.length ≤ room) (hn : s.length < n)
    (h : parseHeaders room len n headers s = (.eof, headers')) :
    ∃ (t : List UInt8) (lines : List HeaderText) (last : Newline), t ≠ [] ∧
      (headers = [] → ∀ line ∈ lines.head?, line.IsField) ∧
      headers.length + lines.length ≤ room ∧ s ++ t = lines.flatMap (·.text) ++ last.text := by
  obtain ⟨n, rfl⟩ : ∃ m, n = m + 1 := ⟨n - 1, by omega⟩
  induction n generalizing headers s with
  | zero =>
    obtain rfl : s = [] := List.length_eq_zero_iff.mp (by omega)
    exact ⟨[lf], [], .lf, by decide, fun _ => nofun, hle, rfl⟩
  | succ n ih =>
    cases s with
    | nil => exact ⟨[lf], [], .lf, by decide, fun _ => nofun, hle, rfl⟩
    | cons c s =>
      rw [parseHeaders] at h
      split_ifs at h with hend hroom
      · -- a line end of which only the first byte is there
        obtain ⟨hnl, -⟩ := Prod.mk.inj h
        obtain ⟨t, _, _, ht, rfl⟩ := viable_newline c s hnl
        obtain ⟨last, htext⟩ := newline_eq_done.mp ht
        refine ⟨t, [], last, ?_, fun _ => nofun, hle, by simpa using htext⟩
        rintro rfl
        rw [List.append_nil, hnl] at ht
        cases ht
      · cases h
      · cases hline : headerLine (len - (s.length + 1)) headers.isEmpty (c :: s) with
        | bad => rw [hline] at h; cases h
        | eof =>
          obtain ⟨t, header, ht⟩ := viable_headerLine hline
          obtain ⟨line, hfirst, htext, -⟩ := headerLine_eq_done.mp ht
          rw [List.append_nil] at htext
          refine ⟨t ++ [lf], [line], .lf, by simp, ?_, ?_, ?_⟩
          · rintro rfl x hx
            obtain rfl : line = x := by simpa using hx
            exact hfirst rfl
          · rw [List.length_singleton]
            omega
          · rw [← List.append_assoc, List.cons_append, htext, List.flatMap_singleton]
            rfl
        | done header u =>
          rw [hline] at h
          obtain ⟨line, hfirst, htext, -⟩ := headerLine_eq_done.mp hline
          obtain ⟨d, w, hline', -⟩ := line.exists_cons
          have hlen : u.length < n + 1 := by
            have := congrArg List.length htext
            rw [hline', List.length_append, List.length_cons, List.length_cons] at this
            rw [List.length_cons] at hn
            omega
          obtain ⟨t, lines, last, ht, -, hroom', hut⟩ :=
            ih (by rw [List.length_append, List.length_singleton]; omega) hlen h
          refine ⟨t, line :: lines, last, ht, ?_, ?_, ?_⟩
          · rintro rfl x hx
            obtain rfl : line = x := by simpa using hx
            exact hfirst rfl
          · rw [List.length_append, List.length_singleton] at hroom'
            rw [List.length_cons]
            omega
          · rw [htext, List.flatMap_cons, List.append_assoc, List.append_assoc, hut]

/-! ## Heads -/

/-- The grammar of the line in front of headers: its texts, and that `line` reads these. -/
structure LineGrammar {α : Type} (line : List UInt8 → Scan α) (L : Type) where
  text : L → List UInt8
  value : L → α
  reads : ∀ {s rest x}, line s = .done x rest ↔ ∃ l, s = text l ++ rest ∧ x = value l
  extension : Extends line
  viable : Viable (· = []) line

/-- A line and headers. -/
structure HeadText (L : Type) where
  line : L
  headers : HeadersText

/-- What `parse_request` and `parse_response` have in common: a line, the headers behind it,
and the output parameters of both, `mk` behind the line and `stored` where that is not read. -/
def parseHead {α β : Type} (mk : α → List PhrHeader → β) (stored : List UInt8 → β)
    (line : List UInt8 → Scan α) (maxHeaders : ℕ) (buf : List UInt8) : Scan Unit × β :=
  match line buf with
  | .done x s =>
    let (res, headers) := parseHeaders maxHeaders buf.length (s.length + 1) [] s
    (res, mk x headers)
  | .eof => (.eof, stored buf)
  | .bad => (.bad, stored buf)

section Head

variable {α β L : Type} {line : List UInt8 → Scan α} (g : LineGrammar line L)
  {mk : α → List PhrHeader → β} {stored : List UInt8 → β} {room : ℕ}

namespace LineGrammar

/-- The text of a head. -/
def headText (h : HeadText L) : List UInt8 := g.text h.line ++ h.headers.text

/-- The headers of a head, at their positions. -/
def headers (h : HeadText L) : List PhrHeader :=
  headersAt (g.text h.line).length h.headers.lines

end LineGrammar

/-- **Heads.** -/
theorem parseHead_eq_done {buf rest : List UInt8} {b : β} :
    parseHead mk stored line room buf = (.done () rest, b) ↔
      ∃ h : HeadText L, h.headers.lines.length ≤ room ∧ buf = g.headText h ++ rest ∧
        b = mk (g.value h.line) (g.headers h) := by
  constructor
  · intro hparse
    rw [parseHead] at hparse
    cases hline : line buf with
    | eof => rw [hline] at hparse; cases hparse
    | bad => rw [hline] at hparse; cases hparse
    | done y s =>
      obtain ⟨l, rfl, rfl⟩ := g.reads.mp hline
      rw [hline] at hparse
      dsimp only at hparse
      obtain ⟨hres, rfl⟩ := Prod.mk.inj hparse
      rw [List.length_append] at hres ⊢
      obtain ⟨lines, last, hnamed, hlen, rfl, hlines⟩ :=
        lines_of_parseHeaders (Nat.zero_le room) (Prod.ext hres rfl)
      refine ⟨⟨l, lines, hnamed rfl, last⟩, by simpa using hlen, ?_, congrArg _ hlines⟩
      rw [LineGrammar.headText, HeadersText.text, List.append_assoc, List.append_assoc]
  · rintro ⟨h, hroom, rfl, rfl⟩
    have hline : line (g.text h.line ++ (h.headers.text ++ rest)) =
        .done (g.value h.line) (h.headers.text ++ rest) := g.reads.mpr ⟨h.line, rfl, rfl⟩
    rw [parseHead, LineGrammar.headText, List.append_assoc, hline]
    dsimp only
    rw [List.length_append, HeadersText.text, List.append_assoc,
      parseHeaders_of_lines h.headers.lines h.headers.last (fun _ => h.headers.named)
        (by simpa using hroom) _ rest (by rw [List.length_append]; omega)]
    rfl

/-- **Incomplete heads.** The parser waits exactly on the proper fronts of heads. -/
theorem parseHead_eq_eof {buf : List UInt8} : (parseHead mk stored line room buf).1 = .eof ↔
    ∃ h : HeadText L, h.headers.lines.length ≤ room ∧
      ∃ t, t ≠ [] ∧ buf ++ t = g.headText h := by
  constructor
  · intro heof
    rw [parseHead] at heof
    cases hline : line buf with
    | bad => rw [hline] at heof; cases heof
    | eof =>
      obtain ⟨t, x, _, ht, rfl⟩ := g.viable buf hline
      obtain ⟨l, htext, -⟩ := g.reads.mp ht
      rw [List.append_nil] at htext
      refine ⟨⟨l, [], nofun, .lf⟩, Nat.zero_le room, t ++ [lf], by simp, ?_⟩
      rw [← List.append_assoc, htext]
      rfl
    | done x s =>
      obtain ⟨l, htext, -⟩ := g.reads.mp hline
      rw [hline] at heof
      obtain ⟨t, lines, last, ht, hnamed, hroom, hst⟩ := viable_parseHeaders (Nat.zero_le room)
        (Nat.lt_succ_self _) (Prod.ext heof rfl)
      refine ⟨⟨l, lines, hnamed rfl, last⟩, by simpa using hroom, t, ht, ?_⟩
      rw [htext, List.append_assoc, hst]
      rfl
  · rintro ⟨h, hroom, t, ht, htext⟩
    have hwhole : parseHead mk stored line room (g.headText h) = (.done () [], _) :=
      (parseHead_eq_done g).mpr ⟨h, hroom, (List.append_nil _).symm, rfl⟩
    rw [← htext, parseHead] at hwhole
    rw [parseHead]
    cases hline : line buf with
    | eof => rfl
    | bad =>
      rw [g.extension buf t (by rw [hline]; exact nofun), hline] at hwhole
      cases hwhole
    | done x s =>
      rw [g.extension.more hline] at hwhole
      dsimp only at hwhole ⊢
      obtain ⟨hres, -⟩ := Prod.mk.inj hwhole
      obtain ⟨front, hfront, -⟩ := parseHeaders_front ht (Prod.ext hres rfl)
        (Nat.lt_succ_self s.length)
      rw [List.length_append, Nat.add_sub_cancel] at hfront
      rw [hfront]

/-- **Refused heads.** The parser refuses exactly where no head begins the buffer, and none
begins with it. -/
theorem parseHead_eq_bad {buf : List UInt8} : (parseHead mk stored line room buf).1 = .bad ↔
    ∀ h : HeadText L, h.headers.lines.length ≤ room →
      ¬ g.headText h <+: buf ∧ ¬ buf <+: g.headText h := by
  constructor
  · intro hbad h hroom
    have hno : ¬ g.headText h <+: buf := by
      rintro ⟨rest, rfl⟩
      rw [(parseHead_eq_done g).mpr ⟨h, hroom, rfl, rfl⟩] at hbad
      cases hbad
    refine ⟨hno, ?_⟩
    rintro ⟨t, ht⟩
    by_cases hnil : t = []
    · rw [hnil, List.append_nil] at ht
      exact hno (ht ▸ List.prefix_rfl)
    · rw [(parseHead_eq_eof g).mpr ⟨h, hroom, t, hnil, ht⟩] at hbad
      cases hbad
  · intro hno
    cases hres : (parseHead mk stored line room buf).1 with
    | bad => rfl
    | eof =>
      obtain ⟨h, hroom, t, -, ht⟩ := (parseHead_eq_eof g).mp hres
      exact absurd ⟨t, ht⟩ (hno h hroom).2
    | done _ rest =>
      obtain ⟨h, hroom, rfl, -⟩ := (parseHead_eq_done g).mp (Prod.ext hres rfl)
      exact absurd (List.prefix_append _ _) (hno h hroom).1

/-- What a parser of heads returns for a buffer of `len` bytes: the number of bytes consumed, in
an `int`, or `-1` or `-2`. -/
def answer (len : ℕ) : Scan Unit → ℤ
  | .done _ rest => toInt (len - rest.length)
  | .eof => -2
  | .bad => -1

/-- **Undecided and refused buffers.** -/
theorem answer_undecided (mk : α → List PhrHeader → β) (stored : List UInt8 → β) (room : ℕ)
    {buf : List UInt8} (hbuf : buf.length < 2 ^ 31) :
    (answer buf.length (parseHead mk stored line room buf).1 = -2 ↔ ∃ h : HeadText L,
      h.headers.lines.length ≤ room ∧ ∃ t, t ≠ [] ∧ buf ++ t = g.headText h) ∧
    (answer buf.length (parseHead mk stored line room buf).1 = -1 ↔ ∀ h : HeadText L,
      h.headers.lines.length ≤ room → ¬ g.headText h <+: buf ∧ ¬ buf <+: g.headText h) := by
  have heof : (parseHead mk stored line room buf).1 = .eof ↔ _ := parseHead_eq_eof g
  have hbad : (parseHead mk stored line room buf).1 = .bad ↔ _ := parseHead_eq_bad g
  rw [← heof, ← hbad]
  cases hres : (parseHead mk stored line room buf).1 with
  | eof => exact ⟨iff_of_true rfl rfl, iff_of_false (by rw [answer]; decide) nofun⟩
  | bad => exact ⟨iff_of_false (by rw [answer]; decide) nofun, iff_of_true rfl rfl⟩
  | done _ rest =>
    obtain ⟨h, -, hsplit, -⟩ := (parseHead_eq_done g).mp (Prod.ext hres rfl)
    have hlen := congrArg List.length hsplit
    rw [List.length_append] at hlen
    have hint : toInt (buf.length - rest.length) = buf.length - rest.length := toInt_eq (by omega)
    constructor <;> refine iff_of_false ?_ nofun <;> rw [answer, hint] <;> omega

end Head

end Yotta.Picohttp
