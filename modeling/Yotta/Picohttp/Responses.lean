import Yotta.Picohttp.Requests

/-!
# `phr_parse_response` and `phr_parse_headers`

Model of the other two parsers of heads (`picohttpparser/picohttpparser.c`, lines 395–471).

Results:
* `phrParseResponse_eq_count`: a call accepts exactly the buffers that begin with a response,
  and answers with its length and its parts.
* `phrParseResponse_undecided`: the first call waits exactly on the proper fronts of responses.
* `phrParseHeaders_eq_count`: the same for headers without a line in front of them.
* `phrParseHeaders_again`: a later call reads headers as the first one does, but for an empty
  block of headers, which it does not find complete as long as nothing is behind it.
-/

namespace Yotta.Picohttp

open Yotta.Bytes Yotta.Numeral Yotta.Scan

/-! ## Responses -/

/-- `*buf++ != ' '` (lines 401–404 and 410–413). It has no `CHECK_EOF` in front: `parse_int`
stops at a byte. -/
def skipSpace : List UInt8 → Scan Unit := expectChar space

/-- A status line: minor version, status and message (lines 399–417). -/
def statusLine (s : List UInt8) : Scan (ℤ × ℤ × List UInt8) :=
  (parseHttpVersion s).bind fun minorVersion s =>
  (skipSpace s).bind fun _ s =>
  (parseInt s).bind fun status s =>
  (skipSpace s).bind fun _ s =>
  (getTokenToEol s).map fun msg => (minorVersion, status, msg)

/-- The output parameters of `phr_parse_response`. -/
structure Response where
  minorVersion : ℤ
  status : ℤ
  msg : Option (List UInt8)
  headers : List PhrHeader
deriving DecidableEq

/-- What `phr_parse_response` sets before it parses (lines 430–434). -/
def Response.empty : Response := { minorVersion := -1, status := 0, msg := none, headers := [] }

/-- The output parameters behind a status line that is not read to its end: both `parse_int`s
store what they have read. -/
def storedStatus (s : List UInt8) : Response :=
  match parseHttpVersion s with
  | .done minorVersion s =>
    match (skipSpace s).bind fun _ s => parseInt s with
    | .done status _ => { Response.empty with minorVersion, status }
    | _ => { Response.empty with minorVersion }
  | _ => .empty

/-- `parse_response` (lines 395–420). -/
def parseResponse (maxHeaders : ℕ) (buf : List UInt8) : Scan Unit × Response :=
  match statusLine buf with
  | .done (minorVersion, status, msg) s =>
    let (res, headers) := parseHeaders maxHeaders buf.length (s.length + 1) [] s
    (res, { minorVersion, status, msg := some msg, headers })
  | .eof => (.eof, storedStatus buf)
  | .bad => (.bad, storedStatus buf)

/-- `phr_parse_response` (lines 422–448) with `*num_headers = numHeaders` on entry. -/
def phrParseResponse (buf : List UInt8) (numHeaders lastLen : ℕ) : ℤ × Response :=
  let maxHeaders := numHeaders
  match if lastLen ≠ 0 then isComplete buf lastLen else .done () buf with
  | .eof => (-2, .empty)
  | .bad => (-1, .empty)
  | .done _ _ =>
    let (res, response) := parseResponse maxHeaders buf
    (answer buf.length res, response)

/-- `phr_parse_headers` (lines 450–471) with `*num_headers = numHeaders` on entry: the number of
bytes consumed, `-1` or `-2`, and the headers. -/
def phrParseHeaders (buf : List UInt8) (numHeaders lastLen : ℕ) : ℤ × List PhrHeader :=
  let maxHeaders := numHeaders
  match if lastLen ≠ 0 then isComplete buf lastLen else .done () buf with
  | .eof => (-2, [])
  | .bad => (-1, [])
  | .done _ _ =>
    let (res, headers) := parseHeaders maxHeaders buf.length (buf.length + 1) [] buf
    (answer buf.length res, headers)

/-! ## The status line -/

/-- A status line. -/
structure StatusLineText where
  minorVersion : Digits
  status : Digits
  msg : Text isValueByte
  newline : Newline

def StatusLineText.text (line : StatusLineText) : List UInt8 :=
  ascii "HTTP/1." ++ (line.minorVersion.text.1 ++ space :: (line.status.text.1 ++ space ::
    (line.msg.1 ++ line.newline.text)))

theorem skipSpace_eq_done {s rest : List UInt8} :
    skipSpace s = .done () rest ↔ s = space :: rest := by
  cases s with
  | nil => exact iff_of_false (by simp [skipSpace, expectChar]) (by simp)
  | cons c s =>
    rw [skipSpace, expectChar]
    split_ifs with hc
    · rw [hc, List.cons_inj_right]
      simp
    · exact iff_of_false (by simp) fun h => hc (List.cons.inj h).1

/-- **A status line.** -/
theorem statusLine_eq_done {s rest : List UInt8} {x : ℤ × ℤ × List UInt8} :
    statusLine s = .done x rest ↔ ∃ line : StatusLineText, s = line.text ++ rest ∧
      x = (line.minorVersion.value, line.status.value, line.msg.1) := by
  constructor
  · intro h
    obtain ⟨_, _, hversion, h⟩ := bind_eq_done.mp h
    obtain ⟨_, _, hspace, h⟩ := bind_eq_done.mp h
    obtain ⟨_, _, hstatus, h⟩ := bind_eq_done.mp h
    obtain ⟨_, _, hspace', h⟩ := bind_eq_done.mp h
    obtain ⟨msg, hmsg, rfl⟩ := map_eq_done.mp h
    obtain ⟨minorVersion, rfl, rfl, -⟩ := parseHttpVersion_eq_done.mp hversion
    obtain rfl := skipSpace_eq_done.mp hspace
    obtain ⟨status, rfl, rfl, -⟩ := parseInt_eq_done.mp hstatus
    obtain rfl := skipSpace_eq_done.mp hspace'
    obtain ⟨hlegal, nl, rfl⟩ := getTokenToEol_eq_done.mp hmsg
    exact ⟨⟨minorVersion, status, ⟨msg, hlegal⟩, nl⟩, by simp [StatusLineText.text], rfl⟩
  · rintro ⟨⟨minorVersion, status, msg, nl⟩, rfl, rfl⟩
    have hend : ∀ t, ∃ c ∈ (space :: t).head?, isDigit c = false := fun t => ⟨space, rfl, rfl⟩
    simp only [StatusLineText.text, List.append_assoc, List.cons_append]
    rw [statusLine, parseHttpVersion_eq_done.mpr ⟨minorVersion, rfl, rfl, hend _⟩, bind_done,
      skipSpace_eq_done.mpr rfl, bind_done, parseInt_eq_done.mpr ⟨status, rfl, rfl, hend _⟩,
      bind_done, skipSpace_eq_done.mpr rfl, bind_done,
      getTokenToEol_eq_done.mpr ⟨msg.2, nl, rfl⟩]
    rfl

theorem extends_statusLine : Extends statusLine :=
  extends_parseHttpVersion.bind fun _ =>
  (extends_expectChar space).bind fun _ =>
  extends_parseInt.bind fun _ =>
  (extends_expectChar space).bind fun _ =>
  extends_getTokenToEol.map _

theorem viable_skipSpace : Viable (· = []) skipSpace := by
  intro s h
  cases s with
  | nil => exact ⟨[space], (), [], rfl, rfl⟩
  | cons c s =>
    rw [skipSpace, expectChar] at h
    split_ifs at h

theorem viable_statusLine : Viable (· = []) statusLine := by
  have hmsg (minorVersion status : ℤ) : Viable (· = []) fun s =>
      (skipSpace s).bind fun _ s =>
        (getTokenToEol s).map fun msg => (minorVersion, status, msg) := by
    refine viable_skipSpace.bind (extends_expectChar space)
      (fun _ => viable_getTokenToEol.map _) ?_
    rintro _ _ rfl
    rfl
  have hstatus (minorVersion : ℤ) : Viable (· = []) fun s =>
      (skipSpace s).bind fun _ s => (parseInt s).bind fun status s =>
        (skipSpace s).bind fun _ s =>
          (getTokenToEol s).map fun msg => (minorVersion, status, msg) := by
    refine viable_skipSpace.bind (extends_expectChar space)
      (fun _ => (viable_parseInt (c := space) rfl).bind extends_parseInt (hmsg minorVersion) ?_) ?_
    · rintro _ _ rfl
      rfl
    · rintro _ _ rfl
      rfl
  refine (viable_parseHttpVersion (c := space) rfl).bind extends_parseHttpVersion hstatus ?_
  rintro _ _ rfl
  rfl

/-- The grammar of status lines. -/
def statusLines : LineGrammar statusLine StatusLineText where
  text := StatusLineText.text
  value line := (line.minorVersion.value, line.status.value, line.msg.1)
  reads := statusLine_eq_done
  extension := extends_statusLine
  viable := viable_statusLine

/-- A response. -/
abbrev ResponseText := HeadText StatusLineText

/-- The output parameters of a status line and headers. -/
def responseOf (x : ℤ × ℤ × List UInt8) (headers : List PhrHeader) : Response where
  minorVersion := x.1
  status := x.2.1
  msg := some x.2.2
  headers := headers

/-- The parts of a response. -/
def ResponseText.response (r : ResponseText) : Response where
  minorVersion := r.line.minorVersion.value
  status := r.line.status.value
  msg := some r.line.msg.1
  headers := statusLines.headers r

theorem parseResponse_eq_head (room : ℕ) (buf : List UInt8) :
    parseResponse room buf = parseHead responseOf storedStatus statusLine room buf := by
  rw [parseResponse, parseHead]
  rcases statusLine buf with ⟨⟨_, _, _⟩, _⟩ | _ | _ <;> rfl

/-- **Responses**, as the parser reads them. -/
theorem parseResponse_eq_done {room : ℕ} {buf rest : List UInt8} {response : Response} :
    parseResponse room buf = (.done () rest, response) ↔
      ∃ r : ResponseText, r.headers.lines.length ≤ room ∧ buf = statusLines.headText r ++ rest ∧
        response = r.response := by
  rw [parseResponse_eq_head]
  exact parseHead_eq_done statusLines

/-! ## Complete heads -/

theorem Newline.isNewline (nl : Newline) : IsNewline nl.text := by
  cases nl
  · exact Or.inl rfl
  · exact Or.inr rfl

/-- The end of a head is found from wherever the call before leaves off. -/
theorem isComplete_of_from {q : List UInt8} {lastLen : ℕ} (h : isCompleteFrom 0 q = .done () [])
    (hlast : lastLen < q.length) (y : List UInt8) : isComplete (q ++ y) lastLen = .done () y := by
  refine isComplete_append ?_ hlast.le y
  rw [isComplete]
  split_ifs
  · exact h
  · exact isCompleteFrom_drop h (by omega)

theorem isCompleteFrom_headers (h : HeadersText) : isCompleteFrom 1 h.text = .done () [] := by
  have hparse := parseHeaders_of_lines h.lines h.last (fun _ => h.named)
    (le_refl ([].length + h.lines.length)) 0 [] (Nat.lt_succ_self _)
  rw [List.append_nil] at hparse
  exact isCompleteFrom_of_parseHeaders hparse

theorem StatusLineText.isTextLine (line : StatusLineText) : IsTextLine line.text := by
  have hdigits (digits : Digits) : Clean digits.text.1 := fun c hc => by
    have := digits.text.2 c hc
    constructor <;> rintro rfl <;> exact absurd this (by decide)
  have hmsg : Clean line.msg.1 := fun c hc => by
    have := line.msg.2 c hc
    constructor <;> rintro rfl <;> exact absurd this (by decide)
  have hsplit : line.text = (ascii "HTTP/1." ++ (line.minorVersion.text.1 ++
      space :: line.status.text.1)) ++ space :: (line.msg.1 ++ line.newline.text) := by
    simp [StatusLineText.text]
  rw [hsplit]
  refine isTextLine_append (clean_append clean_httpVersion (clean_append (hdigits _)
    (clean_cons (by decide) (by decide) (hdigits _)))) ?_
  exact ⟨space, _, rfl, by decide, by decide, isLine_append hmsg line.newline.isNewline.isLine⟩

theorem ResponseText.complete (r : ResponseText) {lastLen : ℕ}
    (hlast : lastLen < (statusLines.headText r).length) (y : List UInt8) :
    isComplete (statusLines.headText r ++ y) lastLen = .done () y := by
  refine isComplete_of_from ?_ hlast y
  change isCompleteFrom 0 (r.line.text ++ r.headers.text) = .done () []
  rw [isCompleteFrom_textLine r.line.isTextLine, isCompleteFrom_headers]

/-- A number of bytes is what is in front of the rest. -/
theorem done_of_answer {len k : ℕ} {res : Scan Unit} (h : answer len res = k) :
    ∃ rest, res = .done () rest ∧ k = toInt (len - rest.length) := by
  cases res with
  | done _ rest => exact ⟨rest, rfl, h.symm⟩
  | eof =>
    rw [answer] at h
    omega
  | bad =>
    rw [answer] at h
    omega

/-- A call on a response with other bytes behind it. -/
theorem phrParseResponse_of_text {room lastLen : ℕ} {r : ResponseText} {text : List UInt8}
    (hroom : r.headers.lines.length ≤ room) (htext : statusLines.headText r = text)
    (hlen : text.length < 2 ^ 31) (hlast : lastLen < text.length) (y : List UInt8) :
    phrParseResponse (text ++ y) room lastLen = ((text.length : ℤ), r.response) := by
  subst htext
  have hcomplete : ∃ rest, (if lastLen ≠ 0 then isComplete (statusLines.headText r ++ y) lastLen
      else .done () (statusLines.headText r ++ y)) = .done () rest := by
    split_ifs
    · exact ⟨y, r.complete hlast y⟩
    · exact ⟨_, rfl⟩
  obtain ⟨_, hcomplete⟩ := hcomplete
  rw [phrParseResponse, hcomplete, parseResponse_eq_done.mpr ⟨r, hroom, rfl, rfl⟩]
  simpa [answer] using toInt_natCast.mpr hlen

/-- **Responses.** A call that knows `lastLen` bytes of the buffer from the call before accepts
more bytes than these exactly where a response, with no more headers than there is room for,
begins the buffer; and it answers with the length and the parts of this response. -/
theorem phrParseResponse_eq_count {room lastLen k : ℕ} {buf : List UInt8} {response : Response}
    (hbuf : buf.length < 2 ^ 31) (hlast : lastLen < k) : phrParseResponse buf room lastLen = ((k : ℤ), response) ↔
      ∃ r : ResponseText, r.headers.lines.length ≤ room ∧ statusLines.headText r <+: buf ∧
        (statusLines.headText r).length = k ∧ r.response = response := by
  constructor
  · intro h
    rw [phrParseResponse] at h
    dsimp only at h
    split at h
    · obtain ⟨hk, -⟩ := Prod.mk.inj h
      omega
    · obtain ⟨hk, -⟩ := Prod.mk.inj h
      omega
    · obtain ⟨hk, hresponse⟩ := Prod.mk.inj h
      obtain ⟨rest, hres, hlen⟩ := done_of_answer hk
      obtain ⟨r, hroom, rfl, rfl⟩ := parseResponse_eq_done.mp (Prod.ext hres hresponse)
      rw [List.length_append] at hbuf hlen
      rw [toInt_eq (by omega)] at hlen
      exact ⟨r, hroom, List.prefix_append _ _, by omega, rfl⟩
  · rintro ⟨r, hroom, ⟨y, rfl⟩, rfl, rfl⟩
    rw [List.length_append] at hbuf
    exact phrParseResponse_of_text hroom rfl (by omega) hlast y

/-- A response whose body is not read, of which three bytes were there before. -/
theorem phrParseResponse_eq_count_ok : ∃ r : ResponseText, r.headers.lines.length ≤ 4 ∧
    statusLines.headText r <+: ascii "HTTP/1.0 200 OK\n\nbody" ∧
      (statusLines.headText r).length = 17 ∧ r.response =
        { minorVersion := 0, status := 200, msg := some (ascii "OK"), headers := [] } :=
  (phrParseResponse_eq_count (by decide) (by decide : 3 < 17)).mp (by decide +kernel)

/-- **Undecided and refused buffers.** The first call waits for more exactly on the proper
fronts of the responses that there is room for, and it refuses exactly the buffers that neither
begin with such a response nor are the front of one. -/
theorem phrParseResponse_undecided (room : ℕ) {buf : List UInt8} (hbuf : buf.length < 2 ^ 31) :
    ((phrParseResponse buf room 0).1 = -2 ↔ ∃ r : ResponseText,
      r.headers.lines.length ≤ room ∧ ∃ t, t ≠ [] ∧ buf ++ t = statusLines.headText r) ∧
    ((phrParseResponse buf room 0).1 = -1 ↔ ∀ r : ResponseText,
      r.headers.lines.length ≤ room →
        ¬ statusLines.headText r <+: buf ∧ ¬ buf <+: statusLines.headText r) := by
  have hanswer : (phrParseResponse buf room 0).1 =
      answer buf.length (parseResponse room buf).1 := by
    rw [phrParseResponse, if_neg (not_not.mpr rfl)]
  rw [hanswer, parseResponse_eq_head]
  exact answer_undecided statusLines responseOf storedStatus room hbuf

/-- A status that is no number, and the front of a response. -/
theorem phrParseResponse_undecided_status :
    (∀ r : ResponseText, r.headers.lines.length ≤ 4 →
      ¬ statusLines.headText r <+: ascii "HTTP/1.1 OK\n\n" ∧
        ¬ ascii "HTTP/1.1 OK\n\n" <+: statusLines.headText r) ∧
    ∃ r : ResponseText, r.headers.lines.length ≤ 4 ∧
      ∃ t, t ≠ [] ∧ ascii "HTTP/1.1 200 OK\nA: b" ++ t = statusLines.headText r :=
  ⟨(phrParseResponse_undecided 4 (by decide)).2.mp (by decide +kernel),
    (phrParseResponse_undecided 4 (by decide)).1.mp (by decide +kernel)⟩

/-! ## Headers -/

/-- The grammar of no line. -/
def noLines : LineGrammar (fun s => .done () s) Unit where
  text _ := []
  value _ := ()
  reads := by simp
  extension := fun _ _ _ => rfl
  viable := nofun

theorem parseHeaders_eq_head (room : ℕ) (buf : List UInt8) :
    parseHeaders room buf.length (buf.length + 1) [] buf =
      parseHead (fun _ headers => headers) (fun _ => []) (fun s => .done () s) room buf := rfl

/-- Headers, from the start of a buffer. -/
theorem parseHeaders_eq_done {room : ℕ} {buf rest : List UInt8} {headers : List PhrHeader} :
    parseHeaders room buf.length (buf.length + 1) [] buf = (.done () rest, headers) ↔
      ∃ h : HeadersText, h.lines.length ≤ room ∧ buf = h.text ++ rest ∧
        headers = headersAt 0 h.lines := by
  rw [parseHeaders_eq_head, parseHead_eq_done noLines]
  constructor
  · rintro ⟨⟨_, h⟩, hroom, hbuf, hheaders⟩
    exact ⟨h, hroom, hbuf, hheaders⟩
  · rintro ⟨h, hroom, hbuf, hheaders⟩
    exact ⟨⟨(), h⟩, hroom, hbuf, hheaders⟩

theorem phrParseHeaders_of_complete {room lastLen : ℕ} {h : HeadersText} {y rest : List UInt8}
    (hroom : h.lines.length ≤ room) (hlen : h.text.length < 2 ^ 31)
    (hcomplete : (if lastLen ≠ 0 then isComplete (h.text ++ y) lastLen
      else .done () (h.text ++ y)) = .done () rest) :
    phrParseHeaders (h.text ++ y) room lastLen = ((h.text.length : ℤ), headersAt 0 h.lines) := by
  rw [phrParseHeaders, hcomplete]
  dsimp only
  rw [parseHeaders_eq_done.mpr ⟨h, hroom, rfl, rfl⟩]
  simpa [answer] using toInt_natCast.mpr hlen

/-- **Headers.** The first call accepts exactly the buffers that begin with headers, no more of
them than there is room for, and answers with their length and with them. -/
theorem phrParseHeaders_eq_count {room k : ℕ} {buf : List UInt8} {headers : List PhrHeader}
    (hbuf : buf.length < 2 ^ 31) : phrParseHeaders buf room 0 = ((k : ℤ), headers) ↔
      ∃ h : HeadersText, h.lines.length ≤ room ∧ h.text <+: buf ∧ h.text.length = k ∧
        headersAt 0 h.lines = headers := by
  constructor
  · intro h
    rw [phrParseHeaders, if_neg (not_not.mpr rfl)] at h
    dsimp only at h
    rcases hparse : parseHeaders room buf.length (buf.length + 1) [] buf with ⟨res, headers'⟩
    rw [hparse] at h
    obtain ⟨hk, rfl⟩ := Prod.mk.inj h
    obtain ⟨rest, rfl, hlen⟩ := done_of_answer hk
    clear h
    obtain ⟨h, hroom, rfl, rfl⟩ := parseHeaders_eq_done.mp hparse
    rw [List.length_append] at hbuf hlen
    rw [toInt_eq (by omega)] at hlen
    exact ⟨h, hroom, List.prefix_append _ _, by omega, rfl⟩
  · rintro ⟨h, hroom, ⟨y, rfl⟩, rfl, rfl⟩
    rw [List.length_append] at hbuf
    exact phrParseHeaders_of_complete hroom (by omega) (if_neg (not_not.mpr rfl))

/-- Two headers, the second one of them a continuation, and a byte behind them. -/
theorem phrParseHeaders_eq_count_folded : ∃ h : HeadersText, h.lines.length ≤ 4 ∧
    h.text <+: ascii "A: b\n c\n\nx" ∧ h.text.length = 9 ∧
      headersAt 0 h.lines = [⟨some (ascii "A"), ascii "b", 3⟩, ⟨none, ascii " c", 5⟩] :=
  (phrParseHeaders_eq_count (by decide)).mp (by decide +kernel)

theorem HeaderText.isTextLine (line : HeaderText) : IsTextLine line.text := by
  obtain ⟨c, t, htext, hbyte⟩ := line.exists_cons
  have hline : headerLine 0 false (c :: t) = .done (line.header 0) [] :=
    headerLine_eq_done.mpr ⟨line, nofun, by rw [htext, List.append_nil], rfl⟩
  have hend : c ≠ cr ∧ c ≠ lf := by
    rcases hbyte with ⟨-, htoken⟩ | ⟨-, hblank⟩
    · constructor <;> rintro rfl <;> exact absurd (isNameByte_of_token htoken).1 (by decide)
    · constructor <;> rintro rfl <;> exact absurd hblank (by decide)
  obtain ⟨p, hp, hline⟩ := line_of_headerLine hend.1 hend.2 hline
  rw [List.append_nil] at hp
  rw [htext, hp]
  exact hline

/-- **Later calls.** Headers of which `lastLen` bytes were there at the call before are accepted
as by a first call. An empty block of headers of which only the first byte was there is not, as
long as nothing is behind it: `is_complete` waits for a second line end. -/
theorem phrParseHeaders_again {room lastLen : ℕ} {h : HeadersText}
    (hroom : h.lines.length ≤ room) (hlen : h.text.length < 2 ^ 31) (h0 : lastLen ≠ 0) (hlast : lastLen < h.text.length) :
    (h.lines ≠ [] → ∀ y, phrParseHeaders (h.text ++ y) room lastLen =
      ((h.text.length : ℤ), headersAt 0 h.lines)) ∧
    (h.lines = [] → phrParseHeaders h.text room lastLen = (-2, [])) := by
  constructor
  · intro hne y
    have hfrom : isCompleteFrom 0 h.text = .done () [] := by
      obtain ⟨line, lines, hlines⟩ := List.exists_cons_of_ne_nil hne
      have hone := isCompleteFrom_headers h
      rw [HeadersText.text, hlines, List.flatMap_cons, List.append_assoc,
        isCompleteFrom_textLine line.isTextLine] at hone ⊢
      exact hone
    have hcomplete : (if lastLen ≠ 0 then isComplete (h.text ++ y) lastLen
        else .done () (h.text ++ y)) = .done () y := by
      rw [if_pos h0, isComplete_of_from hfrom hlast]
    exact phrParseHeaders_of_complete hroom hlen hcomplete
  · intro hnil
    have htext : h.text = h.last.text := by
      rw [HeadersText.text, hnil, List.flatMap_nil, List.nil_append]
    rw [htext] at hlast ⊢
    cases hlf : h.last with
    | lf =>
      rw [hlf] at hlast
      exact absurd (Nat.lt_one_iff.mp hlast) h0
    | crlf =>
      rw [hlf] at hlast
      have hlt : lastLen < 2 := hlast
      obtain rfl : lastLen = 1 := by omega
      have hwait : isComplete Newline.crlf.text 1 = .eof := rfl
      rw [phrParseHeaders, if_pos Nat.one_ne_zero, hwait]

/-- A header `Host: x` and the empty line. -/
def hostHeaders : HeadersText where
  lines := [.field ⟨72, ⟨ascii "ost", by decide +kernel⟩, by decide +kernel⟩
    ⟨[space], by decide +kernel⟩ ⟨ascii "x", by decide +kernel⟩ (by decide +kernel) .crlf]
  named := by
    rintro line hline
    obtain rfl := Option.some.inj hline
    trivial
  last := .crlf

/-- A header that arrives in two pieces, with a byte behind it, and the empty block of headers,
one byte at a time. -/
theorem phrParseHeaders_again_host :
    phrParseHeaders (hostHeaders.text ++ ascii "!") 4 5 = (11, headersAt 0 hostHeaders.lines) ∧
    headersAt 0 hostHeaders.lines = [⟨some (ascii "Host"), ascii "x", 6⟩] ∧
    phrParseHeaders [cr, lf] 4 1 = (-2, []) :=
  ⟨(phrParseHeaders_again (h := hostHeaders) (by decide) (by decide +kernel) (by decide)
      (by decide +kernel)).1 (List.cons_ne_nil _ _) (ascii "!"), by decide +kernel,
    (phrParseHeaders_again (h := ⟨[], nofun, .crlf⟩) (Nat.zero_le 4) (by decide) Nat.one_ne_zero
      (by decide)).2 rfl⟩

end Yotta.Picohttp
