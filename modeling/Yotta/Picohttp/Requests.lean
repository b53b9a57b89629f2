import Yotta.Picohttp.Grammar

/-!
# What `phr_parse_request` accepts

Results:
* `phrParseRequest_eq_count`: a call accepts exactly the buffers that begin with a request, and
  answers with its length and its parts.
* `phrParseRequest_undecided`: the first call answers `-2` exactly on the proper fronts of
  requests, and `-1` exactly on the other buffers that do not begin with one.
-/

namespace Yotta.Picohttp

open Yotta.Bytes Yotta.Numeral Yotta.Scan

/-- A request line, with the line end that may stand in front of it. -/
structure RequestLineText where
  leading : Option Newline
  method : Text isTokenByte
  path : Text isTokenByte
  minorVersion : Digits
  newline : Newline

def RequestLineText.text (line : RequestLineText) : List UInt8 :=
  (line.leading.map (·.text)).getD [] ++ (line.method.1 ++ space :: (line.path.1 ++ space ::
    (ascii "HTTP/1." ++ (line.minorVersion.text.1 ++ line.newline.text))))

/-! ## The request line -/

theorem endOfLine_eq_done {s rest : List UInt8} :
    endOfLine s = .done () rest ↔ ∃ nl : Newline, s = nl.text ++ rest := by
  cases s with
  | nil =>
    refine iff_of_false nofun ?_
    rintro ⟨nl, h⟩
    cases nl <;> cases h
  | cons c s => exact newline_eq_done

theorem skipEmptyLine_eq_done {s rest : List UInt8} :
    skipEmptyLine s = .done () rest ↔ (∃ nl : Newline, s = nl.text ++ rest) ∨
      s = rest ∧ ∃ c ∈ rest.head?, c ≠ cr ∧ c ≠ lf := by
  cases s with
  | nil =>
    refine iff_of_false nofun ?_
    rintro (⟨nl, h⟩ | ⟨rfl, c, hc, -⟩)
    · cases nl <;> cases h
    · cases hc
  | cons c s =>
    rw [skipEmptyLine]
    split_ifs with hc
    · rw [newline_eq_done]
      refine (or_iff_left ?_).symm
      rintro ⟨rfl, d, hd, h1, h2⟩
      obtain rfl : c = d := by simpa using hd
      simp [h1, h2] at hc
    · have hother : c ≠ cr ∧ c ≠ lf := by simpa using hc
      rw [or_iff_right]
      · constructor
        · intro h
          cases h
          exact ⟨rfl, c, rfl, hother⟩
        · rintro ⟨rfl, -⟩
          rfl
      · rintro ⟨nl, h⟩
        obtain ⟨d, t, hnl, hd⟩ := nl.exists_cons
        rw [hnl] at h
        obtain ⟨rfl, -⟩ := List.cons.inj h
        exact hd.elim hother.1 hother.2

theorem Newline.not_digit (nl : Newline) (rest : List UInt8) :
    ∃ c ∈ (nl.text ++ rest).head?, isDigit c = false := by
  cases nl with
  | lf => exact ⟨Bytes.lf, rfl, rfl⟩
  | crlf => exact ⟨cr, rfl, rfl⟩

/-- **A request line.** -/
theorem requestLine_eq_done {s rest : List UInt8} {x : List UInt8 × List UInt8 × ℤ} :
    requestLine s = .done x rest ↔ ∃ line : RequestLineText, s = line.text ++ rest ∧
      x = (line.method.1, line.path.1, line.minorVersion.value) := by
  constructor
  · intro h
    obtain ⟨_, u, hskip, h⟩ := bind_eq_done.mp h
    obtain ⟨method, _, hmethod, h⟩ := bind_eq_done.mp h
    obtain ⟨path, _, hpath, h⟩ := bind_eq_done.mp h
    obtain ⟨_, w, hversion, h⟩ := bind_eq_done.mp h
    obtain ⟨_, hend, rfl⟩ := map_eq_done.mp h
    obtain ⟨hm, _, rfl, rfl⟩ := advanceToken_eq_done.mp hmethod
    obtain ⟨hp, _, rfl, rfl⟩ := advanceToken_eq_done.mp hpath
    obtain ⟨digits, rfl, rfl, -⟩ := parseHttpVersion_eq_done.mp hversion
    obtain ⟨nl, rfl⟩ := endOfLine_eq_done.mp hend
    rcases skipEmptyLine_eq_done.mp hskip with ⟨leading, rfl⟩ | ⟨rfl, -⟩
    · exact ⟨⟨some leading, ⟨method, hm⟩, ⟨path, hp⟩, digits, nl⟩,
        by simp [RequestLineText.text], rfl⟩
    · exact ⟨⟨none, ⟨method, hm⟩, ⟨path, hp⟩, digits, nl⟩, by simp [RequestLineText.text], rfl⟩
  · rintro ⟨⟨leading, method, path, digits, nl⟩, rfl, rfl⟩
    have hskip : ∀ t, skipEmptyLine ((leading.map (·.text)).getD [] ++ (method.1 ++ space :: t)) =
        .done () (method.1 ++ space :: t) := by
      intro t
      refine skipEmptyLine_eq_done.mpr ?_
      cases leading with
      | some leading => exact Or.inl ⟨leading, rfl⟩
      | none =>
        refine Or.inr ⟨rfl, ?_⟩
        cases hm : method.1 with
        | nil => exact ⟨space, rfl, by decide, by decide⟩
        | cons c m =>
          have hc : isTokenByte c := method.2 c (by rw [hm]; exact List.mem_cons_self)
          refine ⟨c, rfl, ?_, ?_⟩ <;> rintro rfl <;> exact absurd hc (by decide)
    simp only [RequestLineText.text, List.append_assoc, List.cons_append]
    rw [requestLine, hskip, bind_done, advanceToken_eq_done.mpr ⟨method.2, _, rfl, rfl⟩, bind_done,
      List.drop_one, List.tail_cons, advanceToken_eq_done.mpr ⟨path.2, _, rfl, rfl⟩, bind_done,
      List.drop_one, List.tail_cons,
      parseHttpVersion_eq_done.mpr ⟨digits, rfl, rfl, nl.not_digit rest⟩, bind_done,
      endOfLine_eq_done.mpr ⟨nl, rfl⟩]
    rfl

theorem viable_endOfLine : Viable (· = []) endOfLine := by
  intro s h
  cases s with
  | nil => exact ⟨[lf], (), [], rfl, rfl⟩
  | cons c s => exact viable_newline c s h

theorem viable_skipEmptyLine : Viable (· = []) skipEmptyLine := by
  intro s h
  cases s with
  | nil => exact ⟨[lf], (), [], rfl, rfl⟩
  | cons c s =>
    rw [skipEmptyLine] at h
    split_ifs at h with hc
    obtain ⟨t, _, rest, ht, hrest⟩ := viable_newline c s h
    exact ⟨t, (), rest, by rw [List.cons_append, skipEmptyLine, if_pos hc, ht], hrest⟩

theorem viable_advanceToken : Viable (· = [space]) advanceToken := by
  rw [funext advanceToken_eq_span]
  refine span_viable ⟨space, [], [space], rfl, rfl, rfl⟩ fun c _ s h => ?_
  rw [atSpace] at h
  split_ifs at h

theorem viable_behind {α : Type} {Q : List UInt8 → Prop} {f : List UInt8 → Scan α}
    (hf : Viable Q f) (h0 : f [] = .eof) : Viable Q fun s => f (s.drop 1) := by
  intro s h
  cases s with
  | nil =>
    obtain ⟨t, a, rest, ht, hQ⟩ := hf [] h0
    exact ⟨space :: t, a, rest, ht, hQ⟩
  | cons c s => exact hf s h

/-- A request line that is not complete can be completed. -/
theorem viable_requestLine : Viable (· = []) requestLine := by
  have hversion (method path : List UInt8) : Viable (· = []) fun s =>
      (parseHttpVersion (s.drop 1)).bind fun minorVersion s =>
        (endOfLine s).map fun _ => (method, path, minorVersion) := by
    refine (viable_behind (viable_parseHttpVersion (c := cr) rfl) rfl).bind
      (extends_behind extends_parseHttpVersion rfl) (fun _ => viable_endOfLine.map _) ?_
    rintro _ _ rfl
    rfl
  have hpath (method : List UInt8) : Viable (· = []) fun s =>
      (advanceToken (s.drop 1)).bind fun path s =>
        (parseHttpVersion (s.drop 1)).bind fun minorVersion s =>
          (endOfLine s).map fun _ => (method, path, minorVersion) := by
    refine (viable_behind viable_advanceToken rfl).bind (extends_behind extends_advanceToken rfl)
      (hversion method) ?_
    rintro _ _ rfl
    rfl
  refine viable_skipEmptyLine.bind extends_skipEmptyLine (fun _ =>
    viable_advanceToken.bind extends_advanceToken hpath ?_) ?_
  · rintro _ _ rfl
    rfl
  · rintro _ _ rfl
    rfl

/-! ## Requests -/

/-- The grammar of request lines. -/
def requestLines : LineGrammar requestLine RequestLineText where
  text := RequestLineText.text
  value line := (line.method.1, line.path.1, line.minorVersion.value)
  reads := requestLine_eq_done
  extension := extends_requestLine
  viable := viable_requestLine

/-- A request. -/
abbrev RequestText := HeadText RequestLineText

/-- The parts of a request. -/
def RequestText.request (r : RequestText) : Request where
  method := some r.line.method.1
  path := some r.line.path.1
  minorVersion := r.line.minorVersion.value
  headers := requestLines.headers r

/-- The output parameters of a request line and headers. -/
def requestOf (x : List UInt8 × List UInt8 × ℤ) (headers : List PhrHeader) : Request where
  method := some x.1
  path := some x.2.1
  minorVersion := x.2.2
  headers := headers

theorem parseRequest_eq_head (room : ℕ) (buf : List UInt8) :
    parseRequest room buf = parseHead requestOf (stored advanceToken) requestLine room buf := by
  rw [parseRequest, parseHead]
  rcases requestLine buf with ⟨⟨_, _, _⟩, _⟩ | _ | _ <;> rfl

/-- **Requests**, as the parser reads them. -/
theorem parseRequest_eq_done {room : ℕ} {buf rest : List UInt8} {request : Request} :
    parseRequest room buf = (.done () rest, request) ↔
      ∃ r : RequestText, r.headers.lines.length ≤ room ∧ buf = requestLines.headText r ++ rest ∧
        request = r.request := by
  rw [parseRequest_eq_head]
  exact parseHead_eq_done requestLines

theorem accepts_text {room : ℕ} {r : RequestText} (hroom : r.headers.lines.length ≤ room)
    (hlen : (requestLines.headText r).length < 2 ^ 31) :
    Accepts room (requestLines.headText r) r.request :=
  accepts_iff.mpr ⟨parseRequest_eq_done.mpr ⟨r, hroom, (List.append_nil _).symm, rfl⟩, hlen⟩

theorem length_headersAt (pos : ℕ) (lines : List HeaderText) :
    (headersAt pos lines).length = lines.length := by
  induction lines generalizing pos with
  | nil => rfl
  | cons line lines ih => rw [headersAt, List.length_cons, ih, List.length_cons]

/-- A call that accepts has parsed the buffer. -/
theorem parse_of_phrParseRequest {room lastLen : ℕ} {k : ℤ} {buf : List UInt8} {request : Request}
    (h : phrParseRequest buf room lastLen = (k, request)) (hk : 0 ≤ k) :
    ∃ rest, parseRequest room buf = (.done () rest, request) ∧
      k = toInt (buf.length - rest.length) := by
  unfold phrParseRequest at h
  dsimp only at h
  split at h
  · obtain ⟨rfl, -⟩ := Prod.mk.inj h
    omega
  · obtain ⟨rfl, -⟩ := Prod.mk.inj h
    omega
  · split at h
    · obtain ⟨rfl, -⟩ := Prod.mk.inj h
      omega
    · obtain ⟨rfl, -⟩ := Prod.mk.inj h
      omega
    · rename_i rest r hparse
      obtain ⟨rfl, rfl⟩ := Prod.mk.inj h
      exact ⟨rest, hparse, rfl⟩

/-- **Requests.** A call that knows `lastLen` bytes of the buffer from the call before accepts
more bytes than these exactly where a request, with no more headers than there is room for,
begins the buffer; and it answers with the length and the parts of this request. From `2 ^ 31`
bytes on the answer does not fit the `int` that is returned. -/
theorem phrParseRequest_eq_count {room lastLen k : ℕ} {buf : List UInt8} {request : Request}
    (hbuf : buf.length < 2 ^ 31) (hlast : lastLen < k) : phrParseRequest buf room lastLen = ((k : ℤ), request) ↔
      ∃ r : RequestText, r.headers.lines.length ≤ room ∧ requestLines.headText r <+: buf ∧
        (requestLines.headText r).length = k ∧ r.request = request := by
  constructor
  · intro h
    obtain ⟨rest, hparse, hk⟩ := parse_of_phrParseRequest h (Int.natCast_nonneg k)
    obtain ⟨r, hroom, rfl, rfl⟩ := parseRequest_eq_done.mp hparse
    rw [List.length_append] at hbuf hk
    rw [toInt_eq (by omega)] at hk
    exact ⟨r, hroom, List.prefix_append _ _, by omega, rfl⟩
  · rintro ⟨r, hroom, ⟨y, rfl⟩, rfl, rfl⟩
    rw [List.length_append] at hbuf
    refine phrParseRequest_of_le (accepts_text hroom (by omega)) ?_ hlast y
    rw [RequestText.request, LineGrammar.headers, length_headersAt]
    exact hroom

/-- A request with other bytes behind it, of which three bytes were there before. -/
theorem phrParseRequest_eq_count_root : ∃ r : RequestText, r.headers.lines.length ≤ 4 ∧
    requestLines.headText r <+: ascii "GET / HTTP/1.1\n\nGET" ∧
      (requestLines.headText r).length = 16 ∧ r.request =
        { method := some (ascii "GET"), path := some (ascii "/"), minorVersion := 1,
          headers := [] } :=
  (phrParseRequest_eq_count (by decide) (by decide : 3 < 16)).mp (by decide +kernel)

/-- **Undecided and refused buffers.** The first call waits for more exactly on the proper
fronts of the requests that there is room for, and it refuses exactly the buffers that neither
begin with such a request nor are the front of one. -/
theorem phrParseRequest_undecided (room : ℕ) {buf : List UInt8} (hbuf : buf.length < 2 ^ 31) :
    ((phrParseRequest buf room 0).1 = -2 ↔ ∃ r : RequestText,
      r.headers.lines.length ≤ room ∧ ∃ t, t ≠ [] ∧ buf ++ t = requestLines.headText r) ∧
    ((phrParseRequest buf room 0).1 = -1 ↔ ∀ r : RequestText,
      r.headers.lines.length ≤ room →
        ¬ requestLines.headText r <+: buf ∧ ¬ buf <+: requestLines.headText r) := by
  have hanswer : (phrParseRequest buf room 0).1 = answer buf.length (parseRequest room buf).1 := by
    rw [phrParseRequest, if_neg (not_not.mpr rfl)]
    dsimp only
    rcases parseRequest room buf with ⟨_ | _ | _, _⟩ <;> rfl
  rw [hanswer, parseRequest_eq_head]
  exact answer_undecided requestLines requestOf (stored advanceToken) room hbuf

/-- A request of which the empty line is missing. -/
theorem phrParseRequest_undecided_front :
    (∃ r : RequestText, r.headers.lines.length ≤ 4 ∧
      ∃ t, t ≠ [] ∧ ascii "GET / HTTP/1.1\nHost: x\n" ++ t = requestLines.headText r) ∧
    ¬ ∀ r : RequestText, r.headers.lines.length ≤ 4 →
      ¬ requestLines.headText r <+: ascii "GET / HTTP/1.1\nHost: x\n" ∧
        ¬ ascii "GET / HTTP/1.1\nHost: x\n" <+: requestLines.headText r :=
  ⟨(phrParseRequest_undecided 4 (by decide)).1.mp (by decide +kernel),
    fun hno => absurd ((phrParseRequest_undecided 4 (by decide)).2.mpr hno) (by decide +kernel)⟩

/-! ## Texts of requests -/

theorem Newline.zero_notMem (nl : Newline) : (0 : UInt8) ∉ nl.text := by
  cases nl <;> decide

theorem zero_notMem_text {p : UInt8 → Bool} (h0 : p 0 = false) (s : Text p) : (0 : UInt8) ∉ s.1 :=
  fun hmem => absurd (s.2 0 hmem) (by rw [h0]; exact Bool.false_ne_true)

theorem HeaderText.zero_notMem (line : HeaderText) : (0 : UInt8) ∉ line.text := by
  cases line with
  | field name blanks value tight nl =>
    have hfirst : (0 : UInt8) ≠ name.first := by
      intro h
      exact name.token (by rw [← h]; decide +kernel)
    simp only [HeaderText.text, FieldName.text, List.mem_append, List.mem_cons, not_or]
    exact ⟨⟨hfirst, zero_notMem_text (by decide) name.more⟩, by decide,
      zero_notMem_text (by decide) blanks, zero_notMem_text (by decide) value, nl.zero_notMem⟩
  | continuation value indented nl =>
    simp only [HeaderText.text, List.mem_append, not_or]
    exact ⟨zero_notMem_text (by decide) value, nl.zero_notMem⟩

theorem RequestLineText.zero_notMem (line : RequestLineText) : (0 : UInt8) ∉ line.text := by
  have hleading : (0 : UInt8) ∉ (line.leading.map (·.text)).getD [] := by
    cases line.leading with
    | none => exact List.not_mem_nil
    | some nl => exact nl.zero_notMem
  simp only [RequestLineText.text, List.mem_append, List.mem_cons, not_or]
  exact ⟨hleading, zero_notMem_text (by decide) line.method, by decide,
    zero_notMem_text (by decide) line.path, by decide, by decide,
    zero_notMem_text (by decide) line.minorVersion.text, line.newline.zero_notMem⟩

/-- A request holds no NUL. -/
theorem RequestText.zero_notMem (r : RequestText) : (0 : UInt8) ∉ requestLines.headText r := by
  intro hmem
  rcases List.mem_append.mp hmem with hmem | hmem
  · exact r.line.zero_notMem hmem
  · rcases List.mem_append.mp hmem with hmem | hmem
    · obtain ⟨line, -, hmem⟩ := List.mem_flatMap.mp hmem
      exact line.zero_notMem hmem
    · exact r.headers.last.zero_notMem hmem

theorem Newline.exists_concat (nl : Newline) : ∃ t, nl.text = t ++ [Bytes.lf] := by
  cases nl
  · exact ⟨[], rfl⟩
  · exact ⟨[cr], rfl⟩

/-- What stands at the position of a value. -/
theorem HeaderText.drop_valueAt (line : HeaderText) (front rest : List UInt8) :
    ∃ nl : Newline, (front ++ (line.text ++ rest)).drop (line.header front.length).valueAt =
      (line.header front.length).value ++ (nl.text ++ rest) := by
  cases line with
  | field name blanks value tight nl =>
    refine ⟨nl, ?_⟩
    have hsplit : front ++ ((HeaderText.field name blanks value tight nl).text ++ rest) =
        (front ++ (name.text ++ 58 :: blanks.1)) ++ (value.1 ++ (nl.text ++ rest)) := by
      simp [HeaderText.text]
    rw [hsplit]
    refine List.drop_left' ?_
    simp only [HeaderText.header, List.length_append, List.length_cons]
    omega
  | continuation value indented nl =>
    refine ⟨nl, ?_⟩
    have hsplit : (HeaderText.continuation value indented nl).text ++ rest =
        value.1 ++ (nl.text ++ rest) := by
      simp [HeaderText.text]
    rw [hsplit]
    exact List.drop_left' rfl

/-- The name of a header stands at the start of its line. -/
theorem exists_name {pos : ℕ} {lines : List HeaderText} {header : PhrHeader}
    (hmem : header ∈ headersAt pos lines) {c : UInt8} {name : List UInt8}
    (hname : header.name = some (c :: name)) :
    ∃ before behind, lines.flatMap (·.text) = before ++ c :: behind ∧
      ∀ t, ∃ t', t ++ [lf] ++ before = t' ++ [lf] := by
  induction lines generalizing pos with
  | nil => cases hmem
  | cons line lines ih =>
    rcases List.mem_cons.mp hmem with rfl | hmem
    · cases line with
      | field name' blanks value tight nl =>
        have hfirst : name'.text = c :: name := Option.some.inj hname
        refine ⟨[], name ++ 58 :: (blanks.1 ++ (value.1 ++ nl.text)) ++
          lines.flatMap (·.text), ?_, fun t => ⟨t, List.append_nil _⟩⟩
        simp [HeaderText.text, hfirst]
      | continuation value indented nl => cases hname
    · obtain ⟨before, behind, htext, hline⟩ := ih hmem
      refine ⟨line.text ++ before, behind, ?_, fun t => ?_⟩
      · rw [List.flatMap_cons, htext, List.append_assoc]
      · obtain ⟨u, hu⟩ : ∃ u, line.text = u ++ [lf] := by
          cases line with
          | field name' blanks value tight nl =>
            obtain ⟨u, hu⟩ := nl.exists_concat
            exact ⟨name'.text ++ 58 :: (blanks.1 ++ (value.1 ++ u)), by
              simp [HeaderText.text, hu]⟩
          | continuation value indented nl =>
            obtain ⟨u, hu⟩ := nl.exists_concat
            exact ⟨value.1 ++ u, by simp [HeaderText.text, hu]⟩
        rw [hu, ← List.append_assoc, ← List.append_assoc]
        exact hline _

end Yotta.Picohttp
