import Yotta.Http.Date
import Yotta.Lib.Reading
import Yotta.Picohttp.Values
import Yotta.Server.Callbacks
import Yotta.Server.Heads

/-!
# `If-Modified-Since`

`handle_if_modified_since` (`yotta.cpp`, lines 177–200) gives `strptime` a pointer into the
read buffer. No NUL ends the value there, so `strptime` may go on behind it.

Results:
* `handleIfModifiedSince_httpDate`: a date as `serve_200` writes it is compared with the
  time of the file.
* `handleIfModifiedSince_lastModified`: the `Last-Modified` of a response, sent back, is
  answered with 304.
* `sinceDecision_iff`: what follows the value decides if and only if the value stops where
  `strptime` skips white space.
-/

namespace Yotta.Server

open Yotta.Bytes Yotta.Core Yotta.Http Yotta.Numeral Yotta.Picohttp Yotta.Time

/-- The header is one of those that `phr_parse_request` has found in the first `counter`
bytes of `buf`, and no header has been answered so far. -/
structure Given (u : UserData) (header : PhrHeader) : Prop where
  unanswered : u.finalized = false
  parsed : ∃ room ≤ maxHeaders, ∃ lastLen n, 0 < n ∧
    phrParseRequest (u.buf.bytes.take u.counter) room lastLen = (n, u.parser.request)
  mem : header ∈ u.parser.request.headers
  name : header.name = some (ascii "If-Modified-Since")

/-! ## The text behind the pointer -/

theorem isNewline_spaces {term : List UInt8} (h : IsNewline term) :
    ∃ c rest, term = c :: rest ∧ isSpace c = true ∧ rest.all isSpace = true ∧
      (0 : UInt8) ∉ term := by
  rcases h with rfl | rfl
  · exact ⟨lf, [], rfl, by decide, by decide, by decide⟩
  · exact ⟨cr, [lf], rfl, by decide, by decide, by decide⟩

/-- The pointer leads to the value, and white space follows it. -/
theorem Given.text {u : UserData} {header : PhrHeader} (h : Given u header) :
    ∃ c rest, isSpace c = true ∧
      cstr (u.memory.drop header.valueAt) = header.value ++ c :: rest := by
  obtain ⟨room, -, lastLen, n, hn, hparse⟩ := h.parsed
  have hbuf := standsIn_of_phrParseRequest hparse hn header h.mem
  have htext := hbuf.1.1
  have hmemory : u.memory = u.buf.bytes.take u.counter ++
      (u.buf.bytes.drop u.counter ++ u.responseBuf.bytes ++
        [if u.finalized then 1 else 0]) := by
    rw [UserData.memory, ← List.append_assoc, ← List.append_assoc, List.take_append_drop]
  obtain ⟨term, rest, hdrop, hterm⟩ := (hbuf.append _).drop
  rw [← hmemory] at hdrop
  obtain ⟨c, t, rfl, hc, -, h0⟩ := isNewline_spaces hterm
  refine ⟨c, t ++ cstr rest, hc, ?_⟩
  rw [hdrop, cstr_append htext, cstr_append h0]
  rfl

/-! ## Connections -/

/-- A connection that has read a request, in zeroed memory. -/
def withRequest (text : List UInt8) : UserData :=
  (parseBuffer { UserData.zero with buf := (Buffer.zero maxBufferSize).write 0 text }
    text.length).2

/-- A request that asks for a file unless it has not changed since `date`, with `more` lines. -/
def sinceRequest (date more : String) : List UInt8 :=
  ascii "GET / HTTP/1.1" ++ [cr, lf] ++ ascii "If-Modified-Since" ++ ascii ": " ++ ascii date ++
    [cr, lf] ++ ascii more ++ [cr, lf]

/-- The header of such a request. -/
def sinceHeader (date : String) : PhrHeader :=
  { name := some (ascii "If-Modified-Since"), value := ascii date, valueAt := 35 }

/-- `GET / HTTP/1.1` with headers, as it is parsed. -/
def getRequest (headers : List PhrHeader) : Request :=
  { method := some (ascii "GET"), path := some (ascii "/"), minorVersion := 1, headers }

theorem stMtime_withRequest (text : List UInt8) : (withRequest text).fileStat.stMtime = 0 := rfl

theorem request_withRequest {text : List UInt8} {n : ℤ} {request : Request}
    (hlen : text.length ≤ maxBufferSize)
    (hparse : phrParseRequest text maxHeaders 0 = (n, request)) :
    (withRequest text).parser.request = request := by
  have hcounter : 0 + text.length = text.length := Nat.zero_add _
  unfold withRequest parseBuffer
  dsimp only [UserData.zero, ParserData.init]
  rw [hcounter, Buffer.take_write_zero hlen, hparse]

theorem given_withRequest {text : List UInt8} {n : ℤ} {request : Request} {header : PhrHeader}
    (hlen : text.length ≤ maxBufferSize)
    (hparse : phrParseRequest text maxHeaders 0 = (n, request)) (hn : 0 < n)
    (hmem : header ∈ request.headers)
    (hname : header.name = some (ascii "If-Modified-Since")) :
    Given (withRequest text) header := by
  have hrequest := request_withRequest hlen hparse
  refine ⟨rfl, ⟨maxHeaders, Nat.le_refl _, 0, n, hn, ?_⟩, ?_, hname⟩
  · rw [hrequest]
    show phrParseRequest (((Buffer.zero maxBufferSize).write 0 text).bytes.take
      (0 + text.length)) maxHeaders 0 = _
    rw [Nat.zero_add, Buffer.take_write_zero hlen, hparse]
  · rw [hrequest]
    exact hmem

/-- Zeros follow the request. -/
theorem cstr_withRequest {text : List UInt8} (hlen : text.length ≤ maxBufferSize)
    (h0 : (0 : UInt8) ∉ text) {n : ℕ} (hn : n ≤ text.length) :
    cstr ((withRequest text).memory.drop n) = text.drop n := by
  have hfit : 0 + text.length ≤ maxBufferSize := by omega
  have hbuf : (withRequest text).buf.bytes =
      text ++ List.replicate (maxBufferSize - text.length) 0 := by
    show ((Buffer.zero maxBufferSize).write 0 text).bytes = _
    rw [Buffer.bytes_write hfit]
    simp [blit, Buffer.zero]
  have hmemory : (withRequest text).memory =
      text ++ 0 :: List.replicate (2 * maxBufferSize - text.length) 0 := by
    show (withRequest text).buf.bytes ++ List.replicate maxBufferSize 0 ++ [0] = _
    rw [hbuf, ← List.replicate_succ, List.append_assoc, List.append_assoc]
    congr 1
    rw [← List.replicate_one, ← List.replicate_add, ← List.replicate_add]
    congr 1
    omega
  have hdrop : (0 : UInt8) ∉ text.drop n := fun hmem => h0 (List.mem_of_mem_drop hmem)
  rw [hmemory, List.drop_append_of_le_length hn, cstr_append_zero hdrop]

/-- The requests of the examples. -/
theorem parse_sinceRequest :
    phrParseRequest (sinceRequest "Sun, 06 Nov 1994 08:49:37 GMT" "") maxHeaders 0 =
        (68, getRequest [sinceHeader "Sun, 06 Nov 1994 08:49:37 GMT"]) ∧
      phrParseRequest (sinceRequest "Sun, 06 Nov 1994 08:49:37 GMT" "Range: bytes=0-1\r\n")
          maxHeaders 0 =
        (86, getRequest [sinceHeader "Sun, 06 Nov 1994 08:49:37 GMT",
          { name := some (ascii "Range"), value := ascii "bytes=0-1", valueAt := 73 }]) ∧
      phrParseRequest (sinceRequest "Sun, 06 Nov 1994 08:49:" "") maxHeaders 0 =
        (62, getRequest [sinceHeader "Sun, 06 Nov 1994 08:49:"]) ∧
      phrParseRequest (sinceRequest "Sun, 06 Nov 1994 08:49:" "37: x\r\n") maxHeaders 0 =
        (69, getRequest [sinceHeader "Sun, 06 Nov 1994 08:49:",
          { name := some (ascii "37"), value := ascii "x", valueAt := 64 }]) ∧
      (sinceHeader "Sun, 06 Nov 1994 08:49:37 GMT").value =
        strftime httpTimeFormat (brokenDown 784111777) := by
  decide +kernel

theorem value_1994 : (gmtime 784111777).map (strftime httpTimeFormat) =
    some (sinceHeader "Sun, 06 Nov 1994 08:49:37 GMT").value := by
  rw [gmtime_of_fourDigits (by decide), parse_sinceRequest.2.2.2.2]
  rfl

theorem given_1994 : Given (withRequest (sinceRequest "Sun, 06 Nov 1994 08:49:37 GMT" ""))
    (sinceHeader "Sun, 06 Nov 1994 08:49:37 GMT") :=
  given_withRequest (by decide) parse_sinceRequest.1 (by decide) List.mem_cons_self rfl

/-! ## Dates of `serve_200` -/

/-- A date as `serve_200` writes it is read. -/
theorem Given.ifModifiedSince_httpDate {u : UserData} {header : PhrHeader} (h : Given u header)
    {t : ℤ} (ht : 0 ≤ t ∧ t < 253402300800)
    (hvalue : (gmtime t).map (strftime httpTimeFormat) = some header.value) :
    ifModifiedSince u.memory header.valueAt = some t := by
  obtain ⟨c, rest, -, htext⟩ := h.text
  rw [gmtime_of_fourDigits ht, Option.map_some, Option.some.injEq] at hvalue
  unfold ifModifiedSince
  rw [htext, ← hvalue]
  exact timegm_strptime_httpDate ht _ stamp

/-- **Last-Modified is understood.** A date as `serve_200` writes it for a time `t` is
answered with 304 if and only if the file has not changed after `t`; otherwise the loop of
`parse_headers` goes on. -/
theorem handleIfModifiedSince_httpDate {u : UserData} {header : PhrHeader} (h : Given u header)
    {t : ℤ} (ht : 0 ≤ t ∧ t < 253402300800)
    (hvalue : (gmtime t).map (strftime httpTimeFormat) = some header.value) :
    handleIfModifiedSince u header =
        (if t ≥ u.fileStat.stMtime then (u.finalize serve304 false, true) else (u, false)) ∧
      ∀ headers, handleHeaders u (header :: headers) =
        if t ≥ u.fileStat.stMtime then .ok (u.finalize serve304 false)
        else handleHeaders u headers := by
  have hhandle : handleIfModifiedSince u header =
      if t ≥ u.fileStat.stMtime then (u.finalize serve304 false, true) else (u, false) := by
    rw [handleIfModifiedSince, h.ifModifiedSince_httpDate ht hvalue]
  refine ⟨hhandle, fun headers => ?_⟩
  rw [handleHeaders, h.unanswered, if_neg (by simp), if_pos h.name, hhandle]
  split_ifs <;> rfl

theorem handleIfModifiedSince_httpDate_1994 :
    handleIfModifiedSince (withRequest (sinceRequest "Sun, 06 Nov 1994 08:49:37 GMT" ""))
        (sinceHeader "Sun, 06 Nov 1994 08:49:37 GMT") =
      ((withRequest (sinceRequest "Sun, 06 Nov 1994 08:49:37 GMT" "")).finalize serve304 false,
        true) :=
  (handleIfModifiedSince_httpDate given_1994 (t := 784111777) (by decide)
    value_1994).1.trans (if_pos (by rw [stMtime_withRequest]; decide))

/-- The `Last-Modified` that a client reads in what `serve_200` writes is the value that
`handleIfModifiedSince_httpDate` is about. -/
theorem lastModified_of_serve200 {contentLength : ℕ} {t : ℤ} {contentType text : List UInt8}
    {head : MessageHead.Head} (ht : 0 ≤ t ∧ t < 253402300800)
    (hx : contentType ∈ mimeTypes.map Prod.snd)
    (hwritten : serve200 contentLength t contentType = some text) (hread : ReadAs text head) :
    head.valuesOf "Last-Modified" = [strftime httpTimeFormat (brokenDown t)] := by
  rw [serve200_eq (representable_of_fourDigits ht), Option.some.injEq] at hwritten
  have hparse := hread.parse []
  rw [← hwritten, MessageHead.parseHead_text
    (wellFormed_head200 ht (mimeTypes_value contentType hx).2 _)] at hparse
  obtain ⟨rfl, -⟩ := Prod.mk.inj (Option.some.inj hparse)
  rfl

/-- **A copy that is up to date.** A client that sends back the `Last-Modified` of the
response gets a 304 as long as the time of the file is the same. -/
theorem handleIfModifiedSince_lastModified {u : UserData} {header : PhrHeader}
    (h : Given u header) {contentLength : ℕ} {contentType text : List UInt8}
    {head : MessageHead.Head}
    (ht : 0 ≤ u.fileStat.stMtime ∧ u.fileStat.stMtime < 253402300800)
    (hx : contentType ∈ mimeTypes.map Prod.snd)
    (hwritten : serve200 contentLength u.fileStat.stMtime contentType = some text)
    (hread : ReadAs text head) (hvalue : head.valuesOf "Last-Modified" = [header.value]) :
    handleIfModifiedSince u header = (u.finalize serve304 false, true) := by
  rw [lastModified_of_serve200 ht hx hwritten hread, List.singleton_inj] at hvalue
  have hdate := h.ifModifiedSince_httpDate ht
    (by rw [gmtime_of_fourDigits ht, Option.map_some, hvalue])
  rw [handleIfModifiedSince, hdate]
  exact if_pos le_rfl

/-! ## Decisions -/

/-- `http_time_format()` up to the seconds. -/
def dateFormat : List UInt8 := ascii "%a, %d %b %Y %H:%M:%S"

/-- The value ends, up to white space, where `strptime` skips white space. -/
def Stopped (value : List UInt8) : Prop :=
  ∃ format tm, reading dateFormat value stamp = .opened format tm

instance (value : List UInt8) : Decidable (Stopped value) :=
  match h : reading dateFormat value stamp with
  | .read tm => isFalse (by rintro ⟨_, _, hopen⟩; rw [h] at hopen; cases hopen)
  | .failed => isFalse (by rintro ⟨_, _, hopen⟩; rw [h] at hopen; cases hopen)
  | .opened format tm => isTrue ⟨format, tm, h⟩

/-- What `handle_if_modified_since` answers, `none` where it goes on. -/
def sinceDecision (u : UserData) (header : PhrHeader) : Option Response :=
  let (u, done) := handleIfModifiedSince u header
  if done then some u.response else none

theorem httpTimeFormat_eq_dateFormat : httpTimeFormat = dateFormat ++ [space, 37, 90] := by
  decide

theorem zoneFree_dateFormat : zoneFree dateFormat = true := by
  simp [dateFormat, ascii, zoneFree]

theorem sinceDecision_eq (u : UserData) (header : PhrHeader) :
    sinceDecision u header =
      match ifModifiedSince u.memory header.valueAt with
      | none => some { head := serve400, body := none }
      | some time =>
        if time ≥ u.fileStat.stMtime then some { head := serve304, body := none } else none := by
  unfold sinceDecision handleIfModifiedSince
  cases ifModifiedSince u.memory header.valueAt with
  | none => exact congrArg some (UserData.response_finalize length_serve400_le false)
  | some time =>
    dsimp only
    by_cases htime : time ≥ u.fileStat.stMtime
    · rw [if_pos htime, if_pos htime]
      exact congrArg some (UserData.response_finalize length_serve304_le false)
    · rw [if_neg htime, if_neg htime]
      rfl

/-- A value that is read is never answered with 400. -/
theorem sinceDecision_eq_serve400_iff (u : UserData) (header : PhrHeader) :
    sinceDecision u header = some { head := serve400, body := none } ↔
      ifModifiedSince u.memory header.valueAt = none := by
  rw [sinceDecision_eq]
  cases ifModifiedSince u.memory header.valueAt with
  | none => exact iff_of_true rfl rfl
  | some time =>
    refine iff_of_false ?_ (Option.some_ne_none _)
    dsimp only
    by_cases htime : time ≥ u.fileStat.stMtime
    · rw [if_pos htime]
      intro h
      exact serve304_ne_serve400 (congrArg Response.head (Option.some.inj h))
    · rw [if_neg htime]
      exact nofun

/-- The time that is read from the value and what follows it. -/
theorem ifModifiedSince_eq {memory value rest : List UInt8} {valueAt : ℕ} {c : UInt8}
    (hc : isSpace c = true) (h : cstr (memory.drop valueAt) = value ++ c :: rest) :
    ifModifiedSince memory valueAt =
      ((reading dateFormat value stamp).result (rest.dropWhile isSpace)).map timegm := by
  unfold ifModifiedSince
  rw [h, httpTimeFormat_eq_dateFormat, strptime_append_zone zoneFree_dateFormat,
    strptime_append zoneFree_dateFormat hc]

/-- Any text may follow the value. -/
theorem Given.continued {u : UserData} {header : PhrHeader} (h : Given u header)
    {w : List UInt8} (hw : (0 : UInt8) ∉ w) (hlen : w.length ≤ maxBufferSize) :
    ∃ u', Given u' header ∧ u'.fileStat = u.fileStat ∧ ∃ c rest, isSpace c = true ∧
      cstr (u'.memory.drop header.valueAt) = header.value ++ c :: rest ∧
      rest.dropWhile isSpace = w.dropWhile isSpace := by
  obtain ⟨room, hroom, lastLen, n, hn, hparse⟩ := h.parsed
  obtain ⟨before, term, q, hbuf, hq, htext, hat, hterm, request', hcut, hmem⟩ :=
    phrParseRequest_cut hparse hn h.mem
  obtain ⟨r, hr⟩ : ∃ r, before ++ header.value ++ term ++ [lf] = r := ⟨_, rfl⟩
  rw [hr] at hcut
  have hrlen : r.length ≤ maxBufferSize := by
    have hbuflen := congrArg List.length hbuf
    have hqpos := List.length_pos_of_ne_nil hq
    rw [← hr]
    simp only [List.length_append, List.length_take, u.buf.length_eq, List.length_singleton]
      at hbuflen ⊢
    omega
  have haccepts : Accepts room r request' := accepts_iff.mpr ⟨hcut, hrlen.trans_lt (by decide)⟩
  -- the request ends behind the header, `w` follows it, and zeros follow that
  let memory := r ++ w ++ List.replicate (2 * maxBufferSize - r.length - w.length) 0
  have hmemory : memory.length = 2 * maxBufferSize := by
    simp only [memory, List.length_append, List.length_replicate]
    omega
  let u' : UserData := { u with
    buf := ⟨memory.take maxBufferSize, by rw [List.length_take, hmemory]; omega⟩
    responseBuf := ⟨memory.drop maxBufferSize, by rw [List.length_drop, hmemory]; omega⟩
    counter := r.length
    parser := { u.parser with request := request' } }
  have htake : u'.buf.bytes.take u'.counter = r := by
    show (memory.take maxBufferSize).take r.length = r
    rw [List.take_take, min_eq_left hrlen]
    show (r ++ w ++ _).take r.length = r
    rw [List.append_assoc, List.take_left' rfl]
  have hpos : 0 < r.length := by
    rw [← hr, List.length_append]
    exact Nat.succ_pos _
  refine ⟨u', ⟨h.unanswered, ⟨room, hroom, 0, r.length, by omega, ?_⟩, hmem, h.name⟩, rfl, ?_⟩
  · rw [htake]
    exact haccepts
  · obtain ⟨c, t, rfl, hc, ht, h0⟩ := isNewline_spaces hterm
    refine ⟨c, t ++ lf :: w, hc, ?_, ?_⟩
    · have hmem' : u'.memory = before ++ (header.value ++ ((c :: t) ++ ([lf] ++ (w ++
          0 :: List.replicate (2 * maxBufferSize - r.length - w.length) 0)))) := by
        show memory.take maxBufferSize ++ memory.drop maxBufferSize ++
          [if u.finalized then 1 else 0] = _
        rw [List.take_append_drop, h.unanswered, if_neg (by simp), ← List.replicate_succ,
          List.replicate_succ']
        simp only [memory, ← hr, List.append_assoc]
      rw [hmem', List.drop_left' hat, cstr_append htext.1, cstr_append h0,
        cstr_append (by decide), cstr_append_zero hw]
      rfl
    · rw [dropWhile_append_of_all ht, List.dropWhile_cons_of_pos (by decide)]

/-- The end of a date. -/
def dateEnd : List UInt8 := ascii "1 Jan 1970 0:0:0"

/-- Wherever the format may be left open, the end of a text is not read, and some end of a
date is. -/
theorem strptime_opens : ∀ format ∈ opens dateFormat, strptime format [] stamp = none ∧
    ∃ k < 17, (strptime format ((dateEnd.drop k).dropWhile isSpace) stamp).isSome = true := by
  decide +kernel

/-- A value that stops is read or not, as what follows it has it. -/
theorem ifModifiedSince_stopped {value : List UInt8} (h : Stopped value) :
    ∃ w : List UInt8, (0 : UInt8) ∉ w ∧ w.length ≤ maxBufferSize ∧
      ∀ {memory rest : List UInt8} {valueAt : ℕ} {c : UInt8}, isSpace c = true →
        cstr (memory.drop valueAt) = value ++ c :: rest →
        (rest.dropWhile isSpace = [] → ifModifiedSince memory valueAt = none) ∧
        (rest.dropWhile isSpace = w.dropWhile isSpace →
          ifModifiedSince memory valueAt ≠ none) := by
  obtain ⟨format, tm, hread⟩ := h
  obtain ⟨hnone, k, -, hsome⟩ := strptime_opens format (mem_opens_of_reading hread)
  have h0 : (0 : UInt8) ∉ dateEnd := by decide
  have hlen : dateEnd.length ≤ maxBufferSize := by decide
  refine ⟨dateEnd.drop k, fun hmem => h0 (List.mem_of_mem_drop hmem), ?_, ?_⟩
  · rw [List.length_drop]
    omega
  · intro memory rest valueAt c hc htext
    have hdecide := ifModifiedSince_eq hc htext
    rw [hread] at hdecide
    refine ⟨fun hrest => ?_, fun hrest => ?_⟩
    · have hfails : strptime format [] tm = none := by
        have := isSome_strptime format [] tm stamp
        rw [hnone, Option.isSome_none] at this
        simpa using this
      rw [hdecide, hrest, Reading.result, hfails]
      rfl
    · rw [hdecide, hrest, Reading.result, ne_eq, Option.map_eq_none_iff, ← ne_eq,
        ← Option.isSome_iff_ne_none, isSome_strptime format _ tm stamp]
      exact hsome

/-- **What follows the value** makes no difference to `handle_if_modified_since` if and only
if the value does not stop where `strptime` skips white space. -/
theorem sinceDecision_iff {u : UserData} {header : PhrHeader} (h : Given u header) :
    (∀ u' header', Given u' header' → header'.value = header.value →
        u'.fileStat.stMtime = u.fileStat.stMtime →
        sinceDecision u' header' = sinceDecision u header) ↔
      ¬ Stopped header.value := by
  constructor
  · intro hsame hstopped
    obtain ⟨w, hw, hlen, hboth⟩ := ifModifiedSince_stopped hstopped
    obtain ⟨u₀, hgiven₀, hfile₀, c₀, rest₀, hc₀, htext₀, hrest₀⟩ :=
      h.continued List.not_mem_nil (Nat.zero_le _)
    obtain ⟨u₁, hgiven₁, hfile₁, c₁, rest₁, hc₁, htext₁, hrest₁⟩ := h.continued hw hlen
    have h₀ := hsame u₀ header hgiven₀ rfl (congrArg FileStat.stMtime hfile₀)
    have h₁ := hsame u₁ header hgiven₁ rfl (congrArg FileStat.stMtime hfile₁)
    have hrefused := (sinceDecision_eq_serve400_iff _ _).mpr ((hboth hc₀ htext₀).1 hrest₀)
    rw [h₀, ← h₁] at hrefused
    exact (hboth hc₁ htext₁).2 hrest₁ ((sinceDecision_eq_serve400_iff _ _).mp hrefused)
  · intro hstopped u' header' h' hvalue hmtime
    obtain ⟨c, rest, hc, htext⟩ := h.text
    obtain ⟨c', rest', hc', htext'⟩ := h'.text
    have htime : ifModifiedSince u'.memory header'.valueAt =
        ifModifiedSince u.memory header.valueAt := by
      rw [ifModifiedSince_eq hc htext, ifModifiedSince_eq hc' htext', hvalue]
      cases hread : reading dateFormat header.value stamp with
      | read tm => rfl
      | failed => rfl
      | opened format tm => exact absurd ⟨format, tm, hread⟩ hstopped
    rw [sinceDecision_eq, sinceDecision_eq, htime, hmtime]

theorem sinceDecision_iff_1994 :
    Given (withRequest (sinceRequest "Sun, 06 Nov 1994 08:49:37 GMT" ""))
        (sinceHeader "Sun, 06 Nov 1994 08:49:37 GMT") ∧
      ∀ u' header', Given u' header' → header'.value = ascii "Sun, 06 Nov 1994 08:49:37 GMT" →
        u'.fileStat.stMtime = 0 →
        sinceDecision u' header' =
          sinceDecision (withRequest (sinceRequest "Sun, 06 Nov 1994 08:49:37 GMT" ""))
            (sinceHeader "Sun, 06 Nov 1994 08:49:37 GMT") := by
  have hmtime := stMtime_withRequest (sinceRequest "Sun, 06 Nov 1994 08:49:37 GMT" "")
  exact ⟨given_1994, fun u' header' hgiven' hvalue hzero =>
    (sinceDecision_iff given_1994).mpr (by decide +kernel) u' header' hgiven' hvalue
      (hzero.trans hmtime.symm)⟩

/-- A value that stops in front of the seconds, and the name of the next header behind it:
the date is refused without the header, and read with it. -/
theorem next_header_read :
    ¬ ∀ u header u' header', Given u header → Given u' header' → header'.value = header.value →
      u'.fileStat.stMtime = u.fileStat.stMtime →
      sinceDecision u' header' = sinceDecision u header := by
  intro h
  obtain ⟨-, -, hparse₀, hparse₁, -⟩ := parse_sinceRequest
  generalize htext₀ : sinceRequest "Sun, 06 Nov 1994 08:49:" "" = text₀ at hparse₀
  generalize htext₁ : sinceRequest "Sun, 06 Nov 1994 08:49:" "37: x\r\n" = text₁ at hparse₁
  have hlen₀ : text₀.length ≤ maxBufferSize := by rw [← htext₀]; decide
  have hlen₁ : text₁.length ≤ maxBufferSize := by rw [← htext₁]; decide
  have hgiven₀ := given_withRequest hlen₀ hparse₀ (by decide) List.mem_cons_self rfl
  have hgiven₁ := given_withRequest hlen₁ hparse₁ (by decide) List.mem_cons_self rfl
  have hrefused : ifModifiedSince (withRequest text₀).memory 35 = none := by
    have hcstr := cstr_withRequest hlen₀ (by rw [← htext₀]; decide)
      (show 35 ≤ text₀.length by rw [← htext₀]; decide)
    rw [ifModifiedSince, hcstr, ← htext₀]
    decide +kernel
  have hread : ifModifiedSince (withRequest text₁).memory 35 ≠ none := by
    have hcstr := cstr_withRequest hlen₁ (by rw [← htext₁]; decide)
      (show 35 ≤ text₁.length by rw [← htext₁]; decide)
    rw [ifModifiedSince, hcstr, ← htext₁]
    decide +kernel
  have hsame := h _ _ _ _ hgiven₀ hgiven₁ rfl
    ((stMtime_withRequest text₁).trans (stMtime_withRequest text₀).symm)
  have hdecision₀ := (sinceDecision_eq_serve400_iff (withRequest text₀)
    (sinceHeader "Sun, 06 Nov 1994 08:49:")).mpr hrefused
  exact hread ((sinceDecision_eq_serve400_iff (withRequest text₁)
    (sinceHeader "Sun, 06 Nov 1994 08:49:")).mp (hsame.trans hdecision₀))

end Yotta.Server
