import Yotta.Picohttp.Responses
import Yotta.Server.Client

/-!
# Replies under `phr_parse_response`

What `http/yta_http.cpp` writes in front of a body is a response of the grammar of
`picohttpparser.c`.

Results:
* `text_of_head`: a well-formed head without control characters is the text of a response, with
  its status, its reason and its fields.
* `phrParseResponse_reply`: the head of every reply of a session is read by
  `phr_parse_response`, up to where the body begins.
-/

namespace Yotta.Server

open Yotta.Bytes Yotta.Core Yotta.Http Yotta.MessageHead Yotta.Numeral Yotta.Picohttp Yotta.Time

/-! ## Numbers -/

/-- `parse_int` computes the number that the digits stand for, in the range of an `int`. -/
theorem intValue_eq {digits : List UInt8} (h : ∀ c ∈ digits, isDigit c)
    (hlt : value digits < 2 ^ 31) : intValue digits = value digits := by
  induction digits using List.reverseRecOn with
  | nil => rfl
  | append_singleton digits c ih =>
    have hc := (isDigit_iff c).mp (h c (by simp))
    have hvalue : value (digits ++ [c]) = 10 * value digits + (c.toNat - 48) := by
      simp [value, digitVal]
    rw [hvalue] at hlt ⊢
    have hfront := ih (fun d hd => h d (List.mem_append_left _ hd)) (by omega)
    have hstep : intValue (digits ++ [c]) =
        Int.bmod (intValue digits * 10 + (c.toNat - 48)) (2 ^ 32) := by
      simp [intValue]
    rw [hstep, hfront, Int.bmod_eq_of_le] <;> push_cast <;> omega

def decimalDigits (n : ℕ) : Digits := ⟨⟨decimal n, decimal_digits n⟩, decimal_ne_nil n⟩

theorem value_decimalDigits {n : ℕ} (h : n < 2 ^ 31) : (decimalDigits n).value = n := by
  rw [Digits.value, decimalDigits, intValue_eq (decimal_digits n) (by rwa [value_decimal]),
    value_decimal]

/-! ## Fields -/

/-- No control characters but HT. -/
def Printable (s : List UInt8) : Prop := ∀ c ∈ s, isValueByte c

instance (s : List UInt8) : Decidable (Printable s) := List.decidableBAll _ s

theorem printable_append {s t : List UInt8} (hs : Printable s) (ht : Printable t) :
    Printable (s ++ t) :=
  List.forall_mem_append.mpr ⟨hs, ht⟩

theorem printable_cons {c : UInt8} {s : List UInt8} (hc : isValueByte c) (hs : Printable s) :
    Printable (c :: s) :=
  List.forall_mem_cons.mpr ⟨hc, hs⟩

theorem printable_digits {s : List UInt8} (h : ∀ c ∈ s, isDigit c) : Printable s := by
  intro c hc
  have hdigit := (isDigit_iff c).mp (h c hc)
  have hspace : space.toNat = 32 := rfl
  have hht : ht.toNat = 9 := rfl
  simp [isValueByte, ← UInt8.toNat_inj, UInt8.le_iff_toNat_le]
  omega

/-- A value begins with no blank. -/
theorem head_not_blank {s : List UInt8} (h : trim s = s) :
    ∀ c ∈ s.head?, Picohttp.isBlank c = false := by
  intro c hc
  obtain ⟨t, rfl⟩ := List.head?_eq_some_iff.mp hc
  by_contra hblank
  have hdrop : (c :: t).dropWhile MessageHead.isBlank = t.dropWhile MessageHead.isBlank :=
    List.dropWhile_cons_of_pos (Bool.eq_true_of_not_eq_false hblank)
  have hlen := congrArg List.length h
  rw [trim, hdrop, List.length_cons] at hlen
  have h1 := List.IsPrefix.length_le (List.rdropWhile_prefix MessageHead.isBlank
    (t.dropWhile MessageHead.isBlank))
  have h2 := List.IsSuffix.length_le (List.dropWhile_suffix MessageHead.isBlank (l := t))
  omega

theorem tchar_table :
    tokenCharMap.zipIdx.all fun x => x.1 != 0 || !isTchar (UInt8.ofNat x.2) := by
  decide +kernel

theorem length_tokenCharMap : tokenCharMap.length = 256 := by decide +kernel

theorem token_of_isTchar {c : UInt8} (h : isTchar c) : tokenCharMap.getD c.toNat 0 ≠ 0 := by
  have hentry := forall_entry (P := fun v n => v != 0 || !isTchar (UInt8.ofNat n)) tchar_table
    (lt_of_lt_of_eq c.toNat_lt length_tokenCharMap.symm)
  simpa [h] using hentry

/-- A field of a head, as a header line. -/
theorem exists_line {field : List UInt8 × List UInt8}
    (hname : field.1 ≠ [] ∧ field.1.all isTchar = true) (hvalue : IsValue field.2)
    (hprint : Printable field.2) :
    ∃ line : HeaderText, line.IsField ∧ line.text = fieldLine field ++ crlf ∧
      ∀ pos, (line.header pos).name = some field.1 ∧ (line.header pos).value = field.2 := by
  obtain ⟨name, value⟩ := field
  dsimp only at hname hvalue hprint
  obtain ⟨c, more, rfl⟩ := List.exists_cons_of_ne_nil hname.1
  have htoken : ∀ d ∈ c :: more, tokenCharMap.getD d.toNat 0 ≠ 0 := fun d hd =>
    token_of_isTchar (List.all_eq_true.mp hname.2 d hd)
  have hmore : ∀ d ∈ more, isNameByte d := fun d hd =>
    (isNameByte_of_token (htoken d (List.mem_cons_of_mem _ hd))).1
  refine ⟨.field ⟨c, ⟨more, hmore⟩, htoken c List.mem_cons_self⟩
    ⟨[space], List.forall_mem_singleton.mpr rfl⟩ ⟨value, hprint⟩ (head_not_blank hvalue.2) .crlf,
    trivial, ?_, fun pos => ⟨rfl, rfl⟩⟩
  simp [HeaderText.text, FieldName.text, Newline.text, fieldLine, crlf]

/-- The name and the value of a header. -/
def nameAndValue (header : PhrHeader) : Option (List UInt8) × List UInt8 :=
  (header.name, header.value)

theorem exists_lines {fields : List (List UInt8 × List UInt8)}
    (h : ∀ field ∈ fields, (field.1 ≠ [] ∧ field.1.all isTchar = true) ∧ IsValue field.2 ∧
      Printable field.2) :
    ∃ lines : List HeaderText, lines.length = fields.length ∧ (∀ line ∈ lines, line.IsField) ∧
      lines.flatMap (·.text) = (fields.map fieldLine).flatMap (· ++ crlf) ∧
      ∀ pos, (headersAt pos lines).map nameAndValue =
        fields.map fun field => (some field.1, field.2) := by
  induction fields with
  | nil => exact ⟨[], rfl, nofun, rfl, fun _ => rfl⟩
  | cons field fields ih =>
    obtain ⟨hname, hvalue, hprint⟩ := h field List.mem_cons_self
    obtain ⟨line, hfield, htext, hheader⟩ := exists_line hname hvalue hprint
    obtain ⟨lines, hlen, hfields, htexts, hheaders⟩ :=
      ih fun f hf => h f (List.mem_cons_of_mem _ hf)
    refine ⟨line :: lines, ?_, List.forall_mem_cons.mpr ⟨hfield, hfields⟩, ?_, fun pos => ?_⟩
    · rw [List.length_cons, hlen, List.length_cons]
    · rw [List.flatMap_cons, htext, htexts, List.map_cons, List.flatMap_cons]
    · rw [headersAt, List.map_cons, hheaders, List.map_cons, nameAndValue, (hheader pos).1,
        (hheader pos).2]

/-! ## Heads -/

/-- What `phr_parse_response` says of a head. -/
structure ReadBack (head : Head) (response : Picohttp.Response) : Prop where
  minorVersion : response.minorVersion = 1
  status : response.status = head.status
  msg : response.msg = some head.reason
  headers : response.headers.map nameAndValue =
    head.fields.map fun field => (some field.1, field.2)

/-- The reason and the values of a head are printable. -/
structure PrintableHead (head : Head) : Prop where
  reason : Printable head.reason
  value : ∀ value ∈ head.fields.map Prod.snd, Printable value

/-- **Heads** are responses of the grammar. -/
theorem text_of_head {head : Head} (h : head.WellFormed) (hprint : PrintableHead head) :
    ∃ r : ResponseText, r.headers.lines.length = head.fields.length ∧
      statusLines.headText r = head.text ∧ ReadBack head r.response := by
  obtain ⟨lines, hlen, hfields, htexts, hheaders⟩ := exists_lines fun field hfield =>
    ⟨h.name _ (List.mem_map_of_mem hfield), h.value _ (List.mem_map_of_mem hfield),
      hprint.value _ (List.mem_map_of_mem hfield)⟩
  refine ⟨⟨⟨⟨⟨[49], List.forall_mem_singleton.mpr rfl⟩, by decide⟩, decimalDigits head.status,
    ⟨head.reason, hprint.reason⟩, .crlf⟩, ⟨lines, fun line hline =>
      hfields line (List.mem_of_mem_head? hline), .crlf⟩⟩, hlen, ?_, ?_⟩
  · have hversion : ascii "HTTP/1.1" = ascii "HTTP/1." ++ [49] := by decide
    change StatusLineText.text _ ++ (lines.flatMap (·.text) ++ Newline.crlf.text) = _
    rw [htexts]
    simp [StatusLineText.text, Newline.text, decimalDigits, Head.text, unlines, Head.statusLine,
      hversion, crlf]
  · exact ⟨(by decide : intValue [49] = 1), value_decimalDigits (by have := h.status; omega), rfl,
      hheaders _⟩

/-! ## The heads of the server -/

theorem printable_httpDate {t : ℤ} (h : 0 ≤ t ∧ t < 253402300800) :
    Printable (strftime httpTimeFormat (brokenDown t)) := by
  have hvalid := brokenDown_valid h
  have hweekday : ∀ i < 7, Printable (abbreviation weekdayNames i) := by decide
  have hmonth : ∀ i < 12, Printable (abbreviation monthNames i) := by decide
  have htwo : ∀ n < 100, Printable (twoDigits n) := fun n hn =>
    printable_digits (twoDigits_spec hn).2.1
  have hyear : Printable (signedDecimal (brokenDown t).year) := by
    rw [signedDecimal_of_nonneg (le_trans (by decide) hvalid.year.1)]
    exact printable_digits (decimal_digits _)
  have hcomma : Printable (ascii ", ") := by decide
  have hblank : Printable (ascii " ") := by decide
  have hcolon : Printable (ascii ":") := by decide
  have hzone : Printable (ascii "GMT") := by decide
  have hday := htwo _ (lt_of_le_of_lt hvalid.mday.2 (by decide))
  have hhour := htwo _ (lt_of_le_of_lt hvalid.hour (by decide))
  have hmin := htwo _ (lt_of_le_of_lt hvalid.min (by decide))
  have hsec := htwo _ (lt_of_le_of_lt hvalid.sec (by decide))
  rw [strftime_httpTimeFormat]
  exact printable_append (printable_append (printable_append (printable_append (printable_append
    (printable_append (printable_append (printable_append (printable_append (printable_append
    (printable_append (printable_append (printable_append (printable_append
    (hweekday _ hvalid.wday) hcomma) hday) hblank) (hmonth _ hvalid.mon)) hblank) hyear) hblank)
    hhour) hcolon) hmin) hcolon) hsec) hblank) hzone

theorem printable_contentRange (rangeStart rangeEnd fileSize : ℕ) :
    Printable (contentRange rangeStart rangeEnd fileSize) := by
  have hnumber : ∀ n, Printable (decimal n) := fun n => printable_digits (decimal_digits n)
  exact printable_append (by decide) (printable_cons (by decide) (printable_append (hnumber _)
    (printable_cons (by decide) (printable_append (hnumber _) (printable_cons (by decide)
      (hnumber _))))))

theorem printable_emptyHead {reason connection : String} (hr : Printable (ascii reason))
    (hc : Printable (ascii connection)) (status : ℕ) :
    PrintableHead (emptyHead status reason connection) := by
  refine ⟨hr, ?_⟩
  show ∀ value ∈ [ascii connection, decimal 0], Printable value
  simp only [List.forall_mem_cons]
  exact ⟨hc, printable_digits (decimal_digits 0), nofun⟩

theorem ServerHead.printable {head : Head} {n : ℕ} (h : ServerHead head n) :
    PrintableHead head := by
  have hnumber : ∀ n, Printable (decimal n) := fun n => printable_digits (decimal_digits n)
  cases h with
  | notModified => exact printable_emptyHead (by decide) (by decide) _
  | badRequest => exact printable_emptyHead (by decide) (by decide) _
  | notFound => exact printable_emptyHead (by decide) (by decide) _
  | @full t contentType ht hx =>
    have htype : ∀ x ∈ mimeTypes.map Prod.snd, Printable x := by decide +kernel
    refine ⟨(by decide : Printable (ascii "OK")), ?_⟩
    show ∀ value ∈ [ascii "keep-alive", strftime httpTimeFormat (brokenDown t),
      decimal n, contentType], Printable value
    simp only [List.forall_mem_cons]
    exact ⟨by decide, printable_httpDate ht, hnumber _, htype _ hx, nofun⟩
  | @partialContent t ht _ rangeStart rangeEnd fileSize =>
    refine ⟨(by decide : Printable (ascii "Partial Content")), ?_⟩
    show ∀ value ∈ [ascii "bytes", strftime httpTimeFormat (brokenDown t),
      contentRange rangeStart rangeEnd fileSize, decimal n], Printable value
    simp only [List.forall_mem_cons]
    exact ⟨by decide, printable_httpDate ht, printable_contentRange _ _ _, hnumber _, nofun⟩

theorem ServerHead.length_fields_le {head : Head} {n : ℕ} (h : ServerHead head n) :
    head.fields.length ≤ 4 := by
  cases h <;> simp [head200, head206, head304, head400, head404, emptyHead]

theorem Answers.length_head_le {fs : FileSystem} {r : Reply} (h : Answers fs r) :
    r.response.head.length ≤ maxBufferSize := by
  cases h with
  | refused => exact length_serve400_le
  | @answered memory request answer offset hanswer =>
    cases answer with
    | notFound => exact length_serve404_le
    | file found verdict =>
      obtain ⟨name, -, hvalue⟩ := findFile_eq_some (requestAnswer_eq_ok hanswer)
      exact verdict.length_head_le found.fileStat (mimeTypes_value _ hvalue).1 offset

/-- **Replies** are read back. In a buffer with the head of a reply, and in a call at which a
part of it was there before, `phr_parse_response` stops where the body begins, and gets what
the head says. -/
theorem phrParseResponse_reply {fs : FileSystem} (hfs : FourDigitYears fs) {r : Reply}
    (h : Answers fs r) {room lastLen : ℕ} (hroom : 4 ≤ room)
    (hlast : lastLen < r.response.head.length) (y : List UInt8) :
    ∃ (head : Head) (response : Picohttp.Response), head.text = r.response.head ∧
      head.contentLength = some r.response.announced ∧
      phrParseResponse (r.response.head ++ y) room lastLen =
        ((r.response.head.length : ℤ), response) ∧ ReadBack head response := by
  obtain ⟨head, hhead, htext⟩ := h.serverHead hfs
  obtain ⟨text, hlen, hresponse, hread⟩ := text_of_head hhead.wellFormed hhead.printable
  rw [htext] at hresponse
  refine ⟨head, text.response, htext, hhead.announces, ?_, hread⟩
  have hfields := hhead.length_fields_le
  have hfits : r.response.head.length < 2 ^ 31 := h.length_head_le.trans_lt (by decide)
  exact phrParseResponse_of_text (by omega) hresponse hfits hlast y

/-- The reply to a request that is refused, in the second call. -/
theorem phrParseResponse_reply_refused :
    ∃ (head : Head) (response : Picohttp.Response), head.text = serve400 ∧
      head.contentLength = some 0 ∧
      phrParseResponse (serve400 ++ serve404) 4 3 = ((serve400.length : ℤ), response) ∧
      ReadBack head response :=
  phrParseResponse_reply fourDigitYears_threeBytes .refused le_rfl (by decide +kernel) serve404

end Yotta.Server
