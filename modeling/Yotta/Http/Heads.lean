import Yotta.Http.Date
import Yotta.Lib.MessageStream

/-!
# The heads that the `serve_` functions write

Results:
* `text200_eq` to `serve404_eq`: what they write is the text of a head.
* `wellFormed_head200` to `wellFormed_emptyHead`: the head is well-formed.
* `decodeDate_httpDate` and `decodeContentRange_contentRange`: the fields decode to what was
  encoded.
-/

namespace Yotta.Http

open Yotta.Bytes Yotta.MessageHead Yotta.Numeral Yotta.Time

/-- The value of `Content-Range` that `serve_206` writes. -/
def contentRange (rangeStart rangeEnd fileSize : ℕ) : List UInt8 :=
  ascii "bytes" ++ space :: (decimal rangeStart ++ minus :: (decimal rangeEnd ++ slash ::
    decimal fileSize))

def head200 (contentLength : ℕ) (lastModified : ℤ) (contentType : List UInt8) : Head where
  status := 200
  reason := ascii "OK"
  fields := [(ascii "Connection", ascii "keep-alive"),
    (ascii "Last-Modified", strftime httpTimeFormat (brokenDown lastModified)),
    (ascii "Content-Length", decimal contentLength),
    (ascii "Content-Type", contentType)]

def head206 (contentLength : ℕ) (lastModified : ℤ) (rangeStart rangeEnd fileSize : ℕ) : Head where
  status := 206
  reason := ascii "Partial Content"
  fields := [(ascii "Accept-Ranges", ascii "bytes"),
    (ascii "Last-Modified", strftime httpTimeFormat (brokenDown lastModified)),
    (ascii "Content-Range", contentRange rangeStart rangeEnd fileSize),
    (ascii "Content-Length", decimal contentLength)]

/-- A head without a body, which closes the connection or keeps it. -/
def emptyHead (status : ℕ) (reason connection : String) : Head where
  status := status
  reason := ascii reason
  fields := [(ascii "Connection", ascii connection), (ascii "Content-Length", decimal 0)]

def head304 : Head := emptyHead 304 "Not Modified" "keep-alive"
def head400 : Head := emptyHead 400 "Bad Request" "close"
def head404 : Head := emptyHead 404 "Not Found" "keep-alive"

/-! ## Decoders -/

/-- The time of a date. -/
def decodeDate (s : List UInt8) : Option ℤ :=
  (strptime httpTimeFormat s (brokenDown 0)).bind fun tm =>
    if strftime httpTimeFormat tm = s then some (timegm tm) else none

/-- The first and the last byte of a range, and the length of the whole. -/
def decodeContentRange (s : List UInt8) : Option (ℕ × ℕ × ℕ) := do
  let (unit, s) ← cut space s
  let (first, s) ← cut minus s
  let (last, total) ← cut slash s
  if unit = ascii "bytes" then
    some (← decodeDecimal first, ← decodeDecimal last, ← decodeDecimal total)
  else none

theorem decodeDate_httpDate {t : ℤ} (h : 0 ≤ t ∧ t < 253402300800) :
    decodeDate (strftime httpTimeFormat (brokenDown t)) = some t := by
  have hread := strptime_httpDate (brokenDown_valid h) [] (brokenDown 0)
  rw [List.append_nil] at hread
  unfold decodeDate
  rw [hread, Option.bind_some, if_pos rfl, timegm_brokenDown]

theorem decodeContentRange_contentRange (rangeStart rangeEnd fileSize : ℕ) :
    decodeContentRange (contentRange rangeStart rangeEnd fileSize) =
      some (rangeStart, rangeEnd, fileSize) := by
  have hnot : ∀ c, isDigit c = false → ∀ n, c ∉ decimal n := by
    intro c hc n hmem
    rw [decimal_digits n c hmem] at hc
    cases hc
  have hunit : ∀ s, cut space (ascii "bytes" ++ space :: s) = some (ascii "bytes", s) :=
    cut_append (by decide)
  unfold decodeContentRange contentRange
  simp only [hunit, cut_append (hnot minus (by decide) _), cut_append (hnot slash (by decide) _),
    decodeDecimal_decimal, Option.bind_eq_bind, Option.bind_some, if_true]

/-! ## Texts -/

theorem text200_eq (contentLength : ℕ) (lastModified : ℤ) (contentType : List UInt8) :
    text200 contentLength (brokenDown lastModified) contentType =
      (head200 contentLength lastModified contentType).text := by
  have hstatus : decimal 200 = ascii "200" := by decide
  simp [text200, Head.text, unlines, head200, fieldLine, Head.statusLine, crlf, hstatus, ascii]

theorem text206_eq (contentLength : ℕ) (lastModified : ℤ) (rangeStart rangeEnd fileSize : ℕ) :
    text206 contentLength (brokenDown lastModified) rangeStart rangeEnd fileSize =
      (head206 contentLength lastModified rangeStart rangeEnd fileSize).text := by
  have hstatus : decimal 206 = ascii "206" := by decide
  simp [text206, Head.text, unlines, head206, fieldLine, Head.statusLine, crlf, hstatus, ascii,
    contentRange]

/-- `serve_200` writes a head where `gmtime` succeeds. -/
theorem serve200_eq {lastModified : ℤ} (h : Representable lastModified) (contentLength : ℕ)
    (contentType : List UInt8) : serve200 contentLength lastModified contentType =
      some (head200 contentLength lastModified contentType).text := by
  rw [serve200, gmtime_of_representable h, ← text200_eq]
  rfl

@[inherit_doc serve200_eq]
theorem serve206_eq {lastModified : ℤ} (h : Representable lastModified)
    (contentLength rangeStart rangeEnd fileSize : ℕ) :
    serve206 contentLength lastModified rangeStart rangeEnd fileSize =
      some (head206 contentLength lastModified rangeStart rangeEnd fileSize).text := by
  rw [serve206, gmtime_of_representable h, ← text206_eq]
  rfl

theorem serve304_eq : serve304 = head304.text := by decide +kernel
theorem serve400_eq : serve400 = head400.text := by decide +kernel
theorem serve404_eq : serve404 = head404.text := by decide +kernel

/-! ## Values -/

theorem isValue_contentRange (rangeStart rangeEnd fileSize : ℕ) :
    IsValue (contentRange rangeStart rangeEnd fileSize) := by
  have hline : IsLine (contentRange rangeStart rangeEnd fileSize) := by
    refine isLine_append.mpr ⟨by decide, isLine_cons (by decide) (by decide) ?_⟩
    refine isLine_append.mpr ⟨isLine_digits (decimal_digits _),
      isLine_cons (by decide) (by decide) ?_⟩
    exact isLine_append.mpr ⟨isLine_digits (decimal_digits _),
      isLine_cons (by decide) (by decide) (isLine_digits (decimal_digits _))⟩
  have hsplit : contentRange rangeStart rangeEnd fileSize = ascii "bytes" ++
      (space :: (decimal rangeStart ++ minus :: (decimal rangeEnd ++ [slash])) ++
        decimal fileSize) := by
    simp [contentRange]
  refine ⟨hline, ?_⟩
  rw [hsplit]
  exact trim_between (by decide) (decimal_ne_nil _) (by decide +kernel) fun c hc =>
    not_isBlank_of_digit (decimal_digits _ c (List.mem_of_getLast? hc))

theorem isValue_httpDate {t : ℤ} (h : 0 ≤ t ∧ t < 253402300800) :
    IsValue (strftime httpTimeFormat (brokenDown t)) := by
  have hvalid := brokenDown_valid h
  have hweekday : ∀ i < 7, IsLine (abbreviation weekdayNames i) ∧
      abbreviation weekdayNames i ≠ [] ∧
      ∀ c ∈ (abbreviation weekdayNames i).head?, isBlank c = false := by
    decide +kernel
  have hmonth : ∀ i < 12, IsLine (abbreviation monthNames i) := by decide
  have htwo : ∀ n < 100, IsLine (twoDigits n) := fun n hn => isLine_digits (twoDigits_spec hn).2.1
  have hyear : IsLine (signedDecimal (brokenDown t).year) := by
    rw [signedDecimal_of_nonneg (le_trans (by decide) hvalid.year.1)]
    exact isLine_digits (decimal_digits _)
  obtain ⟨hline, hne, hhead⟩ := hweekday _ hvalid.wday
  rw [strftime_httpTimeFormat]
  constructor
  · simp only [isLine_append]
    refine ⟨⟨⟨⟨⟨⟨⟨⟨⟨⟨⟨⟨⟨⟨hline, ?_⟩, ?_⟩, ?_⟩, ?_⟩, ?_⟩, ?_⟩, ?_⟩, ?_⟩, ?_⟩, ?_⟩, ?_⟩, ?_⟩, ?_⟩, ?_⟩
    · decide
    · exact htwo _ (lt_of_le_of_lt hvalid.mday.2 (by decide))
    · decide
    · exact hmonth _ hvalid.mon
    · decide
    · exact hyear
    · decide
    · exact htwo _ (lt_of_le_of_lt hvalid.hour (by decide))
    · decide
    · exact htwo _ (lt_of_le_of_lt hvalid.min (by decide))
    · decide
    · exact htwo _ (lt_of_le_of_lt hvalid.sec (by decide))
    · decide
    · exact (by decide : IsLine (ascii "GMT"))
  · simp only [List.append_assoc (formatField 97 _)]
    exact trim_between hne (by decide : ascii "GMT" ≠ []) hhead
      (by decide +kernel : ∀ c ∈ (ascii "GMT").getLast?, isBlank c = false)

/-! ## Well-formedness -/

theorem wellFormed_head200 {lastModified : ℤ} {contentType : List UInt8}
    (ht : 0 ≤ lastModified ∧ lastModified < 253402300800) (hx : IsValue contentType)
    (contentLength : ℕ) : (head200 contentLength lastModified contentType).WellFormed where
  status := (by decide : 100 ≤ 200 ∧ 200 < 1000)
  reason := (by decide : IsLine (ascii "OK"))
  name := by
    show ∀ name ∈ [ascii "Connection", ascii "Last-Modified", ascii "Content-Length",
      ascii "Content-Type"], name ≠ [] ∧ name.all isTchar = true
    decide
  value := by
    show ∀ value ∈ [ascii "keep-alive", strftime httpTimeFormat (brokenDown lastModified),
      decimal contentLength, contentType], IsValue value
    simp only [List.forall_mem_cons]
    exact ⟨by decide, isValue_httpDate ht, isValue_decimal _, hx, nofun⟩

theorem wellFormed_head206 {lastModified : ℤ}
    (ht : 0 ≤ lastModified ∧ lastModified < 253402300800)
    (contentLength rangeStart rangeEnd fileSize : ℕ) :
    (head206 contentLength lastModified rangeStart rangeEnd fileSize).WellFormed where
  status := (by decide : 100 ≤ 206 ∧ 206 < 1000)
  reason := (by decide : IsLine (ascii "Partial Content"))
  name := by
    show ∀ name ∈ [ascii "Accept-Ranges", ascii "Last-Modified", ascii "Content-Range",
      ascii "Content-Length"], name ≠ [] ∧ name.all isTchar = true
    decide
  value := by
    show ∀ value ∈ [ascii "bytes", strftime httpTimeFormat (brokenDown lastModified),
      contentRange rangeStart rangeEnd fileSize, decimal contentLength], IsValue value
    simp only [List.forall_mem_cons]
    exact ⟨by decide, isValue_httpDate ht, isValue_contentRange _ _ _,
      isValue_decimal _, nofun⟩

theorem wellFormed_emptyHead {status : ℕ} {reason connection : String}
    (hs : 100 ≤ status ∧ status < 1000) (hr : IsLine (ascii reason))
    (hc : IsValue (ascii connection)) : (emptyHead status reason connection).WellFormed where
  status := hs
  reason := hr
  name := by
    show ∀ name ∈ [ascii "Connection", ascii "Content-Length"], name ≠ [] ∧ name.all isTchar = true
    decide
  value := by
    show ∀ value ∈ [ascii connection, decimal 0], IsValue value
    simp only [List.forall_mem_cons]
    exact ⟨hc, isValue_decimal 0, nofun⟩

theorem wellFormed_head304 : head304.WellFormed :=
  wellFormed_emptyHead (by decide) (by decide) (by decide)

theorem wellFormed_head400 : head400.WellFormed :=
  wellFormed_emptyHead (by decide) (by decide) (by decide)

theorem wellFormed_head404 : head404.WellFormed :=
  wellFormed_emptyHead (by decide) (by decide) (by decide)

/-! ## Lengths of bodies -/

theorem contentLength_emptyHead (status : ℕ) (reason connection : String) :
    (emptyHead status reason connection).contentLength = some 0 := decodeDecimal_decimal 0

theorem contentLength_head200 (contentLength : ℕ) (lastModified : ℤ) (contentType : List UInt8) :
    (head200 contentLength lastModified contentType).contentLength = some contentLength :=
  decodeDecimal_decimal contentLength

theorem contentLength_head206 (contentLength : ℕ) (lastModified : ℤ)
    (rangeStart rangeEnd fileSize : ℕ) :
    (head206 contentLength lastModified rangeStart rangeEnd fileSize).contentLength =
      some contentLength :=
  decodeDecimal_decimal contentLength

end Yotta.Http
