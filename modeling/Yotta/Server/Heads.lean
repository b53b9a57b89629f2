import Yotta.Http.Heads
import Yotta.Server.Url

/-!
# The heads of the responses to clients

Result:
* `serve_decodes`: a client that parses what `serve_200` and `serve_206` write
  (`http/yta_http.cpp`, lines 12–37 and 45–78) reads up to the returned pointer, and gets
  back what they were given.
-/

namespace Yotta.Server

open Yotta.Bytes Yotta.Http Yotta.MessageHead Yotta.Numeral Yotta.Time

/-- A client reads `text` as a head, exactly to its end, whatever follows it. -/
structure ReadAs (text : List UInt8) (head : Head) : Prop where
  fits : text.length ≤ maxBufferSize
  parse : ∀ rest, parseHead (text ++ rest) = some (head, rest)

/-- A response with a whole file is written, and this is what a client reads of it. -/
def Decodes200 (written : Option (List UInt8)) (contentLength : ℕ) (lastModified : ℤ)
    (contentType : List UInt8) : Prop :=
  ∃ text head, written = some text ∧ ReadAs text head ∧ head.status = 200 ∧
    (head.valuesOf "Content-Length").map decodeDecimal = [some contentLength] ∧
    (head.valuesOf "Last-Modified").map decodeDate = [some lastModified] ∧
    head.valuesOf "Content-Type" = [contentType]

/-- A response with a range is written, and this is what a client reads of it. -/
def Decodes206 (written : Option (List UInt8)) (contentLength : ℕ) (lastModified : ℤ)
    (rangeStart rangeEnd fileSize : ℕ) : Prop :=
  ∃ text head, written = some text ∧ ReadAs text head ∧ head.status = 206 ∧
    (head.valuesOf "Content-Length").map decodeDecimal = [some contentLength] ∧
    (head.valuesOf "Last-Modified").map decodeDate = [some lastModified] ∧
    (head.valuesOf "Content-Range").map decodeContentRange =
      [some (rangeStart, rangeEnd, fileSize)]

theorem mimeTypes_value : ∀ contentType ∈ mimeTypes.map Prod.snd,
    contentType.length ≤ 71 ∧ IsValue contentType := by
  decide +kernel

theorem serve200_decodes {contentLength : ℕ} {lastModified : ℤ} {contentType : List UInt8}
    (hc : contentLength < 2 ^ 64) (ht : 0 ≤ lastModified ∧ lastModified < 253402300800)
    (hx : contentType.length ≤ 71 ∧ IsValue contentType) :
    Decodes200 (serve200 contentLength lastModified contentType) contentLength lastModified
      contentType := by
  have hfits := length_text200_le hc (by omega : -2 ^ 63 ≤ lastModified ∧ lastModified < 2 ^ 63)
    hx.1
  rw [text200_eq] at hfits
  refine ⟨_, head200 contentLength lastModified contentType,
    serve200_eq (representable_of_fourDigits ht) _ _, ⟨hfits, fun rest => ?_⟩, ?_⟩
  · rw [parseHead_text (wellFormed_head200 ht hx.2 _)]
  · refine ⟨rfl, ?_, ?_, rfl⟩
    · exact congrArg (fun x => [x]) (decodeDecimal_decimal contentLength)
    · exact congrArg (fun x => [x]) (decodeDate_httpDate ht)

theorem serve206_decodes {contentLength rangeStart rangeEnd fileSize : ℕ} {lastModified : ℤ}
    (hc : contentLength < 2 ^ 64) (ht : 0 ≤ lastModified ∧ lastModified < 253402300800)
    (hs : rangeStart < 2 ^ 64) (he : rangeEnd < 2 ^ 64) (hf : fileSize < 2 ^ 64) :
    Decodes206 (serve206 contentLength lastModified rangeStart rangeEnd fileSize) contentLength
      lastModified rangeStart rangeEnd fileSize := by
  have hfits := length_text206_le hc (by omega : -2 ^ 63 ≤ lastModified ∧ lastModified < 2 ^ 63)
    hs he hf
  rw [text206_eq] at hfits
  refine ⟨_, head206 contentLength lastModified rangeStart rangeEnd fileSize,
    serve206_eq (representable_of_fourDigits ht) _ _ _ _, ⟨hfits, fun rest => ?_⟩, ?_⟩
  · rw [parseHead_text (wellFormed_head206 ht _ _ _ _)]
  · refine ⟨rfl, ?_, ?_, ?_⟩
    · exact congrArg (fun x => [x]) (decodeDecimal_decimal contentLength)
    · exact congrArg (fun x => [x]) (decodeDate_httpDate ht)
    · exact congrArg (fun x => [x]) (decodeContentRange_contentRange rangeStart rangeEnd fileSize)

/-- **Response heads** decode to what was encoded. -/
theorem serve_decodes {contentLength rangeStart rangeEnd fileSize : ℕ} {lastModified : ℤ}
    {contentType : List UInt8} (hc : contentLength < 2 ^ 64) (hs : rangeStart < 2 ^ 64)
    (he : rangeEnd < 2 ^ 64) (hf : fileSize < 2 ^ 64)
    (ht : 0 ≤ lastModified ∧ lastModified < 253402300800)
    (hx : contentType ∈ mimeTypes.map Prod.snd) :
    Decodes200 (serve200 contentLength lastModified contentType) contentLength lastModified
        contentType ∧
      Decodes206 (serve206 contentLength lastModified rangeStart rangeEnd fileSize) contentLength
        lastModified rangeStart rangeEnd fileSize :=
  ⟨serve200_decodes hc ht (mimeTypes_value contentType hx), serve206_decodes hc ht hs he hf⟩

theorem serve_decodes_1994 :
    Decodes200 (serve200 11 784111777 (ascii "text/html")) 11 784111777 (ascii "text/html") ∧
      Decodes206 (serve206 11 784111777 2 12 200) 11 784111777 2 12 200 :=
  serve_decodes (by decide) (by decide) (by decide) (by decide) (by decide) (by decide +kernel)

end Yotta.Server
