import Yotta.Lib.Time

/-!
# Response heads

Model of the `serve_*` functions (`http/yta_http.cpp`, lines 12–90). Each one is
the text it writes between `buf` and the pointer it returns; the NUL that
`sprintf` and `strftime` put behind their text is overwritten by the next copy.
`serve_200` and `serve_206` hand what `gmtime` returns to `strftime`, so they do not
return, which is `none`, where that is a null pointer.
-/

namespace Yotta.Http

open Yotta.Bytes Yotta.Numeral Yotta.Time

/-- `http_time_format()` (`yta_http.hpp`, line 26). -/
def httpTimeFormat : List UInt8 := ascii "%a, %d %b %Y %H:%M:%S %Z"

/-- What `serve_200` writes with the members of a time. -/
def text200 (contentLength : ℕ) (tm : Tm) (contentType : List UInt8) : List UInt8 :=
  ascii "HTTP/1.1 200 OK\r\nConnection: keep-alive\r\n" ++
  ascii "Last-Modified: " ++
  strftime httpTimeFormat tm ++
  ascii "\r\nContent-Length: " ++
  decimal contentLength ++
  ascii "\r\nContent-Type: " ++
  contentType ++
  ascii "\r\n\r\n"

/-- `serve_200` (lines 12–37). -/
def serve200 (contentLength : ℕ) (lastModified : ℤ) (contentType : List UInt8) :
    Option (List UInt8) := do
  let tm ← gmtime lastModified
  some (text200 contentLength tm contentType)

/-- `serve_304` (lines 39–43). -/
def serve304 : List UInt8 :=
  ascii "HTTP/1.1 304 Not Modified\r\nConnection: keep-alive\r\nContent-Length: 0\r\n\r\n"

/-- What `serve_206` writes with the members of a time. -/
def text206 (contentLength : ℕ) (tm : Tm) (rangeStart rangeEnd fileSize : ℕ) : List UInt8 :=
  ascii "HTTP/1.1 206 Partial Content\r\nAccept-Ranges: bytes" ++
  ascii "\r\nLast-Modified: " ++
  strftime httpTimeFormat tm ++
  ascii "\r\nContent-Range: bytes " ++
  decimal rangeStart ++
  ascii "-" ++
  decimal rangeEnd ++
  ascii "/" ++
  decimal fileSize ++
  ascii "\r\nContent-Length: " ++
  decimal contentLength ++
  ascii "\r\n\r\n"

/-- `serve_206` (lines 45–78). -/
def serve206 (contentLength : ℕ) (lastModified : ℤ) (rangeStart rangeEnd fileSize : ℕ) :
    Option (List UInt8) := do
  let tm ← gmtime lastModified
  some (text206 contentLength tm rangeStart rangeEnd fileSize)

/-- `serve_400` (lines 80–84). -/
def serve400 : List UInt8 :=
  ascii "HTTP/1.1 400 Bad Request\r\nConnection: close\r\nContent-Length: 0\r\n\r\n"

/-- `serve_404` (lines 86–90). -/
def serve404 : List UInt8 :=
  ascii "HTTP/1.1 404 Not Found\r\nConnection: keep-alive\r\nContent-Length: 0\r\n\r\n"

/-! ## Lengths -/

/-- The date of `Last-Modified`, field by field. -/
theorem strftime_httpTimeFormat (tm : Tm) :
    strftime httpTimeFormat tm =
      formatField 97 tm ++ ascii ", " ++ formatField 100 tm ++ ascii " " ++
        formatField 98 tm ++ ascii " " ++ formatField 89 tm ++ ascii " " ++
        formatField 72 tm ++ ascii ":" ++ formatField 77 tm ++ ascii ":" ++
        formatField 83 tm ++ ascii " " ++ formatField 90 tm := by
  have hformat : httpTimeFormat = [37, 97, 44, 32, 37, 100, 32, 37, 98, 32, 37, 89, 32, 37, 72, 58,
      37, 77, 58, 37, 83, 32, 37, 90] := by decide
  simp [hformat, strftime, ascii]

theorem length_httpDate_le {t : ℤ} (ht : -2 ^ 63 ≤ t ∧ t < 2 ^ 63) :
    (strftime httpTimeFormat (brokenDown t)).length ≤ 180 := by
  have h := length_formatField_le ht
  have hlen : (ascii ", ").length = 2 ∧ (ascii " ").length = 1 ∧ (ascii ":").length = 1 := by decide
  have h97 := h 97
  have h100 := h 100
  have h98 := h 98
  have h89 := h 89
  have h72 := h 72
  have h77 := h 77
  have h83 := h 83
  have h90 := h 90
  simp only [strftime_httpTimeFormat, List.length_append, hlen]
  omega

theorem length_text200_le {contentLength : ℕ} {lastModified : ℤ} {contentType : List UInt8}
    (hc : contentLength < 2 ^ 64) (ht : -2 ^ 63 ≤ lastModified ∧ lastModified < 2 ^ 63)
    (hx : contentType.length ≤ 71) :
    (text200 contentLength (brokenDown lastModified) contentType).length ≤ 2048 := by
  have h1 := length_httpDate_le ht
  have h2 := length_decimal_le_of_lt hc
  have hlen : (ascii "HTTP/1.1 200 OK\r\nConnection: keep-alive\r\n").length = 41 ∧
      (ascii "Last-Modified: ").length = 15 ∧ (ascii "\r\nContent-Length: ").length = 18 ∧
      (ascii "\r\nContent-Type: ").length = 16 ∧ (ascii "\r\n\r\n").length = 4 := by
    decide
  simp only [text200, List.length_append, hlen]
  omega

theorem length_text206_le {contentLength rangeStart rangeEnd fileSize : ℕ} {lastModified : ℤ}
    (hc : contentLength < 2 ^ 64) (ht : -2 ^ 63 ≤ lastModified ∧ lastModified < 2 ^ 63)
    (hs : rangeStart < 2 ^ 64) (he : rangeEnd < 2 ^ 64) (hf : fileSize < 2 ^ 64) :
    (text206 contentLength (brokenDown lastModified) rangeStart rangeEnd fileSize).length ≤ 2048 := by
  have h1 := length_httpDate_le ht
  have h2 := length_decimal_le_of_lt hc
  have h3 := length_decimal_le_of_lt hs
  have h4 := length_decimal_le_of_lt he
  have h5 := length_decimal_le_of_lt hf
  have hlen : (ascii "HTTP/1.1 206 Partial Content\r\nAccept-Ranges: bytes").length = 50 ∧
      (ascii "\r\nLast-Modified: ").length = 17 ∧ (ascii "\r\nContent-Range: bytes ").length = 23 ∧
      (ascii "-").length = 1 ∧ (ascii "/").length = 1 ∧
      (ascii "\r\nContent-Length: ").length = 18 ∧ (ascii "\r\n\r\n").length = 4 := by
    decide
  simp only [text206, List.length_append, hlen]
  omega

theorem length_serve304_le : serve304.length ≤ 2048 := by decide
theorem length_serve400_le : serve400.length ≤ 2048 := by decide
theorem length_serve404_le : serve404.length ≤ 2048 := by decide

theorem serve404_ne_serve400 : serve404 ≠ serve400 := by decide

theorem serve304_ne_serve400 : serve304 ≠ serve400 := by decide

theorem text200_ne_text206 (n : ℕ) (tm : Tm) (contentType : List UInt8) (n' : ℕ) (tm' : Tm)
    (first last size : ℕ) : text200 n tm contentType ≠ text206 n' tm' first last size := by
  intro h
  have h200 : (text200 n tm contentType).take 12 = ascii "HTTP/1.1 200" := by
    simp only [text200, List.append_assoc]
    rw [List.take_append_of_le_length (by decide)]
    decide
  have h206 : (text206 n' tm' first last size).take 12 = ascii "HTTP/1.1 206" := by
    simp only [text206, List.append_assoc]
    rw [List.take_append_of_le_length (by decide)]
    decide
  rw [h, h206] at h200
  exact absurd h200 (by decide)

end Yotta.Http
