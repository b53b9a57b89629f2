import Yotta.Lib.Numeral
import Yotta.Lib.Scan

/-!
# `phr_parse_request`

Model of the request parser (`picohttpparser/picohttpparser.c`, lines 49–393)
as it is built here: without SSE 4.2, so that `findchar_fast` returns its
argument with `found = 0`, and with `char` signed. A pointer `buf` is kept as
the bytes from it to `buf_end`; `CHECK_EOF` is the end of that list. `*ret = -2`
is `Scan.eof` and `*ret = -1` is `Scan.bad`.

A token is kept as its bytes; a header value also as its position in the
buffer, since `yotta.cpp` hands the bare pointer on. A call that does not
succeed leaves `num_headers` at the number of headers it has read completely,
and the other output parameters as far as they were stored (`stored`).
-/

namespace Yotta.Picohttp

open Yotta.Bytes Yotta.Numeral

abbrev Scan := Yotta.Scan UInt8

/-! ## Characters and tokens -/

/-- `IS_PRINTABLE_ASCII(c)` (line 55). -/
def isPrintableAscii (c : UInt8) : Bool := c - 0o40 < 0o137

/-- `token_char_map` (lines 95–103). -/
def tokenCharMap : List UInt8 :=
  (ascii ("00000000000000000000000000000000" ++ "01111111001101101111111111000000" ++
    "01111111111111111111111111100011" ++ "11111111111111111111111111101010")).map (· - 48) ++
  List.replicate 128 0

/-- `c < ' '` on a signed `char`. -/
def belowSpace (c : UInt8) : Bool := c < 0o40 || c ≥ 0o200

/-- `EXPECT_CHAR(ch)` (lines 63–68). -/
def expectChar (ch : UInt8) : List UInt8 → Scan Unit
  | [] => .eof
  | c :: s => if c = ch then .done () s else .bad

/-- A sequence of `EXPECT_CHAR`s. -/
def expectChars : List UInt8 → List UInt8 → Scan Unit
  | [], s => .done () s
  | ch :: chs, s => (expectChar ch s).bind fun _ s => expectChars chs s

/-- `ADVANCE_TOKEN` (lines 70–93): the token, and the space behind it with what
follows. -/
def advanceToken : List UInt8 → Scan (List UInt8)
  | [] => .eof
  | c :: s =>
    if c = space then .done [] (c :: s)
    else if !isPrintableAscii c && (c < 0o40 || c == 0o177) then .bad
    else (advanceToken s).map (c :: ·)

/-- `FOUND_CTL` of `get_token_to_eol` (lines 189–203). -/
def foundCtl (c : UInt8) (s : List UInt8) : Scan (List UInt8) :=
  if c = cr then (expectChar lf s).map fun _ => []
  else if c = lf then .done [] s
  else .bad

/-- `get_token_to_eol` (lines 136–204). The hand-inlined loop over eight bytes
makes the same test as the one behind it. -/
def getTokenToEol : List UInt8 → Scan (List UInt8)
  | [] => .eof
  | c :: s =>
    if !isPrintableAscii c && (c < 0o40 && c != ht || c == 0o177) then foundCtl c s
    else (getTokenToEol s).map (c :: ·)

/-- The loop of `is_complete`, with `ret_cnt = retCnt`. -/
def isCompleteFrom (retCnt : ℕ) : List UInt8 → Scan Unit
  | [] => .eof
  | c :: s =>
    if c = cr then
      match s with
      | [] => .eof
      | d :: s =>
        if d ≠ lf then .bad
        else if retCnt + 1 = 2 then .done () s else isCompleteFrom (retCnt + 1) s
    else if c = lf then
      if retCnt + 1 = 2 then .done () s else isCompleteFrom (retCnt + 1) s
    else isCompleteFrom 0 s

/-- `is_complete` (lines 206–232). -/
def isComplete (buf : List UInt8) (lastLen : ℕ) : Scan Unit :=
  isCompleteFrom 0 (if lastLen < 3 then buf else buf.drop (lastLen - 3))

/-! ## The request line -/

/-- The loop of `parse_int`; `int` overflow wraps, and nobody reads the value. -/
def parseDigits (v : ℤ) : List UInt8 → Scan ℤ
  | [] => .eof
  | c :: s =>
    if isDigit c then parseDigits (Int.bmod (v * 10 + (c.toNat - 48)) (2 ^ 32)) s
    else .done v (c :: s)

/-- `parse_int` (lines 235–254). -/
def parseInt : List UInt8 → Scan ℤ
  | [] => .eof
  | c :: s => if isDigit c then parseDigits 0 (c :: s) else .bad

/-- `parse_http_version` (lines 257–267). -/
def parseHttpVersion (s : List UInt8) : Scan ℤ :=
  (expectChars (ascii "HTTP/1.") s).bind fun _ s => parseInt s

/-- `*buf == CR` and then `EXPECT_CHAR(LF)`, or `*buf == LF`. -/
def newline (c : UInt8) (s : List UInt8) : Scan Unit :=
  if c = cr then expectChar lf s else if c = lf then .done () s else .bad

/-- The end of the request line (lines 352–360). -/
def endOfLine : List UInt8 → Scan Unit
  | [] => .eof
  | c :: s => newline c s

/-- The empty line that may stand in front of a request (lines 335–342). -/
def skipEmptyLine : List UInt8 → Scan Unit
  | [] => .eof
  | c :: s => if c = cr || c = lf then newline c s else .done () (c :: s)

/-- A request line: method, path and minor version (lines 335–360). -/
def requestLine (s : List UInt8) : Scan (List UInt8 × List UInt8 × ℤ) :=
  (skipEmptyLine s).bind fun _ s =>
  (advanceToken s).bind fun method s =>
  (advanceToken (s.drop 1)).bind fun path s =>
  (parseHttpVersion (s.drop 1)).bind fun minorVersion s =>
  (endOfLine s).map fun _ => (method, path, minorVersion)

/-! ## Headers -/

/-- `struct phr_header`; `name = none` is the `NULL` of a continuation line, and
`valueAt` is the position of the value in the buffer. -/
structure PhrHeader where
  name : Option (List UInt8)
  value : List UInt8
  valueAt : ℕ
deriving DecidableEq

/-- A header name and the `:` behind it (lines 295–311). -/
def headerName : List UInt8 → Scan (List UInt8)
  | [] => .eof
  | c :: s =>
    if c = 58 then .done [] s
    else if belowSpace c then .bad
    else (headerName s).map (c :: ·)

/-- The blanks in front of a header value, and how many there are (lines 312–317). -/
def skipBlanks : List UInt8 → Scan ℕ
  | [] => .eof
  | c :: s => if c = space || c = ht then (skipBlanks s).map (· + 1) else .done 0 (c :: s)

/-- A header value at the position `valueAt`. -/
def headerValue (name : Option (List UInt8)) (valueAt : ℕ) (s : List UInt8) : Scan PhrHeader :=
  (getTokenToEol s).map fun value => { name, value, valueAt }

/-- One round of the loop of `parse_headers` behind the test for the empty line
(lines 286–325), on a line at the position `pos`; `first` is `*num_headers == 0`. -/
def headerLine (pos : ℕ) (first : Bool) : List UInt8 → Scan PhrHeader
  | [] => .eof
  | c :: s =>
    if !(!first && (c == space || c == ht)) then
      if tokenCharMap.getD c.toNat 0 = 0 then .bad
      else
        (headerName (c :: s)).bind fun name s =>
        (skipBlanks s).bind fun blanks s =>
        headerValue (some name) (pos + name.length + 1 + blanks) s
    else headerValue none pos (c :: s)

/-- `parse_headers` (lines 269–328), in a buffer of `len` bytes: the outcome, and
the headers read completely. Every round reads at least one byte, so that the number of bytes is
enough rounds. -/
def parseHeaders (maxHeaders len : ℕ) :
    ℕ → List PhrHeader → List UInt8 → Scan Unit × List PhrHeader
  | 0, headers, _ => (.eof, headers)
  | n + 1, headers, s =>
    match s with
    | [] => (.eof, headers)
    | c :: s =>
      if c = cr || c = lf then (newline c s, headers)
      else if headers.length = maxHeaders then (.bad, headers)
      else
        match headerLine (len - (s.length + 1)) headers.isEmpty (c :: s) with
        | .done h rest => parseHeaders maxHeaders len n (headers ++ [h]) rest
        | .eof => (.eof, headers)
        | .bad => (.bad, headers)

/-! ## Requests -/

/-- The output parameters of `phr_parse_request`; `*num_headers` is the length of
`headers`. -/
structure Request where
  method : Option (List UInt8)
  path : Option (List UInt8)
  minorVersion : ℤ
  headers : List PhrHeader
deriving DecidableEq

/-- What `phr_parse_request` sets before it parses (lines 373–378). -/
def Request.empty : Request := { method := none, path := none, minorVersion := -1, headers := [] }

/-- The output parameters behind a request line that is not read to its end: `ADVANCE_TOKEN`,
here `token`, and `parse_int` store what they have read before the next step can fail. -/
def stored (token : List UInt8 → Scan (List UInt8)) (s : List UInt8) : Request :=
  match skipEmptyLine s with
  | .done _ s =>
    match token s with
    | .done method s =>
      match token (s.drop 1) with
      | .done path s =>
        match parseHttpVersion (s.drop 1) with
        | .done minorVersion _ =>
          { method := some method, path := some path, minorVersion, headers := [] }
        | _ => { Request.empty with method := some method, path := some path }
      | _ => { Request.empty with method := some method }
    | _ => .empty
  | _ => .empty

/-- `parse_request` (lines 330–363). -/
def parseRequest (maxHeaders : ℕ) (buf : List UInt8) : Scan Unit × Request :=
  match requestLine buf with
  | .done (method, path, minorVersion) s =>
    let (res, headers) := parseHeaders maxHeaders buf.length (s.length + 1) [] s
    (res, { method := some method, path := some path, minorVersion, headers })
  | .eof => (.eof, stored advanceToken buf)
  | .bad => (.bad, stored advanceToken buf)

/-- `phr_parse_request` (lines 365–393) with `*num_headers = numHeaders` on
entry: the number of bytes consumed, `-1` or `-2`, and the output parameters. -/
def phrParseRequest (buf : List UInt8) (numHeaders lastLen : ℕ) : ℤ × Request :=
  let maxHeaders := numHeaders
  match if lastLen ≠ 0 then isComplete buf lastLen else .done () buf with
  | .eof => (-2, .empty)
  | .bad => (-1, .empty)
  | .done _ _ =>
    match parseRequest maxHeaders buf with
    | (.eof, r) => (-2, r)
    | (.bad, r) => (-1, r)
    | (.done _ rest, r) => (toInt (buf.length - rest.length), r)

end Yotta.Picohttp
