import Yotta.Picohttp.Grammar

/-!
# The fast paths of the request parser

Without SSE 4.2, `get_token_to_eol` first takes eight bytes in a row; with it, `findchar_fast`
skips blocks of sixteen bytes in front of three loops (`picohttpparser/picohttpparser.c`, lines
74–77, 105–134, 142–180 and 298–301).

Results:
* `getTokenToEolUnrolled_eq`: the loop that takes eight bytes in a row changes nothing.
* `phrParseRequest_sse`: with SSE 4.2 the parser answers and stores the same as without it, on
  every buffer of ASCII characters and on every buffer that the plain parser does not refuse. It
  does accept header names that the plain parser refuses.
-/

namespace Yotta.Picohttp

open Yotta.Bytes Yotta.Numeral Yotta.Scan

/-! ## `findchar_fast` -/

/-- A byte in one of the ranges, as `_SIDD_CMP_RANGES | _SIDD_UBYTE_OPS` compares. -/
def inRanges (ranges : List (UInt8 × UInt8)) (c : UInt8) : Bool :=
  ranges.any fun (lo, hi) => lo ≤ c && c ≤ hi

/-- `_mm_cmpestri` on a block: the least index of a byte in the ranges, or the length of the
block. -/
def cmpestri (ranges : List (UInt8 × UInt8)) (block : List UInt8) : ℕ :=
  block.findIdx (inRanges ranges)

/-- The loop of `findchar_fast` over the blocks that are left: `buf` and `*found`. -/
def findcharBlocks (ranges : List (UInt8 × UInt8)) : ℕ → List UInt8 → List UInt8 × Bool
  | 0, buf => (buf, false)
  | left + 1, buf =>
    let r := cmpestri ranges (buf.take 16)
    if r ≠ 16 then (buf.drop r, true) else findcharBlocks ranges left (buf.drop 16)

/-- `findchar_fast` (lines 105–134). -/
def findcharFast (ranges : List (UInt8 × UInt8)) (buf : List UInt8) : List UInt8 × Bool :=
  if 16 ≤ buf.length then findcharBlocks ranges (buf.length / 16) buf else (buf, false)

/-- `ranges2` of `ADVANCE_TOKEN`. -/
def tokenRanges : List (UInt8 × UInt8) := [(0o000, 0o040), (0o177, 0o177)]

/-- `ranges1` of `get_token_to_eol`. -/
def valueRanges : List (UInt8 × UInt8) := [(0o0, 0o010), (0o012, 0o037), (0o177, 0o177)]

/-- `ranges1` of `parse_headers`. -/
def nameRanges : List (UInt8 × UInt8) := [(58, 58), (0x00, 0o037)]

/-! ## Loops behind a fast path -/

/-- What a token has of `s` where its loop starts at `buf`. -/
def skipped (s buf : List UInt8) : List UInt8 := s.take (s.length - buf.length)

/-- A loop that starts where `findchar_fast` leaves off. -/
def behind (ranges : List (UInt8 × UInt8)) (loop : List UInt8 → Scan (List UInt8))
    (s : List UInt8) : Scan (List UInt8) :=
  let (buf, found) := findcharFast ranges s
  if !found && buf.isEmpty then .eof else (loop buf).map (skipped s buf ++ ·)

/-- The end of `get_token_to_eol`, at `FOUND_CTL` or in the loop in front of it. -/
def toEolBehind (s buf : List UInt8) (foundCtlHere : Bool) : Scan (List UInt8) :=
  if foundCtlHere then
    match buf with
    | [] => .eof
    | c :: t => (foundCtl c t).map (skipped s buf ++ ·)
  else (getTokenToEol buf).map (skipped s buf ++ ·)

/-- `ADVANCE_TOKEN` with SSE 4.2. -/
def advanceTokenSse : List UInt8 → Scan (List UInt8) := behind tokenRanges advanceToken

/-- The name of a header with SSE 4.2. -/
def headerNameSse : List UInt8 → Scan (List UInt8) := behind nameRanges headerName

/-- `get_token_to_eol` with SSE 4.2. -/
def getTokenToEolSse (s : List UInt8) : Scan (List UInt8) :=
  let (buf, found) := findcharFast valueRanges s
  toEolBehind s buf found

/-- The `DOIT()`s of a round: `buf`, and whether `NonPrintable` is reached. -/
def doit : ℕ → List UInt8 → List UInt8 × Bool
  | 0, buf => (buf, false)
  | _, [] => ([], false)
  | n + 1, c :: buf => if !isPrintableAscii c then (c :: buf, true) else doit n buf

/-- The loop over eight bytes: `buf`, and whether it goes to `FOUND_CTL`. Every round reads at
least one byte. -/
def eightBytes : ℕ → List UInt8 → List UInt8 × Bool
  | 0, buf => (buf, false)
  | n + 1, buf =>
    if buf.length ≥ 8 then
      match doit 8 buf with
      | (c :: buf, true) =>
        if c < 0o40 && c != ht || c == 0o177 then (c :: buf, true) else eightBytes n buf
      | (buf, _) => eightBytes n buf
    else (buf, false)

/-- `get_token_to_eol` with its loop over eight bytes (lines 152–204). -/
def getTokenToEolUnrolled (s : List UInt8) : Scan (List UInt8) :=
  let (buf, found) := eightBytes s.length s
  toEolBehind s buf found

/-! ## What a fast path skips -/

/-- The bytes in front of `buf` satisfy `p`, and the first one of `buf` does not if it was
found. -/
structure Skips (p : UInt8 → Bool) (s buf : List UInt8) (found : Bool) : Prop where
  front : ∃ a, s = a ++ buf ∧ ∀ c ∈ a, p c
  stop : found = true → ∃ c t, buf = c :: t ∧ p c = false

theorem Skips.refl (p : UInt8 → Bool) (s : List UInt8) : Skips p s s false :=
  ⟨⟨[], rfl, List.forall_mem_nil _⟩, nofun⟩

theorem Skips.append {p : UInt8 → Bool} {s buf : List UInt8} {found : Bool}
    (h : Skips p s buf found) {a : List UInt8} (ha : ∀ c ∈ a, p c) :
    Skips p (a ++ s) buf found := by
  obtain ⟨b, rfl, hb⟩ := h.front
  exact ⟨⟨a ++ b, (List.append_assoc _ _ _).symm, List.forall_mem_append.mpr ⟨ha, hb⟩⟩, h.stop⟩

theorem skipped_append (a buf : List UInt8) : skipped (a ++ buf) buf = a := by
  rw [skipped, List.length_append, Nat.add_sub_cancel, List.take_left]

/-- **A loop behind a fast path** is the loop. -/
theorem Skips.span_eq {p : UInt8 → Bool} {s buf : List UInt8} {found : Bool}
    (h : Skips p s buf found) (stop : UInt8 → List UInt8 → Scan Unit) :
    span p stop s = (span p stop buf).map (skipped s buf ++ ·) := by
  obtain ⟨a, rfl, ha⟩ := h.front
  rw [skipped_append, span_append ha]

theorem Skips.toEolBehind_eq {s buf : List UInt8} {found : Bool}
    (h : Skips isValueByte s buf found) : toEolBehind s buf found = getTokenToEol s := by
  have hspan := h.span_eq newline
  rw [← getTokenToEol_eq_span, ← getTokenToEol_eq_span] at hspan
  unfold toEolBehind
  rw [hspan]
  split_ifs with hfound
  · obtain ⟨c, t, rfl, hc⟩ := h.stop hfound
    have hctl : getTokenToEol (c :: t) = foundCtl c t := by
      rw [getTokenToEol_eq_span, span, if_neg (by rw [hc]; exact Bool.false_ne_true),
        foundCtl_eq_newline]
    rw [hctl]
  · rfl

/-- The bytes in front of the index satisfy nothing of the ranges, the byte at it does. -/
theorem cmpestri_spec (ranges : List (UInt8 × UInt8)) (block : List UInt8) :
    (∀ c ∈ block.take (cmpestri ranges block), !inRanges ranges c) ∧
    (cmpestri ranges block < block.length →
      ∃ c t, block.drop (cmpestri ranges block) = c :: t ∧ inRanges ranges c) := by
  induction block with
  | nil => exact ⟨nofun, nofun⟩
  | cons c block ih =>
    rw [cmpestri] at ih ⊢
    rw [List.findIdx_cons]
    cases hc : inRanges ranges c with
    | true => exact ⟨nofun, fun _ => ⟨c, block, rfl, hc⟩⟩
    | false =>
      rw [cond_false, List.take_succ_cons, List.drop_succ_cons, List.length_cons,
        Nat.succ_lt_succ_iff]
      exact ⟨List.forall_mem_cons.mpr ⟨by rw [hc]; rfl, ih.1⟩, ih.2⟩

theorem skips_findcharBlocks (ranges : List (UInt8 × UInt8)) (left : ℕ) (s : List UInt8)
    (h : left * 16 ≤ s.length) :
    Skips (fun c => !inRanges ranges c) s (findcharBlocks ranges left s).1
      (findcharBlocks ranges left s).2 := by
  induction left generalizing s with
  | zero => exact Skips.refl _ s
  | succ left ih =>
    obtain ⟨block, rest, rfl, hblock⟩ : ∃ block rest, s = block ++ rest ∧ block.length = 16 :=
      ⟨s.take 16, s.drop 16, (List.take_append_drop 16 s).symm, by rw [List.length_take]; omega⟩
    obtain ⟨hclean, hfound⟩ := cmpestri_spec ranges block
    have hle : cmpestri ranges block ≤ block.length := List.findIdx_le_length
    rw [List.length_append] at h
    rw [findcharBlocks, List.take_left' hblock, List.drop_left' hblock]
    split_ifs with hr
    · refine ⟨⟨block.take (cmpestri ranges block), ?_, hclean⟩, fun _ => ?_⟩
      · rw [List.drop_append_of_le_length hle, ← List.append_assoc, List.take_append_drop]
      · obtain ⟨c, t, hdrop, hc⟩ := hfound (by omega)
        exact ⟨c, t ++ rest, by rw [List.drop_append_of_le_length hle, hdrop, List.cons_append],
          by rw [hc]; rfl⟩
    · refine (ih rest (by omega)).append ?_
      rwa [not_not.mp hr, ← hblock, List.take_length] at hclean

theorem skips_findcharFast (ranges : List (UInt8 × UInt8)) (s : List UInt8) :
    Skips (fun c => !inRanges ranges c) s (findcharFast ranges s).1 (findcharFast ranges s).2 := by
  rw [findcharFast]
  split_ifs
  · exact skips_findcharBlocks ranges _ s (Nat.div_mul_le_self _ _)
  · exact Skips.refl _ s

theorem Skips.congr {p q : UInt8 → Bool} {s buf : List UInt8} {found : Bool}
    (h : Skips p s buf found) (hpq : ∀ c, p c = q c) : Skips q s buf found := by
  rwa [funext hpq] at h

/-! ## Without SSE 4.2 -/

theorem skips_doit (n : ℕ) (s : List UInt8) :
    Skips isPrintableAscii s (doit n s).1 (doit n s).2 := by
  induction n generalizing s with
  | zero => exact Skips.refl _ s
  | succ n ih =>
    cases s with
    | nil => exact Skips.refl _ []
    | cons c s =>
      rw [doit]
      split_ifs with hc
      · exact ⟨⟨[], rfl, List.forall_mem_nil _⟩, fun _ => ⟨c, s, rfl, by simpa using hc⟩⟩
      · have hone : ∀ d ∈ [c], isPrintableAscii d := by simpa using hc
        exact (ih s).append hone

/-- A printable byte does not end a line. -/
theorem isValueByte_of_printable {c : UInt8} (h : isPrintableAscii c) : isValueByte c := by
  rw [isValueByte_eq, h]
  rfl

theorem skips_eightBytes (n : ℕ) (s : List UInt8) :
    Skips isValueByte s (eightBytes n s).1 (eightBytes n s).2 := by
  induction n generalizing s with
  | zero => exact Skips.refl _ s
  | succ n ih =>
    rw [eightBytes]
    split_ifs with hlen
    · obtain ⟨⟨a, hs, ha⟩, hstop⟩ := skips_doit 8 s
      have hvalue : ∀ c ∈ a, isValueByte c := fun c hc => isValueByte_of_printable (ha c hc)
      rcases hround : doit 8 s with ⟨buf, nonPrintable⟩
      rw [hround] at hs hstop
      dsimp only at hs hstop
      cases nonPrintable with
      | false =>
        -- eight printable bytes
        have hnext := (ih buf).append hvalue
        rw [← hs] at hnext
        cases buf <;> exact hnext
      | true =>
        obtain ⟨c, t, rfl, hc⟩ := hstop rfl
        dsimp only
        split_ifs with hctl
        · refine ⟨⟨a, hs, hvalue⟩, fun _ => ⟨c, t, rfl, ?_⟩⟩
          rw [isValueByte_eq, hc, hctl]
          rfl
        · have hone : ∀ d ∈ a ++ [c], isValueByte d := by
            refine List.forall_mem_append.mpr ⟨hvalue, fun d hd => ?_⟩
            obtain rfl := List.mem_singleton.mp hd
            rw [isValueByte_eq, Bool.eq_false_of_not_eq_true hctl, Bool.and_false]
            rfl
          have hnext := (ih t).append hone
          rwa [List.append_assoc, List.singleton_append, ← hs] at hnext
    · exact Skips.refl _ s

/-- **The loop over eight bytes** changes nothing. -/
theorem getTokenToEolUnrolled_eq (s : List UInt8) : getTokenToEolUnrolled s = getTokenToEol s :=
  (skips_eightBytes s.length s).toEolBehind_eq

/-! ## With SSE 4.2 -/

theorem not_tokenRanges (c : UInt8) : (!inRanges tokenRanges c) = isTokenByte c := by
  have hspace : space.toNat = 32 := rfl
  rw [Bool.eq_iff_iff]
  simp [inRanges, tokenRanges, isTokenByte, ← UInt8.toNat_inj, UInt8.lt_iff_toNat_lt,
    UInt8.le_iff_toNat_le]
  omega

theorem not_valueRanges (c : UInt8) : (!inRanges valueRanges c) = isValueByte c := by
  have hspace : space.toNat = 32 := rfl
  have hht : ht.toNat = 9 := rfl
  rw [Bool.eq_iff_iff]
  simp [inRanges, valueRanges, isValueByte, ← UInt8.toNat_inj, UInt8.le_iff_toNat_le]
  omega

/-- The ranges of a name do not have the bytes that are negative as `char`s. -/
theorem isNameByte_eq (c : UInt8) : isNameByte c = (!inRanges nameRanges c && c < 0o200) := by
  rw [Bool.eq_iff_iff]
  simp [inRanges, nameRanges, isNameByte, belowSpace, ← UInt8.toNat_inj, UInt8.lt_iff_toNat_lt,
    UInt8.le_iff_toNat_le]
  omega

theorem behind_eq {ranges : List (UInt8 × UInt8)} {loop : List UInt8 → Scan (List UInt8)}
    (h0 : loop [] = .eof) (s : List UInt8) : behind ranges loop s =
      (loop (findcharFast ranges s).1).map (skipped s (findcharFast ranges s).1 ++ ·) := by
  rw [behind]
  dsimp only
  split_ifs with h
  · rw [Bool.and_eq_true, List.isEmpty_iff] at h
    rw [h.2, h0]
    rfl
  · rfl

theorem advanceTokenSse_eq (s : List UInt8) : advanceTokenSse s = advanceToken s := by
  have hskip := (skips_findcharFast tokenRanges s).congr not_tokenRanges
  rw [advanceTokenSse, behind_eq rfl, advanceToken_eq_span, advanceToken_eq_span]
  exact (hskip.span_eq atSpace).symm

theorem getTokenToEolSse_eq (s : List UInt8) : getTokenToEolSse s = getTokenToEol s :=
  ((skips_findcharFast valueRanges s).congr not_valueRanges).toEolBehind_eq

/-- A name is the same, unless a byte that is no ASCII character was skipped; then the plain
loop refuses it. -/
theorem headerNameSse_eq {s : List UInt8}
    (h : headerName s ≠ .bad ∨ ∀ c ∈ s, c < 0o200) : headerNameSse s = headerName s := by
  obtain ⟨⟨a, hs, ha⟩, -⟩ := skips_findcharFast nameRanges s
  have hname : ∀ c ∈ a, isNameByte c := by
    rcases h with h | h
    · by_contra hne
      have hother : ∃ c ∈ a, isNameByte c = false := by simpa using hne
      refine h ?_
      rw [hs, headerName_eq_span]
      refine span_eq_bad hother (fun c hc _ t => ?_) _
      rw [atColon, if_neg]
      rintro rfl
      exact absurd (ha 58 hc) (by decide)
    · intro c hc
      have hlt : c < 0o200 := h c (by rw [hs]; exact List.mem_append_left _ hc)
      rw [isNameByte_eq, ha c hc, decide_eq_true hlt]
      rfl
  have hskip : Skips isNameByte s (findcharFast nameRanges s).1 false :=
    ⟨⟨a, hs, hname⟩, fun hfalse => absurd hfalse Bool.false_ne_true⟩
  rw [headerNameSse, behind_eq rfl, headerName_eq_span, headerName_eq_span]
  exact (hskip.span_eq atColon).symm

/-! ## The parser over its loops -/

/-- The loops that have a fast path. -/
structure Loops where
  advanceToken : List UInt8 → Scan (List UInt8)
  getTokenToEol : List UInt8 → Scan (List UInt8)
  headerName : List UInt8 → Scan (List UInt8)

namespace Loops

def plain : Loops := ⟨Picohttp.advanceToken, Picohttp.getTokenToEol, Picohttp.headerName⟩

def sse : Loops := ⟨advanceTokenSse, getTokenToEolSse, headerNameSse⟩

variable (loops : Loops)

/-- A request line (lines 335–360). -/
def requestLine (s : List UInt8) : Scan (List UInt8 × List UInt8 × ℤ) :=
  (skipEmptyLine s).bind fun _ s =>
  (loops.advanceToken s).bind fun method s =>
  (loops.advanceToken (s.drop 1)).bind fun path s =>
  (parseHttpVersion (s.drop 1)).bind fun minorVersion s =>
  (endOfLine s).map fun _ => (method, path, minorVersion)

def headerValue (name : Option (List UInt8)) (valueAt : ℕ) (s : List UInt8) : Scan PhrHeader :=
  (loops.getTokenToEol s).map fun value => { name, value, valueAt }

/-- A header line (lines 286–325). -/
def headerLine (pos : ℕ) (first : Bool) : List UInt8 → Scan PhrHeader
  | [] => .eof
  | c :: s =>
    if !(!first && (c == space || c == ht)) then
      if tokenCharMap.getD c.toNat 0 = 0 then .bad
      else
        (loops.headerName (c :: s)).bind fun name s =>
        (skipBlanks s).bind fun blanks s =>
        loops.headerValue (some name) (pos + name.length + 1 + blanks) s
    else loops.headerValue none pos (c :: s)

/-- `parse_headers` (lines 269–328). -/
def parseHeaders (maxHeaders len : ℕ) :
    ℕ → List PhrHeader → List UInt8 → Scan Unit × List PhrHeader
  | 0, headers, _ => (.eof, headers)
  | n + 1, headers, s =>
    match s with
    | [] => (.eof, headers)
    | c :: s =>
      if c = cr || c = lf then (newline c s, headers)
      else if headers.length = maxHeaders then (.bad, headers)
      else
        match loops.headerLine (len - (s.length + 1)) headers.isEmpty (c :: s) with
        | .done h rest => parseHeaders maxHeaders len n (headers ++ [h]) rest
        | .eof => (.eof, headers)
        | .bad => (.bad, headers)

/-- `parse_request` (lines 330–363). -/
def parseRequest (maxHeaders : ℕ) (buf : List UInt8) : Scan Unit × Request :=
  match loops.requestLine buf with
  | .done (method, path, minorVersion) s =>
    let (res, headers) := loops.parseHeaders maxHeaders buf.length (s.length + 1) [] s
    (res, { method := some method, path := some path, minorVersion, headers })
  | .eof => (.eof, stored loops.advanceToken buf)
  | .bad => (.bad, stored loops.advanceToken buf)

/-- `phr_parse_request` (lines 365–393). -/
def phrParseRequest (buf : List UInt8) (numHeaders lastLen : ℕ) : ℤ × Request :=
  let maxHeaders := numHeaders
  match if lastLen ≠ 0 then isComplete buf lastLen else .done () buf with
  | .eof => (-2, .empty)
  | .bad => (-1, .empty)
  | .done _ _ =>
    match loops.parseRequest maxHeaders buf with
    | (.eof, r) => (-2, r)
    | (.bad, r) => (-1, r)
    | (.done _ rest, r) => (toInt (buf.length - rest.length), r)

end Loops

theorem advanceToken_sse : Loops.sse.advanceToken = advanceToken := funext advanceTokenSse_eq

theorem requestLine_sse (s : List UInt8) : Loops.sse.requestLine s = requestLine s := by
  rw [Loops.requestLine, advanceToken_sse]
  rfl

theorem headerValue_sse (name : Option (List UInt8)) (valueAt : ℕ) (s : List UInt8) :
    Loops.sse.headerValue name valueAt s = headerValue name valueAt s := by
  have heol : Loops.sse.getTokenToEol = getTokenToEol := funext getTokenToEolSse_eq
  rw [Loops.headerValue, heol]
  rfl

/-- A header line is the same, where the plain loop reads the name or the bytes are ASCII
characters. -/
theorem headerLine_sse {pos : ℕ} {first : Bool} {s : List UInt8}
    (h : headerLine pos first s ≠ .bad ∨ ∀ c ∈ s, c < 0o200) :
    Loops.sse.headerLine pos first s = headerLine pos first s := by
  cases s with
  | nil => rfl
  | cons c s =>
    rw [Loops.headerLine, headerLine]
    rw [headerLine] at h
    split_ifs at h ⊢ with h1 h2
    · rfl
    · have hname : headerName (c :: s) ≠ .bad ∨ ∀ d ∈ c :: s, d < 0o200 := by
        refine h.imp_left fun hbad hname => hbad ?_
        rw [hname, bind_bad]
      rw [show Loops.sse.headerName (c :: s) = headerName (c :: s) from headerNameSse_eq hname]
      simp only [headerValue_sse]
    · exact headerValue_sse none pos (c :: s)

theorem parseHeaders_sse {maxHeaders len n : ℕ} {headers : List PhrHeader} {s : List UInt8}
    (h : (parseHeaders maxHeaders len n headers s).1 ≠ .bad ∨ ∀ c ∈ s, c < 0o200) :
    Loops.sse.parseHeaders maxHeaders len n headers s =
      parseHeaders maxHeaders len n headers s := by
  induction n generalizing headers s with
  | zero => rfl
  | succ n ih =>
    cases s with
    | nil => rfl
    | cons c s =>
      rw [Loops.parseHeaders, parseHeaders]
      rw [parseHeaders] at h
      split_ifs at h ⊢ with h1 h2
      · rfl
      · rfl
      · have hline : headerLine (len - (s.length + 1)) headers.isEmpty (c :: s) ≠ .bad ∨
            ∀ d ∈ c :: s, d < 0o200 := by
          refine h.imp_left fun hbad hline => hbad ?_
          rw [hline]
        rw [headerLine_sse hline]
        cases hread : headerLine (len - (s.length + 1)) headers.isEmpty (c :: s) with
        | eof => rfl
        | bad => rfl
        | done header rest =>
          rw [hread] at h
          refine ih (h.imp_right fun hascii d hd => hascii d ?_)
          obtain ⟨p, -, hp, -⟩ := exact_headerLine _ _ _ _ _ hread
          rw [hp]
          exact List.mem_append_right p hd

theorem parseRequest_sse {maxHeaders : ℕ} {buf : List UInt8}
    (h : (parseRequest maxHeaders buf).1 ≠ .bad ∨ ∀ c ∈ buf, c < 0o200) :
    Loops.sse.parseRequest maxHeaders buf = parseRequest maxHeaders buf := by
  rw [Loops.parseRequest, requestLine_sse, advanceToken_sse]
  rw [parseRequest] at h ⊢
  cases hline : requestLine buf with
  | eof => rfl
  | bad => rfl
  | done x s =>
    obtain ⟨p, -, hp, -⟩ := exact_requestLine _ _ _ hline
    rw [hline] at h
    have hheaders : (parseHeaders maxHeaders buf.length (s.length + 1) [] s).1 ≠ .bad ∨
        ∀ c ∈ s, c < 0o200 :=
      h.imp_right fun hascii c hc => hascii c (by rw [hp]; exact List.mem_append_right p hc)
    dsimp only
    rw [parseHeaders_sse hheaders]

/-- **The parser with SSE 4.2** answers as the one without it, where that does not refuse the
buffer, and on every buffer of ASCII characters. -/
theorem phrParseRequest_sse {buf : List UInt8} {numHeaders lastLen : ℕ}
    (h : (phrParseRequest buf numHeaders lastLen).1 ≠ -1 ∨ ∀ c ∈ buf, c < 0o200) :
    Loops.sse.phrParseRequest buf numHeaders lastLen = phrParseRequest buf numHeaders lastLen := by
  unfold phrParseRequest at h
  unfold Loops.phrParseRequest phrParseRequest
  dsimp only at h ⊢
  generalize (if lastLen ≠ 0 then isComplete buf lastLen else .done () buf) = complete at h ⊢
  cases complete with
  | eof => rfl
  | bad => rfl
  | done _ _ =>
    dsimp only at h ⊢
    have hparse : (parseRequest numHeaders buf).1 ≠ .bad ∨ ∀ c ∈ buf, c < 0o200 := by
      refine h.imp_left fun hanswer hbad => hanswer ?_
      rcases hread : parseRequest numHeaders buf with ⟨res, r⟩
      rw [hread] at hbad
      dsimp only at hbad
      rw [hbad]
    exact parseRequest_sse hparse ▸ rfl

/-- A request line with a byte that is no ASCII character. -/
theorem phrParseRequest_sse_latin :
    Loops.sse.phrParseRequest (ascii "GET /caf" ++ 0xe9 :: ascii " HTTP/1.1\n\n") 4 0 =
      phrParseRequest (ascii "GET /caf" ++ 0xe9 :: ascii " HTTP/1.1\n\n") 4 0 :=
  phrParseRequest_sse (Or.inl (by decide +kernel))

/-- A header name with a byte that is no ASCII character is accepted with SSE 4.2 only, where
it is skipped with the block it stands in. -/
example : ∃ buf, (phrParseRequest buf 4 0).1 = -1 ∧ 0 < (Loops.sse.phrParseRequest buf 4 0).1 :=
  ⟨ascii "GET / HTTP/1.1\nServ" ++ 0xe9 :: ascii ": yotta 1234567\n\n", by decide +kernel,
    by decide +kernel⟩

end Yotta.Picohttp
