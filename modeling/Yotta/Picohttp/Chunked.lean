import Yotta.Lib.Machine
import Yotta.Lib.Region

/-!
# `phr_decode_chunked`

Model of the decoder of chunked bodies (`picohttpparser/picohttpparser.c`, lines 474–612),
which rewrites the buffer in place. Every access to the buffer is `none` out of bounds, and
a loop is `none` when its rounds run out, so that a result `some` says that the function
ends and stays inside the buffer. `size_t` has 64 bits; the case `default` is not reached.

`chunkedMachine` reads the encoding byte by byte and has no buffer.

Results:
* `phrDecodeChunked_eq`: a call decodes what the machine reads from its buffer, and leaves
  what it does not read behind the decoded bytes.
-/

namespace Yotta.Picohttp

open Yotta.Bytes Yotta.Region

/-! ## Model of the code -/

/-- `decode_hex` (lines 483–493); `none` is −1. -/
def decodeHex (ch : UInt8) : Option ℕ :=
  if 48 ≤ ch ∧ ch ≤ 57 then some (ch.toNat - 48)
  else if 65 ≤ ch ∧ ch ≤ 70 then some (ch.toNat - 65 + 0xa)
  else if 97 ≤ ch ∧ ch ≤ 102 then some (ch.toNat - 97 + 0xa)
  else none

/-- The states of the decoder (lines 474–481). -/
inductive ChunkedState
  | inChunkSize
  | inChunkExt
  | inChunkData
  | inChunkCrlf
  | inTrailersLineHead
  | inTrailersLineMiddle
deriving DecidableEq

/-- `struct phr_chunked_decoder`. -/
structure ChunkedDecoder where
  bytesLeftInChunk : ℕ
  consumeTrailer : Bool
  hexCount : ℕ
  state : ChunkedState
deriving DecidableEq

/-- A decoder that is "zero-filled before start", but for `consume_trailer`. -/
def ChunkedDecoder.start (consumeTrailer : Bool) : ChunkedDecoder where
  bytesLeftInChunk := 0
  consumeTrailer := consumeTrailer
  hexCount := 0
  state := .inChunkSize

/-- The variables of `phr_decode_chunked`. -/
structure ChunkedFrame where
  decoder : ChunkedDecoder
  buf : List UInt8
  dst : ℕ
  src : ℕ
  ret : ℤ

/-- Where control goes from a case of the `switch`. -/
inductive Flow
  | fallthru
  | again
  | exit
  | complete
deriving DecidableEq

/-- One case behind another one. -/
def fallThru (x : Option (ChunkedFrame × Flow)) (k : ChunkedFrame → Option (ChunkedFrame × Flow)) :
    Option (ChunkedFrame × Flow) :=
  x.bind fun (f, flow) => if flow = .fallthru then k f else some (f, flow)

/-- `for (;; ++src)` with the test for the end of the buffer and a `break` at the first byte
that satisfies `p`: the place where it ends. -/
def scanTo (p : UInt8 → Bool) (bufsz : ℕ) (buf : List UInt8) : ℕ → ℕ → Option ℕ
  | 0, _ => none
  | n + 1, src =>
    if src = bufsz then some src
    else (load bufsz buf src).bind fun c =>
      if p c then some src else scanTo p bufsz buf n (src + 1)

/-- Such a loop, with the `goto Exit` at the end of the buffer. -/
def scan (p : UInt8 → Bool) (bufsz : ℕ) (f : ChunkedFrame)
    (k : ChunkedFrame → Option (ChunkedFrame × Flow)) : Option (ChunkedFrame × Flow) :=
  (scanTo p bufsz f.buf (bufsz + 1) f.src).bind fun src =>
    if src = bufsz then some ({ f with src }, .exit) else k { f with src }

/-- `if (dst != src) memmove(buf + dst, buf + src, n)`. -/
def moveDown (bufsz n : ℕ) (f : ChunkedFrame) : Option ChunkedFrame :=
  if f.dst ≠ f.src then (move bufsz f.buf f.dst f.src n).map fun buf => { f with buf } else some f

/-- The loop over the digits of a chunk size (lines 503–521). -/
def readSize (bufsz : ℕ) : ℕ → ChunkedFrame → Option (ChunkedFrame × Flow)
  | 0, _ => none
  | n + 1, f =>
    if f.src = bufsz then some (f, .exit)
    else (load bufsz f.buf f.src).bind fun c =>
      match decodeHex c with
      | none =>
        if f.decoder.hexCount = 0 then some ({ f with ret := -1 }, .exit) else some (f, .fallthru)
      | some v =>
        if f.decoder.hexCount = 16 then some ({ f with ret := -1 }, .exit)
        else
          readSize bufsz n
            { f with
              decoder := { f.decoder with
                bytesLeftInChunk := (f.decoder.bytesLeftInChunk * 16 + v) % 2 ^ 64
                hexCount := f.decoder.hexCount + 1 }
              src := f.src + 1 }

/-- `case CHUNKED_IN_CHUNK_SIZE` (lines 502–523). -/
def inChunkSize (bufsz : ℕ) (f : ChunkedFrame) : Option (ChunkedFrame × Flow) :=
  fallThru (readSize bufsz (bufsz + 1) f) fun f =>
    some ({ f with decoder := { f.decoder with hexCount := 0, state := .inChunkExt } }, .fallthru)

/-- `case CHUNKED_IN_CHUNK_EXT` (lines 525–542). -/
def inChunkExt (bufsz : ℕ) (f : ChunkedFrame) : Option (ChunkedFrame × Flow) :=
  scan (· == lf) bufsz f fun f =>
    let f := { f with src := f.src + 1 }
    if f.decoder.bytesLeftInChunk = 0 then
      if f.decoder.consumeTrailer then
        some ({ f with decoder := { f.decoder with state := .inTrailersLineHead } }, .again)
      else some (f, .complete)
    else some ({ f with decoder := { f.decoder with state := .inChunkData } }, .fallthru)

/-- `case CHUNKED_IN_CHUNK_DATA` (lines 544–560). -/
def inChunkData (bufsz : ℕ) (f : ChunkedFrame) : Option (ChunkedFrame × Flow) :=
  let avail := bufsz - f.src
  let left := f.decoder.bytesLeftInChunk
  if avail < left then
    (moveDown bufsz avail f).map fun f =>
      ({ f with
          src := f.src + avail
          dst := f.dst + avail
          decoder := { f.decoder with bytesLeftInChunk := left - avail } }, .exit)
  else
    (moveDown bufsz left f).map fun f =>
      ({ f with
          src := f.src + left
          dst := f.dst + left
          decoder := { f.decoder with bytesLeftInChunk := 0, state := .inChunkCrlf } }, .fallthru)

/-- `case CHUNKED_IN_CHUNK_CRLF` (lines 562–575). -/
def inChunkCrlf (bufsz : ℕ) (f : ChunkedFrame) : Option (ChunkedFrame × Flow) :=
  scan (· != cr) bufsz f fun f =>
    (load bufsz f.buf f.src).map fun c =>
      if c ≠ lf then ({ f with ret := -1 }, .exit)
      else
        ({ f with src := f.src + 1, decoder := { f.decoder with state := .inChunkSize } }, .again)

/-- `case CHUNKED_IN_TRAILERS_LINE_HEAD` (lines 576–585). -/
def inTrailersLineHead (bufsz : ℕ) (f : ChunkedFrame) : Option (ChunkedFrame × Flow) :=
  scan (· != cr) bufsz f fun f =>
    (load bufsz f.buf f.src).map fun c =>
      let f := { f with src := f.src + 1 }
      if c = lf then (f, .complete)
      else ({ f with decoder := { f.decoder with state := .inTrailersLineMiddle } }, .fallthru)

/-- `case CHUNKED_IN_TRAILERS_LINE_MIDDLE` (lines 587–596). -/
def inTrailersLineMiddle (bufsz : ℕ) (f : ChunkedFrame) : Option (ChunkedFrame × Flow) :=
  scan (· == lf) bufsz f fun f =>
    some ({ f with
      src := f.src + 1
      decoder := { f.decoder with state := .inTrailersLineHead } }, .again)

/-- The `switch` (lines 501–599). -/
def chunkedSwitch (bufsz : ℕ) (f : ChunkedFrame) : Option (ChunkedFrame × Flow) :=
  let fromData f := fallThru (inChunkData bufsz f) (inChunkCrlf bufsz)
  let fromExt f := fallThru (inChunkExt bufsz f) fromData
  match f.decoder.state with
  | .inChunkSize => fallThru (inChunkSize bufsz f) fromExt
  | .inChunkExt => fromExt f
  | .inChunkData => fromData f
  | .inChunkCrlf => inChunkCrlf bufsz f
  | .inTrailersLineHead => fallThru (inTrailersLineHead bufsz f) (inTrailersLineMiddle bufsz)
  | .inTrailersLineMiddle => inTrailersLineMiddle bufsz f

/-- The `while` loop, up to `Exit` (lines 500–603). -/
def chunkedLoop (bufsz : ℕ) : ℕ → ChunkedFrame → Option ChunkedFrame
  | 0, _ => none
  | n + 1, f =>
    (chunkedSwitch bufsz f).bind fun (f, flow) =>
      match flow with
      | .exit => some f
      | .complete => some { f with ret := bufsz - f.src }
      | _ => chunkedLoop bufsz n f

/-- What `phr_decode_chunked` returns and stores. -/
structure Decoded where
  decoder : ChunkedDecoder
  buf : List UInt8
  bufsz : ℕ
  ret : ℤ
deriving DecidableEq

/-- `phr_decode_chunked` (lines 495–612), on a buffer of `*_bufsz` bytes. -/
def phrDecodeChunked (decoder : ChunkedDecoder) (buf : List UInt8) : Option Decoded :=
  let bufsz := buf.length
  (chunkedLoop bufsz (bufsz + 1) { decoder, buf, dst := 0, src := 0, ret := -2 }).bind fun f =>
    (moveDown bufsz (bufsz - f.src) f).map fun f =>
      { decoder := f.decoder, buf := f.buf, bufsz := f.dst, ret := f.ret }

/-! ## Byte by byte -/

/-- Where the decoder is in the encoding. -/
inductive Stage
  /-- `digits` digits of a chunk size have been read, and stand for `value`. -/
  | size (value digits : ℕ)
  /-- in the extension behind the chunk size `value` -/
  | ext (value : ℕ)
  /-- `left + 1` bytes of a chunk are to come. -/
  | data (left : ℕ)
  | crlf
  | lineHead
  | lineMiddle
deriving DecidableEq

/-- The end of the line with the chunk size `value`. -/
def endSizeLine (consumeTrailer : Bool) (value : ℕ) : Reaction Stage UInt8 :=
  match value with
  | 0 => if consumeTrailer then .step .lineHead [] else .stop
  | left + 1 => .step (.data left) []

/-- A byte in the extension behind the chunk size `value`. -/
def readExt (consumeTrailer : Bool) (value : ℕ) (c : UInt8) : Reaction Stage UInt8 :=
  if c = lf then endSizeLine consumeTrailer value else .step (.ext value) []

def chunkedMachine (consumeTrailer : Bool) : Machine Stage UInt8 UInt8
  | .size value digits, c =>
    match decodeHex c with
    | some v => if 16 ≤ digits then .refuse else .step (.size (value * 16 + v) (digits + 1)) []
    | none => if digits = 0 then .refuse else readExt consumeTrailer value c
  | .ext value, c => readExt consumeTrailer value c
  | .data 0, c => .step .crlf [c]
  | .data (left + 1), c => .step (.data left) [c]
  | .crlf, c =>
    if c = cr then .step .crlf [] else if c = lf then .step (.size 0 0) [] else .refuse
  | .lineHead, c =>
    if c = cr then .step .lineHead [] else if c = lf then .stop else .step .lineMiddle []
  | .lineMiddle, c => if c = lf then .step .lineHead [] else .step .lineMiddle []

namespace Stage

/-- The decoder at a stage. -/
def decoder (consumeTrailer : Bool) : Stage → ChunkedDecoder
  | size value digits => ⟨value, consumeTrailer, digits, .inChunkSize⟩
  | ext value => ⟨value, consumeTrailer, 0, .inChunkExt⟩
  | data left => ⟨left + 1, consumeTrailer, 0, .inChunkData⟩
  | crlf => ⟨0, consumeTrailer, 0, .inChunkCrlf⟩
  | lineHead => ⟨0, consumeTrailer, 0, .inTrailersLineHead⟩
  | lineMiddle => ⟨0, consumeTrailer, 0, .inTrailersLineMiddle⟩

/-- The sizes are what so many digits stand for, and fit a `size_t`. -/
def Valid : Stage → Prop
  | size value digits => digits ≤ 16 ∧ value < 16 ^ digits
  | ext value => value < 2 ^ 64
  | data left => left + 1 < 2 ^ 64
  | _ => True

end Stage

/-! ## The frame of a run -/

section

variable {consumeTrailer : Bool} {bufsz : ℕ} {total : List UInt8 × Ending Stage UInt8}
  {f : ChunkedFrame} {s s' : Stage} {text : List UInt8} {c : UInt8}

/-- The buffer between two steps of a run with the outcome `total`: what is decoded, what
has been read, and the text that is still to be read at the stage `s`. -/
structure Layout (consumeTrailer : Bool) (bufsz : ℕ) (total : List UInt8 × Ending Stage UInt8)
    (f : ChunkedFrame) (s : Stage) (text : List UInt8) (out gap : List UInt8) : Prop where
  buf : f.buf = out ++ gap ++ text
  dst : f.dst = out.length
  src : f.src = (out ++ gap).length
  length : f.buf.length = bufsz
  run : total = Machine.emit out ((chunkedMachine consumeTrailer).run s text)

/-- The function is at the stage `s` of a run, in front of `text`. -/
structure At (consumeTrailer : Bool) (bufsz : ℕ) (total : List UInt8 × Ending Stage UInt8)
    (f : ChunkedFrame) (s : Stage) (text : List UInt8) : Prop where
  decoder : f.decoder = s.decoder consumeTrailer
  valid : s.Valid
  ret : f.ret = -2
  layout : ∃ out gap, Layout consumeTrailer bufsz total f s text out gap

/-- The function leaves the loop as the run ends. -/
def Ended (consumeTrailer : Bool) (bufsz : ℕ) (total : List UInt8 × Ending Stage UInt8)
    (f : ChunkedFrame) (flow : Flow) : Prop :=
  ∃ gap rest, f.buf = total.1 ++ gap ++ rest ∧ f.dst = total.1.length ∧
    f.src = (total.1 ++ gap).length ∧ f.buf.length = bufsz ∧
    match total.2 with
    | .more s => s.Valid ∧ flow = .exit ∧ rest = [] ∧ f.ret = -2 ∧
        f.decoder = s.decoder consumeTrailer
    | .done rest' => flow = .complete ∧ rest = rest'
    | .bad rest' => flow = .exit ∧ rest = rest' ∧ f.ret = -1

/-- What a case of the `switch` may do, with `n` bytes in front of it: it falls through at a
stage that satisfies `P`, it goes on in the loop with fewer bytes, or the run ends. -/
def Leads (consumeTrailer : Bool) (bufsz : ℕ) (total : List UInt8 × Ending Stage UInt8)
    (n : ℕ) (P : Stage → Prop) (x : Option (ChunkedFrame × Flow)) : Prop :=
  ∃ f flow, x = some (f, flow) ∧
    match flow with
    | .fallthru => ∃ s text, At consumeTrailer bufsz total f s text ∧ P s ∧ text.length ≤ n
    | .again => ∃ s text, At consumeTrailer bufsz total f s text ∧ text.length < n
    | _ => Ended consumeTrailer bufsz total f flow

theorem At.length_le (h : At consumeTrailer bufsz total f s text) : text.length ≤ bufsz := by
  obtain ⟨out, gap, hl⟩ := h.layout
  have hlen := hl.length
  rw [hl.buf, List.length_append] at hlen
  omega

theorem At.src_eq (h : At consumeTrailer bufsz total f s text) :
    f.src + text.length = bufsz := by
  obtain ⟨out, gap, hl⟩ := h.layout
  rw [hl.src, ← hl.length, hl.buf]
  simp only [List.length_append]

theorem At.load (h : At consumeTrailer bufsz total f s (c :: text)) :
    load bufsz f.buf f.src = some c := by
  have hlt : f.src < bufsz := by
    have := h.src_eq
    rw [List.length_cons] at this
    omega
  obtain ⟨out, gap, hl⟩ := h.layout
  rw [load_of_lt hlt, hl.buf, hl.src, List.getD_append_right _ _ _ _ le_rfl, Nat.sub_self]
  rfl

/-- A byte that writes nothing is read. -/
theorem At.advance {t : Stage} (h : At consumeTrailer bufsz total f s (c :: text))
    (hstep : chunkedMachine consumeTrailer s c = .step t []) (hvalid : t.Valid)
    {d : ChunkedDecoder} (hd : d = t.decoder consumeTrailer) :
    At consumeTrailer bufsz total { f with src := f.src + 1, decoder := d } t text := by
  obtain ⟨out, gap, hl⟩ := h.layout
  refine ⟨hd, hvalid, h.ret, out, gap ++ [c], ?_, hl.dst, ?_, hl.length, ?_⟩
  · simp [hl.buf]
  · simp [hl.src]; omega
  · rw [hl.run, Machine.run_of_step hstep, Machine.emit_nil]

/-- The input has been read. -/
theorem At.ended_more (h : At consumeTrailer bufsz total f s []) :
    Ended consumeTrailer bufsz total f .exit := by
  obtain ⟨out, gap, hl⟩ := h.layout
  have hrun : total = (out, .more s) := by rw [hl.run]; simp [Machine.emit]
  rw [hrun]
  exact ⟨gap, [], hl.buf, hl.dst, hl.src, hl.length, h.valid, rfl, rfl, h.ret, h.decoder⟩

theorem At.ended_bad (h : At consumeTrailer bufsz total f s (c :: text))
    (hstep : chunkedMachine consumeTrailer s c = .refuse) :
    Ended consumeTrailer bufsz total { f with ret := -1 } .exit := by
  obtain ⟨out, gap, hl⟩ := h.layout
  have hrun : total = (out, .bad (c :: text)) := by
    rw [hl.run, Machine.run_of_refuse hstep]
    simp [Machine.emit]
  rw [hrun]
  exact ⟨gap, c :: text, hl.buf, hl.dst, hl.src, hl.length, rfl, rfl, rfl⟩

theorem At.ended_done (h : At consumeTrailer bufsz total f s (c :: text))
    (hstep : chunkedMachine consumeTrailer s c = .stop) :
    Ended consumeTrailer bufsz total { f with src := f.src + 1 } .complete := by
  obtain ⟨out, gap, hl⟩ := h.layout
  have hrun : total = (out, .done text) := by
    rw [hl.run, Machine.run_of_stop hstep]
    simp [Machine.emit]
  rw [hrun]
  refine ⟨gap ++ [c], text, ?_, hl.dst, ?_, hl.length, rfl, rfl⟩
  · simp [hl.buf]
  · simp [hl.src]; omega

/-! ## The cases of the `switch` -/

theorem leads_fallThru {n : ℕ} {P Q : Stage → Prop} {x : Option (ChunkedFrame × Flow)}
    {k : ChunkedFrame → Option (ChunkedFrame × Flow)}
    (hx : Leads consumeTrailer bufsz total n P x)
    (hk : ∀ f s text, At consumeTrailer bufsz total f s text → P s → text.length ≤ n →
      Leads consumeTrailer bufsz total n Q (k f)) :
    Leads consumeTrailer bufsz total n Q (fallThru x k) := by
  obtain ⟨f, flow, rfl, hflow⟩ := hx
  rw [fallThru, Option.bind_some]
  cases flow with
  | fallthru =>
    obtain ⟨s, text, hat, hP, hle⟩ := hflow
    exact hk f s text hat hP hle
  | again => exact ⟨f, .again, rfl, hflow⟩
  | exit => exact ⟨f, .exit, rfl, hflow⟩
  | complete => exact ⟨f, .complete, rfl, hflow⟩

/-- A scan over bytes that do not change the stage. -/
theorem At.scanTo {p : UInt8 → Bool} (h : At consumeTrailer bufsz total f s text)
    (hstay : ∀ c, p c = false → chunkedMachine consumeTrailer s c = .step s []) {n : ℕ}
    (hn : text.length < n) :
    ∃ src text', Picohttp.scanTo p bufsz f.buf n f.src = some src ∧
      At consumeTrailer bufsz total { f with src } s text' ∧ text'.length ≤ text.length ∧
      ∀ c ∈ text'.head?, p c = true := by
  induction text generalizing f n with
  | nil =>
    obtain ⟨n, rfl⟩ := Nat.exists_eq_succ_of_ne_zero (Nat.ne_of_gt (Nat.zero_lt_of_lt hn))
    refine ⟨f.src, [], ?_, h, le_rfl, by simp⟩
    rw [Picohttp.scanTo, if_pos (by simpa using h.src_eq)]
  | cons c text ih =>
    obtain ⟨n, rfl⟩ := Nat.exists_eq_succ_of_ne_zero (Nat.ne_of_gt (Nat.zero_lt_of_lt hn))
    have hsrc := h.src_eq
    rw [List.length_cons] at hn hsrc
    rw [Picohttp.scanTo, if_neg (by omega), h.load, Option.bind_some]
    cases hc : p c with
    | true =>
      rw [if_pos rfl]
      exact ⟨f.src, c :: text, rfl, h, le_rfl, by simp [hc]⟩
    | false =>
      rw [if_neg (by simp)]
      obtain ⟨src, text', hscan, hat, hle, hhead⟩ :=
        ih (h.advance (hstay c hc) h.valid h.decoder) (n := n) (by omega)
      exact ⟨src, text', hscan, hat, by rw [List.length_cons]; omega, hhead⟩

theorem At.leads_scan {p : UInt8 → Bool} {P : Stage → Prop} {n : ℕ}
    {k : ChunkedFrame → Option (ChunkedFrame × Flow)}
    (h : At consumeTrailer bufsz total f s text) (hn : text.length ≤ n)
    (hstay : ∀ c, p c = false → chunkedMachine consumeTrailer s c = .step s [])
    (hk : ∀ f c text, At consumeTrailer bufsz total f s (c :: text) → p c = true →
      text.length < n → Leads consumeTrailer bufsz total n P (k f)) :
    Leads consumeTrailer bufsz total n P (scan p bufsz f k) := by
  have hle := h.length_le
  obtain ⟨src, text', hscan, hat, hle', hhead⟩ := h.scanTo hstay (n := bufsz + 1) (by omega)
  have hsrc : src + text'.length = bufsz := hat.src_eq
  rw [scan, hscan, Option.bind_some]
  cases text' with
  | nil =>
    rw [if_pos (by simpa using hsrc)]
    exact ⟨_, .exit, rfl, hat.ended_more⟩
  | cons c text' =>
    rw [List.length_cons] at hsrc hle'
    rw [if_neg (by omega)]
    exact hk _ c text' hat (hhead c rfl) (by omega)

theorem Stage.Valid.size_succ {value digits v : ℕ} (h : (Stage.size value digits).Valid)
    (hdigits : digits ≠ 16) (hv : v < 16) :
    value * 16 + v < 2 ^ 64 ∧ (Stage.size (value * 16 + v) (digits + 1)).Valid := by
  obtain ⟨hle, hlt⟩ := h
  have hpow : 16 ^ (digits + 1) ≤ 16 ^ 16 := Nat.pow_le_pow_right (by omega) (by omega)
  have hsucc : value * 16 + v < 16 ^ (digits + 1) := by
    rw [pow_succ]
    omega
  exact ⟨lt_of_lt_of_le hsucc (hpow.trans (by norm_num)), by omega, hsucc⟩

theorem decodeHex_lt {c : UInt8} {v : ℕ} (h : decodeHex c = some v) : v < 16 := by
  unfold decodeHex at h
  split_ifs at h with h1 h2 h3
  · simp only [UInt8.le_iff_toNat_le, UInt8.reduceToNat] at h1
    cases h
    omega
  · simp only [UInt8.le_iff_toNat_le, UInt8.reduceToNat] at h2
    cases h
    omega
  · simp only [UInt8.le_iff_toNat_le, UInt8.reduceToNat] at h3
    cases h
    omega

/-- The digits of a chunk size, with the step into the extension behind them. -/
theorem At.leads_readSize {value digits n : ℕ}
    (h : At consumeTrailer bufsz total f (.size value digits) text) (hn : text.length < n) :
    Leads consumeTrailer bufsz total text.length (fun s => ∃ value, s = .ext value)
      (fallThru (readSize bufsz n f) fun f =>
        some ({ f with decoder := { f.decoder with hexCount := 0, state := .inChunkExt } },
          .fallthru)) := by
  induction text generalizing f value digits n with
  | nil =>
    obtain ⟨n, rfl⟩ := Nat.exists_eq_succ_of_ne_zero (Nat.ne_of_gt (Nat.zero_lt_of_lt hn))
    rw [readSize, if_pos (by simpa using h.src_eq)]
    exact ⟨f, .exit, rfl, h.ended_more⟩
  | cons c text ih =>
    obtain ⟨n, rfl⟩ := Nat.exists_eq_succ_of_ne_zero (Nat.ne_of_gt (Nat.zero_lt_of_lt hn))
    have hsrc := h.src_eq
    rw [List.length_cons] at hn hsrc
    have hdigits : f.decoder.hexCount = digits := by rw [h.decoder]; rfl
    rw [readSize, if_neg (by omega), h.load, Option.bind_some, hdigits]
    cases hc : decodeHex c with
    | none =>
      dsimp only
      split_ifs with h0
      · exact ⟨_, .exit, rfl, h.ended_bad (by simp [chunkedMachine, hc, h0])⟩
      · -- the byte is looked at again in the extension
        obtain ⟨hle, hlt⟩ := h.valid
        obtain ⟨out, gap, hl⟩ := h.layout
        have hvalue : value < 2 ^ 64 := by
          have := Nat.pow_le_pow_right (n := 16) (by omega) hle
          omega
        have hstep : chunkedMachine consumeTrailer (.size value digits) c =
            chunkedMachine consumeTrailer (.ext value) c := by
          simp [chunkedMachine, hc, h0]
        refine ⟨_, .fallthru, rfl, .ext value, c :: text,
          ⟨?_, hvalue, h.ret, out, gap, { hl with run := ?_ }⟩, ⟨value, rfl⟩, le_rfl⟩
        · rw [h.decoder]
          rfl
        · rw [hl.run, Machine.run, Machine.run, hstep]
    | some v =>
      dsimp only
      split_ifs with h16
      · exact ⟨_, .exit, rfl, h.ended_bad (by simp [chunkedMachine, hc, h16])⟩
      · obtain ⟨hle, -⟩ := h.valid
        have hroom : ¬ 16 ≤ digits := by omega
        obtain ⟨hfit, hvalid⟩ := Stage.Valid.size_succ h.valid h16 (decodeHex_lt hc)
        have hat := h.advance (t := .size (value * 16 + v) (digits + 1))
          (by simp [chunkedMachine, hc, hroom]) hvalid rfl
        have hdecoder : (⟨(f.decoder.bytesLeftInChunk * 16 + v) % 2 ^ 64,
            f.decoder.consumeTrailer, digits + 1, f.decoder.state⟩ : ChunkedDecoder) =
            (Stage.size (value * 16 + v) (digits + 1)).decoder consumeTrailer := by
          rw [h.decoder]
          simp only [Stage.decoder]
          rw [Nat.mod_eq_of_lt hfit]
        rw [hdecoder]
        obtain ⟨f', flow, hx, hflow⟩ := ih hat (n := n) (by omega)
        refine ⟨f', flow, hx, ?_⟩
        cases flow with
        | fallthru =>
          obtain ⟨s, text', hat', hP, hle⟩ := hflow
          exact ⟨s, text', hat', hP, by rw [List.length_cons]; omega⟩
        | again =>
          obtain ⟨s, text', hat', hlt⟩ := hflow
          exact ⟨s, text', hat', by rw [List.length_cons]; omega⟩
        | exit => exact hflow
        | complete => exact hflow

theorem At.leads_inChunkExt {value n : ℕ} (h : At consumeTrailer bufsz total f (.ext value) text)
    (hn : text.length ≤ n) :
    Leads consumeTrailer bufsz total n (fun s => ∃ left, s = .data left) (inChunkExt bufsz f) := by
  apply h.leads_scan hn
  · intro c hc
    have hne : c ≠ lf := by simpa using hc
    simp [chunkedMachine, readExt, hne]
  · intro f c text h hc hlt
    obtain rfl : c = lf := by simpa using hc
    have hleft : f.decoder.bytesLeftInChunk = value := by rw [h.decoder]; rfl
    have hconsume : f.decoder.consumeTrailer = consumeTrailer := by rw [h.decoder]; rfl
    dsimp only
    rw [hleft, hconsume]
    cases value with
    | zero =>
      rw [if_pos rfl]
      cases consumeTrailer with
      | false =>
        rw [if_neg (by simp)]
        exact ⟨_, .complete, rfl, h.ended_done rfl⟩
      | true =>
        rw [if_pos rfl]
        exact ⟨_, .again, rfl, .lineHead, text,
          h.advance (t := .lineHead) rfl trivial (by rw [h.decoder]; rfl), hlt⟩
    | succ left =>
      rw [if_neg (Nat.succ_ne_zero left)]
      exact ⟨_, .fallthru, rfl, .data left, text,
        h.advance (t := .data left) rfl h.valid (by rw [h.decoder]; rfl), ⟨left, rfl⟩, hlt.le⟩

/-- A chunk that goes on behind the input. -/
theorem run_data_of_le {left : ℕ} (h : text.length ≤ left) :
    (chunkedMachine consumeTrailer).run (.data left) text =
      (text, .more (.data (left - text.length))) := by
  induction text generalizing left with
  | nil => rfl
  | cons c text ih =>
    rw [List.length_cons] at h
    obtain ⟨left, rfl⟩ := Nat.exists_eq_succ_of_ne_zero (Nat.ne_of_gt (Nat.zero_lt_of_lt h))
    have hstep : chunkedMachine consumeTrailer (.data (left + 1)) c = .step (.data left) [c] := rfl
    rw [Machine.run_of_step hstep, ih (by omega)]
    simp [Machine.emit]

/-- A chunk that ends in the input. -/
theorem run_data_append {left : ℕ} {a : List UInt8} (h : a.length = left + 1) :
    (chunkedMachine consumeTrailer).run (.data left) (a ++ text) =
      Machine.emit a ((chunkedMachine consumeTrailer).run .crlf text) := by
  induction a generalizing left with
  | nil => simp at h
  | cons c a ih =>
    rw [List.length_cons] at h
    rw [List.cons_append]
    cases left with
    | zero =>
      have hstep : chunkedMachine consumeTrailer (.data 0) c = .step .crlf [c] := rfl
      obtain rfl : a = [] := List.length_eq_zero_iff.mp (by omega)
      rw [Machine.run_of_step hstep, List.nil_append]
    | succ left =>
      have hstep : chunkedMachine consumeTrailer (.data (left + 1)) c = .step (.data left) [c] :=
        rfl
      rw [Machine.run_of_step hstep, ih (by omega), Machine.emit_emit, List.singleton_append]

/-- The bytes behind the gap are moved down to the decoded ones. -/
theorem moveDown_eq {out gap a b : List UInt8} (hbuf : f.buf = out ++ gap ++ (a ++ b))
    (hdst : f.dst = out.length) (hsrc : f.src = (out ++ gap).length)
    (hlen : f.buf.length = bufsz) :
    ∃ gap', gap'.length = gap.length ∧
      moveDown bufsz a.length f = some { f with buf := out ++ a ++ gap' ++ b } := by
  rw [moveDown]
  split_ifs with hne
  · rw [hbuf] at hlen
    obtain ⟨gap', hgap', hmove⟩ := move_down hlen.le
    refine ⟨gap', hgap', ?_⟩
    rw [hbuf, hdst, hsrc, hmove, Option.map_some]
  · have hnil : gap = [] := by
      rw [not_not, hdst, hsrc, List.length_append] at hne
      exact List.length_eq_zero_iff.mp (by omega)
    refine ⟨[], by rw [hnil], ?_⟩
    have hsame : f.buf = out ++ a ++ [] ++ b := by
      rw [hbuf, hnil]
      simp
    rw [← hsame]

theorem At.leads_inChunkData {left n : ℕ} (h : At consumeTrailer bufsz total f (.data left) text)
    (hn : text.length ≤ n) :
    Leads consumeTrailer bufsz total n (fun s => s = .crlf) (inChunkData bufsz f) := by
  have havail : bufsz - f.src = text.length := by
    have := h.src_eq
    omega
  have hleft : f.decoder.bytesLeftInChunk = left + 1 := by rw [h.decoder]; rfl
  have hdecoder := h.decoder
  obtain ⟨out, gap, hl⟩ := h.layout
  have hbufsz := hl.length
  rw [hl.buf] at hbufsz
  rw [inChunkData]
  dsimp only
  rw [havail, hleft]
  split_ifs with hlt
  · -- the whole input belongs to the chunk
    obtain ⟨gap', hgap', hmove⟩ :=
      moveDown_eq (a := text) (b := []) (by rw [hl.buf, List.append_nil]) hl.dst hl.src hl.length
    rw [hmove, Option.map_some]
    have hrun : total = (out ++ text, .more (.data (left - text.length))) := by
      rw [hl.run, run_data_of_le (by omega)]
      rfl
    have hvalid : left + 1 < 2 ^ 64 := h.valid
    refine ⟨_, .exit, rfl, ?_⟩
    rw [hrun]
    refine ⟨gap', [], rfl, ?_, ?_, ?_, ?_, rfl, rfl, h.ret, ?_⟩
    · simp [hl.dst]
    · simp [hl.src, hgap']; omega
    · simp only [List.length_append, List.length_nil] at hbufsz ⊢; omega
    · show left - text.length + 1 < 2 ^ 64
      omega
    · rw [hdecoder]
      simp only [Stage.decoder, ChunkedDecoder.mk.injEq, and_self, and_true]
      omega
  · obtain ⟨a, rest, rfl, ha⟩ : ∃ a rest, text = a ++ rest ∧ a.length = left + 1 :=
      ⟨text.take (left + 1), text.drop (left + 1), (List.take_append_drop _ _).symm,
        List.length_take_of_le (by omega)⟩
    obtain ⟨gap', hgap', hmove⟩ := moveDown_eq hl.buf hl.dst hl.src hl.length
    rw [← ha, hmove, Option.map_some]
    refine ⟨_, .fallthru, rfl, .crlf, rest, ⟨?_, trivial, h.ret, out ++ a, gap', ?_⟩, rfl, ?_⟩
    · rw [hdecoder]
      rfl
    · refine ⟨rfl, ?_, ?_, ?_, ?_⟩
      · simp [hl.dst]
      · simp [hl.src, hgap']; omega
      · simp only [List.length_append] at hbufsz ⊢; omega
      · rw [hl.run, run_data_append ha, Machine.emit_emit]
    · rw [List.length_append] at hn
      omega

theorem At.leads_inChunkCrlf {n : ℕ} (h : At consumeTrailer bufsz total f .crlf text)
    (hn : text.length ≤ n) :
    Leads consumeTrailer bufsz total n (fun _ => False) (inChunkCrlf bufsz f) := by
  apply h.leads_scan hn
  · intro c hc
    have heq : c = cr := by simpa using hc
    simp [chunkedMachine, heq]
  · intro f c text h hc hlt
    have hne : c ≠ cr := by simpa using hc
    rw [h.load, Option.map_some]
    split_ifs with hlf
    · exact ⟨_, .exit, rfl, h.ended_bad (by simp [chunkedMachine, hne, hlf])⟩
    · rw [not_not] at hlf
      exact ⟨_, .again, rfl, .size 0 0, text,
        h.advance (t := .size 0 0) (by rw [hlf]; rfl) ⟨by omega, by omega⟩
          (by rw [h.decoder]; rfl), hlt⟩

theorem At.leads_inTrailersLineHead {n : ℕ} (h : At consumeTrailer bufsz total f .lineHead text)
    (hn : text.length ≤ n) :
    Leads consumeTrailer bufsz total n (fun s => s = .lineMiddle) (inTrailersLineHead bufsz f) := by
  apply h.leads_scan hn
  · intro c hc
    have heq : c = cr := by simpa using hc
    simp [chunkedMachine, heq]
  · intro f c text h hc hlt
    have hne : c ≠ cr := by simpa using hc
    rw [h.load, Option.map_some]
    dsimp only
    split_ifs with hlf
    · exact ⟨_, .complete, rfl, h.ended_done (by rw [hlf]; rfl)⟩
    · exact ⟨_, .fallthru, rfl, .lineMiddle, text,
        h.advance (t := .lineMiddle) (by simp [chunkedMachine, hne, hlf]) trivial
          (by rw [h.decoder]; rfl), rfl, hlt.le⟩

theorem At.leads_inTrailersLineMiddle {n : ℕ}
    (h : At consumeTrailer bufsz total f .lineMiddle text) (hn : text.length ≤ n) :
    Leads consumeTrailer bufsz total n (fun _ => False) (inTrailersLineMiddle bufsz f) := by
  apply h.leads_scan hn
  · intro c hc
    have hne : c ≠ lf := by simpa using hc
    simp [chunkedMachine, hne]
  · intro f c text h hc hlt
    have heq : c = lf := by simpa using hc
    exact ⟨_, .again, rfl, .lineHead, text,
      h.advance (t := .lineHead) (by simp [chunkedMachine, heq]) trivial
        (by rw [h.decoder]; rfl), hlt⟩

/-! ## The loop -/

/-- **One round** of the loop reads on, or ends as the machine does. -/
theorem At.leads_chunkedSwitch (h : At consumeTrailer bufsz total f s text) :
    Leads consumeTrailer bufsz total text.length (fun _ => False) (chunkedSwitch bufsz f) := by
  have hdata : ∀ {left f text'}, At consumeTrailer bufsz total f (.data left) text' →
      text'.length ≤ text.length → Leads consumeTrailer bufsz total text.length (fun _ => False)
        (fallThru (inChunkData bufsz f) (inChunkCrlf bufsz)) := by
    intro left f text' h hle
    apply leads_fallThru (h.leads_inChunkData hle)
    rintro f s text' h rfl hle
    exact h.leads_inChunkCrlf hle
  have hext : ∀ {value f text'}, At consumeTrailer bufsz total f (.ext value) text' →
      text'.length ≤ text.length → Leads consumeTrailer bufsz total text.length (fun _ => False)
        (fallThru (inChunkExt bufsz f) fun f =>
          fallThru (inChunkData bufsz f) (inChunkCrlf bufsz)) := by
    intro value f text' h hle
    apply leads_fallThru (h.leads_inChunkExt hle)
    rintro f s text' h ⟨left, rfl⟩ hle
    exact hdata h hle
  rw [chunkedSwitch, h.decoder]
  cases s with
  | size value digits =>
    have hle := h.length_le
    apply leads_fallThru (h.leads_readSize (by omega))
    rintro f s text' h ⟨value, rfl⟩ hle
    exact hext h hle
  | ext value => exact hext h le_rfl
  | data left => exact hdata h le_rfl
  | crlf => exact h.leads_inChunkCrlf le_rfl
  | lineHead =>
    apply leads_fallThru (h.leads_inTrailersLineHead le_rfl)
    rintro f s text' h rfl hle
    exact h.leads_inTrailersLineMiddle hle
  | lineMiddle => exact h.leads_inTrailersLineMiddle le_rfl

/-- What is behind the decoded bytes when a call returns. -/
def leftover : Ending Stage UInt8 → List UInt8
  | .more _ => []
  | .done rest => rest
  | .bad rest => rest

/-- The value and the decoder of a call whose run ends so. -/
def Returns (consumeTrailer : Bool) (decoder : ChunkedDecoder) (ret : ℤ) :
    Ending Stage UInt8 → Prop
  | .more s => s.Valid ∧ decoder = s.decoder consumeTrailer ∧ ret = -2
  | .done rest => ret = rest.length
  | .bad _ => ret = -1

/-- **The loop** ends, and as the machine does. -/
theorem At.chunkedLoop {n : ℕ} (h : At consumeTrailer bufsz total f s text)
    (hn : text.length < n) :
    ∃ f' gap, Picohttp.chunkedLoop bufsz n f = some f' ∧
      f'.buf = total.1 ++ gap ++ leftover total.2 ∧ f'.dst = total.1.length ∧
      f'.src = (total.1 ++ gap).length ∧ f'.buf.length = bufsz ∧
      Returns consumeTrailer f'.decoder f'.ret total.2 := by
  induction n generalizing f s text with
  | zero => omega
  | succ n ih =>
    obtain ⟨f', flow, hx, hflow⟩ := h.leads_chunkedSwitch
    rw [Picohttp.chunkedLoop, hx, Option.bind_some]
    cases flow with
    | fallthru =>
      obtain ⟨s', text', -, hfalse, -⟩ := hflow
      exact hfalse.elim
    | again =>
      obtain ⟨s', text', hat, hlt⟩ := hflow
      exact ih hat (by omega)
    | exit =>
      obtain ⟨gap, rest, hbuf, hdst, hsrc, hlen, hend⟩ := hflow
      cases htotal : total.2 with
      | more s' =>
        rw [htotal] at hend
        obtain ⟨hvalid, -, rfl, hret, hdecoder⟩ := hend
        exact ⟨f', gap, rfl, hbuf, hdst, hsrc, hlen, hvalid, hdecoder, hret⟩
      | done rest' =>
        rw [htotal] at hend
        obtain ⟨hflow, -⟩ := hend
        cases hflow
      | bad rest' =>
        rw [htotal] at hend
        obtain ⟨-, rfl, hret⟩ := hend
        exact ⟨f', gap, rfl, hbuf, hdst, hsrc, hlen, hret⟩
    | complete =>
      obtain ⟨gap, rest, hbuf, hdst, hsrc, hlen, hend⟩ := hflow
      cases htotal : total.2 with
      | more s' =>
        rw [htotal] at hend
        obtain ⟨-, hflow, -⟩ := hend
        cases hflow
      | done rest' =>
        rw [htotal] at hend
        obtain ⟨-, rfl⟩ := hend
        refine ⟨_, gap, rfl, hbuf, hdst, hsrc, hlen, ?_⟩
        rw [hbuf, List.length_append] at hlen
        show (bufsz : ℤ) - f'.src = rest.length
        omega
      | bad rest' =>
        rw [htotal] at hend
        obtain ⟨hflow, -⟩ := hend
        cases hflow

end

/-- **A call** of the decoder at any stage. It ends and stays inside the buffer, the buffer
starts with the bytes that the machine writes and, behind these, with those that it does not
read, and the return value says how the machine ends. -/
theorem phrDecodeChunked_eq {consumeTrailer : Bool} {s : Stage} (h : s.Valid) (buf : List UInt8)
    {out : List UInt8} {ending : Ending Stage UInt8}
    (hrun : (chunkedMachine consumeTrailer).run s buf = (out, ending)) :
    ∃ d, phrDecodeChunked (s.decoder consumeTrailer) buf = some d ∧
      out ++ leftover ending <+: d.buf ∧ d.buf.length = buf.length ∧ d.bufsz = out.length ∧
      Returns consumeTrailer d.decoder d.ret ending := by
  have hat : At consumeTrailer buf.length (out, ending)
      { decoder := s.decoder consumeTrailer, buf, dst := 0, src := 0, ret := -2 } s buf :=
    ⟨rfl, h, rfl, [], [], rfl, rfl, rfl, rfl, hrun.symm⟩
  obtain ⟨f, gap, hloop, hbuf, hdst, hsrc, hlen, hret⟩ :=
    hat.chunkedLoop (Nat.lt_succ_self buf.length)
  have hcount : buf.length - f.src = (leftover ending).length := by
    rw [hsrc, ← hlen, hbuf, List.length_append, Nat.add_sub_cancel_left]
  obtain ⟨gap', hgap', hmove⟩ :=
    moveDown_eq (b := []) (by rw [hbuf, List.append_nil]) hdst hsrc hlen
  rw [phrDecodeChunked, hloop, Option.bind_some, hcount, hmove, Option.map_some]
  refine ⟨_, rfl, ?_, ?_, hdst, hret⟩
  · rw [List.append_nil]
    exact List.prefix_append _ _
  · rw [← hlen, hbuf]
    simp only [List.length_append, List.length_nil, hgap']
    omega

end Yotta.Picohttp
