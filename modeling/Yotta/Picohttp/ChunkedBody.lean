import Yotta.Lib.MessageHead
import Yotta.Picohttp.Chunked

/-!
# Chunked bodies

What `phr_decode_chunked` decodes over a series of calls, and the grammar of what it
accepts. The header asks for the calls: one for each piece of the input that arrives, while
the decoder returns −2.

Results:
* `decodePieces_eq`: the calls read what `chunkedMachine` reads from the concatenation of
  the pieces.
* `chunkedMachine_recognizes`: the machine accepts the texts of the grammar
  `ChunkedBody`.
-/

namespace Yotta.Picohttp

open Yotta.Bytes Yotta.MessageHead

/-! ## A series of calls -/

/-- How a series of calls ends: with a decoder that asks for more, behind the end of the
encoding, in front of `rest`, or with an error. -/
inductive ChunkedOutcome
  | more (decoder : ChunkedDecoder)
  | done (rest : List UInt8)
  | bad
deriving DecidableEq

/-- The calls for `pieces`, and the decoded bytes. What an application holds in the end is
what the last call leaves undecoded, and the pieces for which there is no call. -/
def decodePieces : ChunkedDecoder → List (List UInt8) → Option (List UInt8 × ChunkedOutcome)
  | decoder, [] => some ([], .more decoder)
  | decoder, piece :: pieces =>
    (phrDecodeChunked decoder piece).bind fun d =>
      let out := d.buf.take d.bufsz
      if d.ret = -2 then
        (decodePieces d.decoder pieces).map fun r => (out ++ r.1, r.2)
      else if d.ret = -1 then some (out, .bad)
      else some (out, .done ((d.buf.drop d.bufsz).take d.ret.toNat ++ pieces.flatten))

/-- The outcome of the calls when the machine ends so, and `unread` has not been given to it. -/
def chunkedOutcome (consumeTrailer : Bool) (unread : List UInt8) :
    Ending Stage UInt8 → ChunkedOutcome
  | .more s => .more (s.decoder consumeTrailer)
  | .done rest => .done (rest ++ unread)
  | .bad _ => .bad

section

variable {consumeTrailer : Bool} {s : Stage}

theorem decodePieces_feed (h : s.Valid) (pieces : List (List UInt8)) :
    decodePieces (s.decoder consumeTrailer) pieces =
      some (((chunkedMachine consumeTrailer).feed s pieces).1,
        chunkedOutcome consumeTrailer ((chunkedMachine consumeTrailer).feed s pieces).2.2.flatten
          ((chunkedMachine consumeTrailer).feed s pieces).2.1) := by
  induction pieces generalizing s with
  | nil => rfl
  | cons piece pieces ih =>
    rw [Machine.feed]
    cases hrun : (chunkedMachine consumeTrailer).run s piece with
    | mk out ending =>
      obtain ⟨d, hd, ⟨gap, hbuf⟩, -, hbufsz, hret⟩ := phrDecodeChunked_eq h piece hrun
      have hout : d.buf.take d.bufsz = out := by
        rw [← hbuf, hbufsz, List.append_assoc, List.take_left]
      rw [decodePieces, hd, Option.bind_some]
      dsimp only
      rw [hout]
      cases ending with
      | more s' =>
        obtain ⟨hvalid, hdecoder, hret⟩ := hret
        rw [if_pos hret, hdecoder, ih hvalid]
        rfl
      | done rest =>
        have hret : d.ret = rest.length := hret
        have hrest : (d.buf.drop d.bufsz).take d.ret.toNat = rest := by
          rw [← hbuf, hbufsz, List.append_assoc, List.drop_left, hret, Int.toNat_natCast]
          exact List.take_left
        rw [if_neg (by omega), if_neg (by omega), hrest]
        rfl
      | bad rest =>
        have hret : d.ret = -1 := hret
        rw [if_neg (by omega), if_pos hret]
        rfl

/-- **A series of calls** decodes what the machine reads from the concatenation of the pieces. -/
theorem decodePieces_eq (h : s.Valid) (pieces : List (List UInt8)) :
    decodePieces (s.decoder consumeTrailer) pieces =
      some (((chunkedMachine consumeTrailer).run s pieces.flatten).1,
        chunkedOutcome consumeTrailer []
          ((chunkedMachine consumeTrailer).run s pieces.flatten).2) := by
  rw [decodePieces_feed h, Machine.run_flatten]
  cases hend : ((chunkedMachine consumeTrailer).feed s pieces).2.1 with
  | more s' =>
    rw [Machine.feed_more _ hend]
    simp [Machine.resume, Machine.emit]
  | done rest => simp [Machine.resume, Machine.emit, chunkedOutcome]
  | bad rest => simp [Machine.resume, Machine.emit, chunkedOutcome]

theorem valid_start : (Stage.size 0 0).Valid := ⟨by omega, by omega⟩

end

/-! ## The grammar -/

/-- `c` is a hex digit. -/
def IsHex (c : UInt8) : Prop := (decodeHex c).isSome

/-- The number that the hex digits stand for, behind digits that stand for `value`. -/
def hexFrom (value : ℕ) (digits : List UInt8) : ℕ :=
  digits.foldl (fun v c => v * 16 + (decodeHex c).getD 0) value

/-- The line with the chunk size `value`: at most 16 hex digits, and an extension that they
do not go on in. -/
inductive SizeLine : ℕ → List UInt8 → Prop
  | mk {digits ext : List UInt8} (hne : digits ≠ []) (hlen : digits.length ≤ 16)
      (hhex : ∀ c ∈ digits, IsHex c) (hext : ∀ c ∈ ext.head?, ¬ IsHex c) (hlf : lf ∉ ext) :
      SizeLine (hexFrom 0 digits) (digits ++ (ext ++ [lf]))

/-- A line end behind `k` carriage returns. -/
def lineEnd (k : ℕ) : List UInt8 := List.replicate k cr ++ [lf]

/-- The trailer: lines that have something in front of their line end, and an empty one. -/
inductive Trailer : List UInt8 → Prop
  | last (k : ℕ) : Trailer (lineEnd k)
  | line {line rest : List UInt8} (hlf : lf ∉ line) (hcr : ∃ c ∈ line, c ≠ cr)
      (h : Trailer rest) : Trailer (line ++ lf :: rest)

/-- What stands behind the line of the last chunk. -/
def Closing (consumeTrailer : Bool) (text : List UInt8) : Prop :=
  if consumeTrailer then Trailer text else text = []

/-- `ChunkedBody consumeTrailer out text`: the text is a chunked encoding of `out`. -/
inductive ChunkedBody (consumeTrailer : Bool) : List UInt8 → List UInt8 → Prop
  | last {line text : List UInt8} (hline : SizeLine 0 line) (h : Closing consumeTrailer text) :
      ChunkedBody consumeTrailer [] (line ++ text)
  | chunk {line data out text : List UInt8} (k : ℕ) (hline : SizeLine data.length line)
      (hdata : data ≠ []) (h : ChunkedBody consumeTrailer out text) :
      ChunkedBody consumeTrailer (data ++ out) (line ++ (data ++ (lineEnd k ++ text)))

/-! ## What the machine accepts -/

/-- What is still to come at a stage, for the output `out`. -/
def StageText (consumeTrailer : Bool) : Stage → List UInt8 → List UInt8 → Prop
  | .size value digits, out, text => ∃ ds ext rest, 0 < digits + ds.length ∧
      ds.length ≤ 16 - digits ∧ (∀ c ∈ ds, IsHex c) ∧ (∀ c ∈ ext.head?, ¬ IsHex c) ∧ lf ∉ ext ∧
      text = ds ++ (ext ++ lf :: rest) ∧ Behind (hexFrom value ds) out rest
  | .ext value, out, text => ∃ ext rest, lf ∉ ext ∧ text = ext ++ lf :: rest ∧
      Behind value out rest
  | .data left, out, text => Behind (left + 1) out text
  | .crlf, out, text => ∃ k rest, text = lineEnd k ++ rest ∧ ChunkedBody consumeTrailer out rest
  | .lineHead, out, text => out = [] ∧ Trailer text
  | .lineMiddle, out, text => out = [] ∧ ∃ line rest, lf ∉ line ∧ text = line ++ lf :: rest ∧
      Trailer rest
where
  /-- What is to come behind the line with the chunk size `value`. -/
  Behind (value : ℕ) (out text : List UInt8) : Prop :=
    if value = 0 then out = [] ∧ Closing consumeTrailer text
    else ∃ data k out' rest, data.length = value ∧ out = data ++ out' ∧
      text = data ++ (lineEnd k ++ rest) ∧ ChunkedBody consumeTrailer out' rest

section

variable {consumeTrailer : Bool} {out text : List UInt8} {c : UInt8}

theorem not_isHex_lf : ¬ IsHex lf := by
  unfold IsHex
  decide

/-- A line with a chunk size in front of what has to stand behind it. -/
theorem stageText_start_iff : StageText consumeTrailer (.size 0 0) out text ↔
    ∃ value line rest, SizeLine value line ∧ text = line ++ rest ∧
      StageText.Behind consumeTrailer value out rest := by
  constructor
  · rintro ⟨ds, ext, rest, hpos, hlen, hhex, hext, hlf, rfl, h⟩
    have hne : ds ≠ [] := List.ne_nil_of_length_pos (by omega)
    exact ⟨_, _, rest, ⟨hne, hlen, hhex, hext, hlf⟩, by simp, h⟩
  · rintro ⟨_, _, rest, @⟨ds, ext, hne, hlen, hhex, hext, hlf⟩, rfl, h⟩
    have hpos := List.length_pos_of_ne_nil hne
    exact ⟨ds, ext, rest, by omega, hlen, hhex, hext, hlf, by simp, h⟩

theorem chunkedBody_iff :
    ChunkedBody consumeTrailer out text ↔ StageText consumeTrailer (.size 0 0) out text := by
  rw [stageText_start_iff]
  constructor
  · rintro (@⟨line, text, hline, h⟩ | @⟨line, data, out, text, k, hline, hdata, h⟩)
    · exact ⟨0, line, text, hline, rfl, rfl, h⟩
    · refine ⟨_, line, _, hline, rfl, ?_⟩
      rw [StageText.Behind, if_neg (by simpa using hdata)]
      exact ⟨data, k, out, text, rfl, rfl, rfl, h⟩
  · rintro ⟨value, line, rest, hline, rfl, h⟩
    rw [StageText.Behind] at h
    split_ifs at h with h0
    · obtain ⟨rfl, h⟩ := h
      exact .last (h0 ▸ hline) h
    · obtain ⟨data, k, out, rest, rfl, rfl, rfl, h⟩ := h
      exact .chunk k hline (by simpa using h0) h

theorem lineEnd_cons_iff {k : ℕ} {rest : List UInt8} : c :: text = lineEnd k ++ rest ↔
    k = 0 ∧ c = lf ∧ text = rest ∨ ∃ j, k = j + 1 ∧ c = cr ∧ text = lineEnd j ++ rest := by
  cases k with
  | zero => simp [lineEnd]
  | succ k => simp [lineEnd, List.replicate_succ]

/-- The end of the line with a chunk size. -/
theorem leaves_endSizeLine {value : ℕ} :
    Machine.Leaves (StageText consumeTrailer) out text (endSizeLine consumeTrailer value) ↔
      StageText.Behind consumeTrailer value out text := by
  rw [StageText.Behind]
  unfold endSizeLine
  cases value with
  | zero =>
    rw [if_pos rfl, Closing]
    cases consumeTrailer with
    | false => rfl
    | true => exact Machine.leaves_step_nil _
  | succ left =>
    dsimp only
    rw [Machine.leaves_step_nil, StageText, StageText.Behind]

theorem stageText_ext_cons {value : ℕ} :
    StageText consumeTrailer (.ext value) out (c :: text) ↔
      Machine.Leaves (StageText consumeTrailer) out text (readExt consumeTrailer value c) := by
  rw [readExt]
  split_ifs with hc
  · rw [leaves_endSizeLine]
    constructor
    · rintro ⟨ext, rest, hlf, heq, h⟩
      cases ext with
      | nil =>
        obtain ⟨-, rfl⟩ := List.cons.inj heq
        exact h
      | cons d ext =>
        obtain ⟨rfl, -⟩ := List.cons.inj heq
        exact absurd (by simp [hc]) hlf
    · intro h
      exact ⟨[], text, List.not_mem_nil, by rw [hc]; rfl, h⟩
  · rw [Machine.leaves_step_nil]
    constructor
    · rintro ⟨ext, rest, hlf, heq, h⟩
      cases ext with
      | nil => exact absurd (List.cons.inj heq).1 hc
      | cons d ext =>
        obtain ⟨rfl, rfl⟩ := List.cons.inj heq
        exact ⟨ext, rest, fun hmem => hlf (List.mem_cons_of_mem _ hmem), rfl, h⟩
    · rintro ⟨ext, rest, hlf, rfl, h⟩
      exact ⟨c :: ext, rest, by simp [Ne.symm hc, hlf], rfl, h⟩

theorem stageText_size_cons {value digits : ℕ} :
    StageText consumeTrailer (.size value digits) out (c :: text) ↔
      Machine.Leaves (StageText consumeTrailer) out text
        (chunkedMachine consumeTrailer (.size value digits) c) := by
  rw [chunkedMachine]
  cases hc : decodeHex c with
  | some v =>
    have hhexc : IsHex c := by rw [IsHex, hc]; rfl
    have hfrom : ∀ ds, hexFrom value (c :: ds) = hexFrom (value * 16 + v) ds := by
      intro ds
      simp [hexFrom, hc]
    -- the digits start with `c`, which neither an extension nor a line end does
    have hsplit : StageText consumeTrailer (.size value digits) out (c :: text) ↔
        digits < 16 ∧ StageText consumeTrailer (.size (value * 16 + v) (digits + 1)) out text := by
      constructor
      · rintro ⟨ds, ext, rest, hpos, hlen, hhex, hext, hlf, heq, h⟩
        cases ds with
        | nil =>
          cases ext with
          | nil =>
            obtain ⟨rfl, -⟩ := List.cons.inj heq
            exact absurd hhexc not_isHex_lf
          | cons d ext =>
            obtain ⟨rfl, -⟩ := List.cons.inj heq
            exact absurd hhexc (hext c rfl)
        | cons d ds =>
          obtain ⟨rfl, rfl⟩ := List.cons.inj heq
          rw [List.length_cons] at hlen
          rw [hfrom] at h
          exact ⟨by omega, ds, ext, rest, by omega, by omega,
            fun d hd => hhex d (List.mem_cons_of_mem _ hd), hext, hlf, rfl, h⟩
      · rintro ⟨hlt, ds, ext, rest, hpos, hlen, hhex, hext, hlf, rfl, h⟩
        refine ⟨c :: ds, ext, rest, ?_, ?_, ?_, hext, hlf, rfl, ?_⟩
        · simp
        · rw [List.length_cons]
          omega
        · simpa [hhexc] using hhex
        · rw [hfrom]
          exact h
    rw [hsplit]
    dsimp only
    split_ifs with h16
    · simp [h16]
    · rw [Machine.leaves_step_nil, and_iff_right (by omega)]
  | none =>
    have hhexc : ¬ IsHex c := by simp [IsHex, hc]
    -- there is no further digit
    have hsplit : StageText consumeTrailer (.size value digits) out (c :: text) ↔
        digits ≠ 0 ∧ StageText consumeTrailer (.ext value) out (c :: text) := by
      constructor
      · rintro ⟨ds, ext, rest, hpos, hlen, hhex, hext, hlf, heq, h⟩
        cases ds with
        | nil =>
          rw [List.length_nil] at hpos
          exact ⟨by omega, ext, rest, hlf, heq, h⟩
        | cons d ds =>
          obtain ⟨rfl, -⟩ := List.cons.inj heq
          exact absurd (hhex c List.mem_cons_self) hhexc
      · rintro ⟨hne, ext, rest, hlf, heq, h⟩
        refine ⟨[], ext, rest, ?_, by simp, by simp, ?_, hlf, heq, h⟩
        · rw [List.length_nil]
          omega
        · intro d hd
          cases ext with
          | nil => cases hd
          | cons e ext =>
            obtain ⟨rfl, -⟩ := List.cons.inj heq
            obtain rfl : c = d := by simpa using hd
            exact hhexc
    rw [hsplit]
    dsimp only
    split_ifs with h0
    · simp [h0]
    · rw [and_iff_right h0]
      exact stageText_ext_cons

theorem trailer_cons_iff : Trailer (c :: text) ↔
    if c = cr then Trailer text else if c = lf then text = []
      else ∃ line rest, lf ∉ line ∧ text = line ++ lf :: rest ∧ Trailer rest := by
  constructor
  · intro h
    generalize hs : c :: text = s at h
    cases h with
    | last k =>
      rw [← List.append_nil (lineEnd k), lineEnd_cons_iff] at hs
      rcases hs with ⟨-, rfl, rfl⟩ | ⟨j, -, rfl, rfl⟩
      · rw [if_neg (by decide), if_pos rfl]
      · rw [if_pos rfl, List.append_nil]
        exact .last j
    | @line line rest hlf hcr h =>
      cases line with
      | nil =>
        obtain ⟨d, hd, -⟩ := hcr
        cases hd
      | cons d line =>
        obtain ⟨rfl, rfl⟩ := List.cons.inj hs
        have hrest : lf ∉ line := fun hmem => hlf (List.mem_cons_of_mem _ hmem)
        split_ifs with h1 h2
        · obtain ⟨d, hd, hne⟩ := hcr
          refine .line hrest ⟨d, ?_, hne⟩ h
          exact (List.mem_cons.mp hd).resolve_left fun heq => hne (heq.trans h1)
        · exact absurd (by simp [h2]) hlf
        · exact ⟨line, rest, hrest, rfl, h⟩
  · intro h
    split_ifs at h with h1 h2
    · rw [h1]
      cases h with
      | last k => exact .last (k + 1)
      | @line line rest hlf hcr h =>
        obtain ⟨d, hd, hne⟩ := hcr
        have hlf' : lf ∉ cr :: line := List.not_mem_cons_of_ne_of_not_mem (by decide) hlf
        exact .line hlf' ⟨d, List.mem_cons_of_mem _ hd, hne⟩ h
    · rw [h, h2]
      exact .last 0
    · obtain ⟨line, rest, hlf, rfl, h⟩ := h
      have hlf' : lf ∉ c :: line := List.not_mem_cons_of_ne_of_not_mem (Ne.symm h2) hlf
      exact .line hlf' ⟨c, List.mem_cons_self, h1⟩ h

theorem not_trailer_nil : ¬ Trailer [] := by
  intro h
  generalize hs : ([] : List UInt8) = s at h
  cases h with
  | last k => simp [lineEnd] at hs
  | line hlf hcr h => simp at hs

/-- **The machine accepts** what the grammar says. -/
theorem chunkedMachine_recognizes (consumeTrailer : Bool) :
    (chunkedMachine consumeTrailer).Recognizes (StageText consumeTrailer) where
  nil s out h := by
    cases s with
    | size value digits =>
      obtain ⟨ds, ext, rest, -, -, -, -, -, heq, -⟩ := h
      simp at heq
    | ext value =>
      obtain ⟨ext, rest, -, heq, -⟩ := h
      simp at heq
    | data left =>
      rw [StageText, StageText.Behind, if_neg (Nat.succ_ne_zero left)] at h
      obtain ⟨data, k, out', rest, -, -, heq, -⟩ := h
      simp [lineEnd] at heq
    | crlf =>
      obtain ⟨k, rest, heq, -⟩ := h
      simp [lineEnd] at heq
    | lineHead => exact not_trailer_nil h.2
    | lineMiddle =>
      obtain ⟨-, line, rest, -, heq, -⟩ := h
      simp at heq
  cons s c out text := by
    cases s with
    | size value digits => exact stageText_size_cons
    | ext value => exact stageText_ext_cons
    | data left =>
      rw [StageText, StageText.Behind, if_neg (Nat.succ_ne_zero left)]
      cases left with
      | zero =>
        constructor
        · rintro ⟨data, k, out', rest, hlen, rfl, heq, h⟩
          obtain ⟨d, rfl⟩ := List.length_eq_one_iff.mp hlen
          obtain ⟨rfl, rfl⟩ := List.cons.inj heq
          exact ⟨out', rfl, k, rest, rfl, h⟩
        · rintro ⟨out', rfl, k, rest, rfl, h⟩
          exact ⟨[c], k, out', rest, rfl, rfl, rfl, h⟩
      | succ left =>
        change _ ↔ ∃ out', out = [c] ++ out' ∧ StageText consumeTrailer (.data left) out' text
        simp only [StageText, StageText.Behind, if_neg (Nat.succ_ne_zero left)]
        constructor
        · rintro ⟨data, k, out', rest, hlen, rfl, heq, h⟩
          cases data with
          | nil => cases hlen
          | cons d data =>
            obtain ⟨rfl, rfl⟩ := List.cons.inj heq
            exact ⟨data ++ out', rfl, data, k, out', rest, Nat.succ_injective hlen, rfl, rfl, h⟩
        · rintro ⟨_, rfl, data, k, out', rest, hlen, rfl, rfl, h⟩
          exact ⟨c :: data, k, out', rest, by rw [List.length_cons, hlen], rfl, rfl, h⟩
    | crlf =>
      rw [StageText, chunkedMachine]
      simp only [lineEnd_cons_iff]
      split_ifs with h1 h2
      · rw [Machine.leaves_step_nil, h1]
        constructor
        · rintro ⟨k, rest, ⟨-, hlf, -⟩ | ⟨j, -, -, rfl⟩, h⟩
          · cases hlf
          · exact ⟨j, rest, rfl, h⟩
        · rintro ⟨j, rest, rfl, h⟩
          exact ⟨j + 1, rest, Or.inr ⟨j, rfl, rfl, rfl⟩, h⟩
      · rw [Machine.leaves_step_nil, ← chunkedBody_iff, h2]
        constructor
        · rintro ⟨k, rest, ⟨-, -, rfl⟩ | ⟨j, -, hcr, -⟩, h⟩
          · exact h
          · cases hcr
        · intro h
          exact ⟨0, text, Or.inl ⟨rfl, rfl, rfl⟩, h⟩
      · rw [Machine.leaves_refuse]
        constructor
        · rintro ⟨k, rest, ⟨-, hlf, -⟩ | ⟨j, -, hcr, -⟩, -⟩
          · exact h2 hlf
          · exact h1 hcr
        · exact False.elim
    | lineHead =>
      rw [StageText, trailer_cons_iff, chunkedMachine]
      split_ifs with h1 h2
      · rw [Machine.leaves_step_nil, StageText]
      · rw [Machine.leaves_stop]
      · rw [Machine.leaves_step_nil, StageText]
    | lineMiddle =>
      rw [StageText, chunkedMachine]
      split_ifs with h1
      · rw [Machine.leaves_step_nil, StageText, h1]
        constructor
        · rintro ⟨rfl, line, rest, hlf, heq, h⟩
          cases line with
          | nil =>
            obtain ⟨-, rfl⟩ := List.cons.inj heq
            exact ⟨rfl, h⟩
          | cons d line =>
            obtain ⟨rfl, -⟩ := List.cons.inj heq
            exact absurd List.mem_cons_self hlf
        · rintro ⟨rfl, h⟩
          exact ⟨rfl, [], text, List.not_mem_nil, rfl, h⟩
      · rw [Machine.leaves_step_nil, StageText]
        constructor
        · rintro ⟨rfl, line, rest, hlf, heq, h⟩
          cases line with
          | nil => exact absurd (List.cons.inj heq).1 h1
          | cons d line =>
            obtain ⟨rfl, rfl⟩ := List.cons.inj heq
            exact ⟨rfl, line, rest, fun hmem => hlf (List.mem_cons_of_mem _ hmem), rfl, h⟩
        · rintro ⟨rfl, line, rest, hlf, rfl, h⟩
          exact ⟨rfl, c :: line, rest, by simp [Ne.symm h1, hlf], rfl, h⟩

end

/-! ## Results -/

section

variable {consumeTrailer : Bool} {pieces : List (List UInt8)} {out rest : List UInt8}

/-- Calls that ask for more have read every piece. -/
theorem run_of_decodePieces_more {decoder : ChunkedDecoder}
    (h : decodePieces (.start consumeTrailer) pieces = some (out, .more decoder)) :
    ∃ s : Stage, s.Valid ∧ decoder = s.decoder consumeTrailer ∧
      (chunkedMachine consumeTrailer).run (.size 0 0) pieces.flatten = (out, .more s) := by
  have heq : decodePieces (.start consumeTrailer) pieces = _ := decodePieces_eq valid_start pieces
  rw [h] at heq
  obtain ⟨rfl, hend⟩ := Prod.mk.inj (Option.some.inj heq)
  cases hrun : (chunkedMachine consumeTrailer).run (.size 0 0) pieces.flatten with
  | mk out' ending =>
    rw [hrun] at hend
    cases ending with
    | more s =>
      obtain ⟨d, -, -, -, -, hvalid, -, -⟩ := phrDecodeChunked_eq valid_start _ hrun
      exact ⟨s, hvalid, ChunkedOutcome.more.inj hend, rfl⟩
    | done rest => cases hend
    | bad rest => cases hend

/-- **In place.** Whatever has been decoded before, the next call ends and stays inside its
buffer, and the size it has read so far fits a `size_t`. The buffer then starts with what a
machine without a buffer writes for the new bytes, and goes on with those it does not read. -/
theorem phrDecodeChunked_call {decoder : ChunkedDecoder}
    (h : decodePieces (.start consumeTrailer) pieces = some (out, .more decoder))
    (buf : List UInt8) :
    ∃ d out' ending, phrDecodeChunked decoder buf = some d ∧
      (chunkedMachine consumeTrailer).run (.size 0 0) (pieces.flatten ++ buf) =
        (out ++ out', ending) ∧
      out' ++ leftover ending <+: d.buf ∧ d.buf.length = buf.length ∧ d.bufsz = out'.length ∧
      Returns consumeTrailer d.decoder d.ret ending := by
  obtain ⟨s, hvalid, rfl, hrun⟩ := run_of_decodePieces_more h
  cases hnext : (chunkedMachine consumeTrailer).run s buf with
  | mk out' ending =>
    obtain ⟨d, hd, hbuf⟩ := phrDecodeChunked_eq hvalid buf hnext
    refine ⟨d, out', ending, hd, ?_, hbuf⟩
    rw [Machine.run_append, hrun]
    change Machine.emit out ((chunkedMachine consumeTrailer).run s buf) = _
    rw [hnext, Machine.emit]

theorem phrDecodeChunked_call_hello :
    ∃ d out' ending,
      phrDecodeChunked ⟨3, false, 0, .inChunkData⟩ (ascii "llo\r\n0") = some d ∧
      (chunkedMachine false).run (.size 0 0) (ascii "5\r\nhe" ++ ascii "llo\r\n0") =
        (ascii "he" ++ out', ending) ∧
      out' ++ leftover ending <+: d.buf ∧ d.buf.length = (ascii "llo\r\n0").length ∧
      d.bufsz = out'.length ∧ Returns false d.decoder d.ret ending :=
  have h : decodePieces (.start false) [ascii "5\r\nhe"] =
      some (ascii "he", .more ⟨3, false, 0, .inChunkData⟩) := by decide
  phrDecodeChunked_call h _

/-- **Segmentation.** However the input is cut into calls, they end and decode what a single
call for all of it decodes; the end of the encoding is found at the same place. -/
theorem decodePieces_flatten (consumeTrailer : Bool) (pieces : List (List UInt8)) :
    ∃ r, decodePieces (.start consumeTrailer) pieces = some r ∧
      decodePieces (.start consumeTrailer) [pieces.flatten] = some r := by
  refine ⟨_, decodePieces_eq valid_start pieces, ?_⟩
  have hwhole : [pieces.flatten].flatten = pieces.flatten := by simp
  conv_rhs => rw [← hwhole]
  exact decodePieces_eq valid_start [pieces.flatten]

theorem decodePieces_eq_done_iff :
    decodePieces (.start consumeTrailer) pieces = some (out, .done rest) ↔
      (chunkedMachine consumeTrailer).run (.size 0 0) pieces.flatten = (out, .done rest) := by
  have heq : decodePieces (.start consumeTrailer) pieces = _ := decodePieces_eq valid_start pieces
  rw [heq]
  cases (chunkedMachine consumeTrailer).run (.size 0 0) pieces.flatten with
  | mk out' ending => cases ending <;> simp [chunkedOutcome]

/-- **What is accepted.** The calls find the end of the encoding exactly where the input
starts with a text of the grammar, and they decode what the grammar says. -/
theorem decodePieces_done_iff (consumeTrailer : Bool) (pieces : List (List UInt8))
    (out rest : List UInt8) :
    decodePieces (.start consumeTrailer) pieces = some (out, .done rest) ↔
      ∃ body, pieces.flatten = body ++ rest ∧ ChunkedBody consumeTrailer out body := by
  rw [decodePieces_eq_done_iff, (chunkedMachine_recognizes consumeTrailer).run_eq_done_iff]
  simp only [chunkedBody_iff]

end

/-! ## Encoding -/

/-- A number in hex digits. -/
def hexText (n : ℕ) : List UInt8 := (Nat.toDigits 16 n).map fun c => UInt8.ofNat c.toNat

/-- A chunk. -/
def chunkText (data : List UInt8) : List UInt8 := hexText data.length ++ crlf ++ data ++ crlf

/-- The end of the encoding behind the line of the last chunk. -/
def trailerText (trailer : List (List UInt8)) : List UInt8 := trailer.flatMap (· ++ crlf) ++ crlf

/-- The chunked encoding of `chunks`. -/
def chunkedText (chunks : List (List UInt8)) (trailer : List (List UInt8)) : List UInt8 :=
  chunks.flatMap chunkText ++ (hexText 0 ++ crlf ++ trailerText trailer)

theorem hexText_eq (n : ℕ) :
    hexText n = (if n < 16 then [] else hexText (n / 16)) ++
      [UInt8.ofNat (Nat.digitChar (n % 16)).toNat] := by
  unfold hexText
  rw [Nat.toDigits_eq_if (by omega)]
  split_ifs with h
  · rw [Nat.mod_eq_of_lt h]
    rfl
  · simp

theorem decodeHex_digitChar :
    ∀ d, d < 16 → decodeHex (UInt8.ofNat (Nat.digitChar d).toNat) = some d := by
  decide

theorem hexFrom_hexText (n : ℕ) : hexFrom 0 (hexText n) = n := by
  induction n using Nat.strong_induction_on with
  | _ n ih =>
    have hdigit := decodeHex_digitChar (n % 16) (Nat.mod_lt _ (by omega))
    rw [hexText_eq, hexFrom, List.foldl_append, List.foldl_cons, List.foldl_nil, hdigit,
      Option.getD_some]
    split_ifs with h
    · rw [List.foldl_nil]
      omega
    · have hrest : List.foldl (fun v c => v * 16 + (decodeHex c).getD 0) 0 (hexText (n / 16)) =
          n / 16 := ih (n / 16) (by omega)
      rw [hrest]
      omega

theorem isHex_hexText (n : ℕ) : ∀ c ∈ hexText n, IsHex c := by
  induction n using Nat.strong_induction_on with
  | _ n ih =>
    intro c hc
    rw [hexText_eq, List.mem_append, List.mem_singleton] at hc
    rcases hc with hc | rfl
    · split_ifs at hc with hlt
      · cases hc
      · exact ih (n / 16) (by omega) c hc
    · rw [IsHex, decodeHex_digitChar _ (Nat.mod_lt _ (by omega))]
      rfl

theorem sizeLine_hexText {n : ℕ} (h : n < 2 ^ 64) : SizeLine n (hexText n ++ crlf) := by
  have hne : hexText n ≠ [] := by
    rw [hexText_eq]
    exact List.append_ne_nil_of_right_ne_nil _ (List.cons_ne_nil _ _)
  have hlen : (hexText n).length ≤ 16 := by
    rw [hexText, List.length_map]
    exact Nat.toDigits_length 16 n 16 (by omega) (lt_of_lt_of_le h (by norm_num))
  have hext : ∀ c ∈ ([cr] : List UInt8).head?, ¬ IsHex c := by
    intro c hc
    obtain rfl : cr = c := by simpa using hc
    unfold IsHex
    decide
  have hline := SizeLine.mk hne hlen (isHex_hexText n) hext (by decide)
  rwa [hexFrom_hexText] at hline

/-- A line that may stand in a trailer. -/
def IsTrailerLine (line : List UInt8) : Prop := lf ∉ line ∧ ∃ c ∈ line, c ≠ cr

theorem trailer_trailerText {trailer : List (List UInt8)}
    (h : ∀ line ∈ trailer, IsTrailerLine line) : Trailer (trailerText trailer) := by
  induction trailer with
  | nil => exact .last 1
  | cons line trailer ih =>
    obtain ⟨hlf, c, hc, hcr⟩ := h line List.mem_cons_self
    have hrest := ih fun l hl => h l (List.mem_cons_of_mem _ hl)
    have hlf' : lf ∉ line ++ [cr] := by
      simp only [List.mem_append, List.mem_singleton, not_or]
      exact ⟨hlf, by decide⟩
    have heq : trailerText (line :: trailer) = line ++ [cr] ++ lf :: trailerText trailer := by
      simp [trailerText, crlf]
    rw [heq]
    exact .line hlf' ⟨c, List.mem_append_left _ hc, hcr⟩ hrest

theorem chunkedBody_chunkedText {consumeTrailer : Bool} {chunks : List (List UInt8)}
    {text : List UInt8} (hchunks : ∀ data ∈ chunks, data ≠ [] ∧ data.length < 2 ^ 64)
    (htext : Closing consumeTrailer text) :
    ChunkedBody consumeTrailer chunks.flatten
      (chunks.flatMap chunkText ++ (hexText 0 ++ crlf ++ text)) := by
  induction chunks with
  | nil =>
    show ChunkedBody consumeTrailer [] (hexText 0 ++ crlf ++ text)
    exact .last (sizeLine_hexText (by omega)) htext
  | cons data chunks ih =>
    obtain ⟨hne, hlen⟩ := hchunks data List.mem_cons_self
    have hrest := ih fun d hd => hchunks d (List.mem_cons_of_mem _ hd)
    have hchunk := ChunkedBody.chunk 1 (sizeLine_hexText hlen) hne hrest
    have heq : (data :: chunks).flatMap chunkText ++ (hexText 0 ++ crlf ++ text) =
        hexText data.length ++ crlf ++ (data ++ (lineEnd 1 ++
          (chunks.flatMap chunkText ++ (hexText 0 ++ crlf ++ text)))) := by
      simp [chunkText, crlf, lineEnd]
    rw [heq]
    exact hchunk

/-- **Round trip.** However the encoding of `chunks` and what stands behind it are cut into
calls, the chunks are decoded; a decoder that does not consume the trailer leaves it. -/
theorem decodePieces_chunkedText {chunks trailer pieces : List (List UInt8)} {rest : List UInt8}
    (hchunks : ∀ data ∈ chunks, data ≠ [] ∧ data.length < 2 ^ 64)
    (htrailer : ∀ line ∈ trailer, IsTrailerLine line)
    (hpieces : pieces.flatten = chunkedText chunks trailer ++ rest) :
    decodePieces (.start true) pieces = some (chunks.flatten, .done rest) ∧
      decodePieces (.start false) pieces =
        some (chunks.flatten, .done (trailerText trailer ++ rest)) := by
  have hclosing : Closing true (trailerText trailer) := trailer_trailerText htrailer
  constructor
  · rw [decodePieces_eq_done_iff, (chunkedMachine_recognizes true).run_eq_done_iff]
    exact ⟨_, hpieces, chunkedBody_iff.mp (chunkedBody_chunkedText hchunks hclosing)⟩
  · rw [decodePieces_eq_done_iff, (chunkedMachine_recognizes false).run_eq_done_iff]
    have hopen : Closing false [] := rfl
    refine ⟨_, ?_, chunkedBody_iff.mp (chunkedBody_chunkedText hchunks hopen)⟩
    rw [hpieces, chunkedText]
    simp

theorem decodePieces_chunkedText_hello :
    decodePieces (.start true) [chunkedText [ascii "hello", ascii " world"] [ascii "a: b"], []] =
        some (ascii "hello world", .done []) ∧
      decodePieces (.start false) [chunkedText [ascii "hello", ascii " world"] [ascii "a: b"], []] =
        some (ascii "hello world", .done (trailerText [ascii "a: b"] ++ [])) :=
  have hchunks : ∀ data ∈ [ascii "hello", ascii " world"], data ≠ [] ∧ data.length < 2 ^ 64 := by
    decide
  have htrailer : ∀ line ∈ [ascii "a: b"], IsTrailerLine line := by
    unfold IsTrailerLine
    decide
  decodePieces_chunkedText hchunks htrailer (by simp)

end Yotta.Picohttp
