import Yotta.Picohttp.Lines

/-!
# `phr_parse_request` on a growing buffer

The connection hands the parser a buffer that grows from call to call, with the
length it had at the last call and the number of headers that were read then.

Results:
* `parseHeaders_of_le` and `parseHeaders_of_lt`: what another room for headers
  changes, and bytes behind the request.
* `parseHeaders_front`: how many headers are complete in a front of a request.
* `phrParseRequest_of_le` and `phrParseRequest_of_lt`: a later call accepts a
  request that it has room for, and refuses any other.
* `phrParseRequest_front` and `phrParseRequest_again`: the first and the later
  calls on a front of a request are incomplete.
-/

namespace Yotta.Picohttp

open Yotta.Bytes Yotta.Numeral Yotta.Scan

/-! ## Headers -/

theorem length_le_of_parseHeaders {maxHeaders len n : ℕ} {headers headers' : List PhrHeader}
    {s : List UInt8} {res : Scan Unit}
    (h : parseHeaders maxHeaders len n headers s = (res, headers')) :
    headers.length ≤ headers'.length := by
  induction n generalizing headers s with
  | zero => cases h; rfl
  | succ n ih =>
    cases s with
    | nil => cases h; rfl
    | cons c s =>
      rw [parseHeaders] at h
      split_ifs at h with h1 h2
      · cases h; rfl
      · cases h; rfl
      · split at h
        · have := ih h
          rw [List.length_append] at this
          omega
        · cases h; rfl
        · cases h; rfl

theorem length_headers_le_of_parseHeaders {maxHeaders len n : ℕ}
    {headers headers' : List PhrHeader} {s : List UInt8} {res : Scan Unit}
    (h : parseHeaders maxHeaders len n headers s = (res, headers'))
    (hle : headers.length ≤ maxHeaders) : headers'.length ≤ maxHeaders := by
  induction n generalizing headers s with
  | zero => cases h; exact hle
  | succ n ih =>
    cases s with
    | nil => cases h; exact hle
    | cons c s =>
      rw [parseHeaders] at h
      split_ifs at h with h1 h2
      · cases h; exact hle
      · cases h; exact hle
      · split at h
        · exact ih h (by rw [List.length_append, List.length_singleton]; omega)
        · cases h; exact hle
        · cases h; exact hle

/-- The rounds of `parse_headers` that accept: the empty line, or a header line and the rounds
behind it. -/
theorem parseHeaders_done {maxHeaders len n : ℕ} {headers headers' : List PhrHeader}
    {s rest : List UInt8}
    (h : parseHeaders maxHeaders len (n + 1) headers s = (.done () rest, headers')) :
    (∃ c t, s = c :: t ∧ (c = cr ∨ c = lf) ∧ newline c t = .done () rest ∧ headers' = headers) ∨
    ∃ c t header u, s = c :: t ∧ c ≠ cr ∧ c ≠ lf ∧ headers.length ≠ maxHeaders ∧
      headerLine (len - s.length) headers.isEmpty s = .done header u ∧
      parseHeaders maxHeaders len n (headers ++ [header]) u = (.done () rest, headers') := by
  cases s with
  | nil => cases h
  | cons c t =>
    rw [parseHeaders] at h
    split_ifs at h with h1 h2
    · obtain ⟨hres, hheaders⟩ := Prod.mk.inj h
      exact Or.inl ⟨c, t, rfl, by simpa using h1, hres, hheaders.symm⟩
    · cases h
    · simp only [Bool.or_eq_true, decide_eq_true_eq, not_or] at h1
      split at h
      · rename_i header u hline
        exact Or.inr ⟨c, t, header, u, rfl, h1.1, h1.2, h2, hline, h⟩
      · cases h
      · cases h

theorem parseHeaders_newline {c : UInt8} (hc : c = cr ∨ c = lf) (maxHeaders len n : ℕ)
    (headers : List PhrHeader) (s : List UInt8) :
    parseHeaders maxHeaders len (n + 1) headers (c :: s) = (newline c s, headers) := by
  rw [parseHeaders, if_pos (by simpa using hc)]

theorem parseHeaders_line {c : UInt8} (h1 : c ≠ cr) (h2 : c ≠ lf) {maxHeaders : ℕ}
    {headers : List PhrHeader} (hroom : headers.length ≠ maxHeaders) (len n : ℕ) (s : List UInt8) :
    parseHeaders maxHeaders len (n + 1) headers (c :: s) =
      match headerLine (len - (c :: s).length) headers.isEmpty (c :: s) with
      | .done h rest => parseHeaders maxHeaders len n (headers ++ [h]) rest
      | .eof => (.eof, headers)
      | .bad => (.bad, headers) := by
  rw [parseHeaders, if_neg (by simp [h1, h2]), if_neg hroom]
  rfl

/-- **Room.** Headers that are accepted are accepted wherever there is room for
them, and with other bytes behind them. -/
theorem parseHeaders_of_le {maxHeaders room len n n' : ℕ} {headers headers' : List PhrHeader}
    {s rest : List UInt8}
    (h : parseHeaders maxHeaders len n headers s = (.done () rest, headers'))
    (hroom : headers'.length ≤ room) (hn : n ≤ n') (y : List UInt8) :
    parseHeaders room (len + y.length) n' headers (s ++ y) = (.done () (rest ++ y), headers') := by
  induction n generalizing n' headers s with
  | zero => cases h
  | succ n ih =>
    obtain ⟨n', rfl⟩ := Nat.exists_eq_add_of_le hn
    rw [show n + 1 + n' = (n + n') + 1 by omega]
    rcases parseHeaders_done h with ⟨c, t, rfl, hc, hnl, rfl⟩ |
      ⟨c, t, header, u, rfl, h1, h2, -, hline, hu⟩
    · rw [List.cons_append, parseHeaders_newline hc, (extends_newline c).more hnl]
    · have hlen := length_le_of_parseHeaders hu
      rw [List.length_append, List.length_singleton] at hlen
      have hpos : len + y.length - (c :: t ++ y).length = len - (c :: t).length := by
        rw [List.length_append]
        omega
      rw [List.cons_append, parseHeaders_line h1 h2 (by omega), ← List.cons_append, hpos,
        (extends_headerLine _ _).more hline]
      exact ih hu (by omega)

/-- Headers that there is no room for are refused. -/
theorem parseHeaders_of_lt {maxHeaders room len n n' : ℕ} {headers headers' : List PhrHeader}
    {s rest : List UInt8}
    (h : parseHeaders maxHeaders len n headers s = (.done () rest, headers'))
    (hle : headers.length ≤ room) (hroom : room < headers'.length) (hn : n ≤ n')
    (y : List UInt8) :
    (parseHeaders room (len + y.length) n' headers (s ++ y)).1 = .bad := by
  induction n generalizing n' headers s with
  | zero => cases h
  | succ n ih =>
    obtain ⟨n', rfl⟩ := Nat.exists_eq_add_of_le hn
    rw [show n + 1 + n' = (n + n') + 1 by omega]
    rcases parseHeaders_done h with ⟨c, t, rfl, hc, hnl, rfl⟩ |
      ⟨c, t, header, u, rfl, h1, h2, -, hline, hu⟩
    · omega
    · have hpos : len + y.length - (c :: t ++ y).length = len - (c :: t).length := by
        rw [List.length_append]
        omega
      by_cases hfull : headers.length = room
      · rw [List.cons_append, parseHeaders, if_neg (by simp [h1, h2]), if_pos hfull]
      · rw [List.cons_append, parseHeaders_line h1 h2 hfull, ← List.cons_append, hpos,
          (extends_headerLine _ _).more hline]
        exact ih hu (by rw [List.length_append, List.length_singleton]; omega) (by omega)

/-- **Fronts.** In a proper front of accepted headers, all header lines are
complete exactly when only the last line end, or a part of it, is missing. -/
theorem parseHeaders_front {maxHeaders len n n' : ℕ} {headers headers' : List PhrHeader}
    {a b : List UInt8} (hb : b ≠ [])
    (h : parseHeaders maxHeaders len n headers (a ++ b) = (.done () [], headers'))
    (hn : a.length < n') :
    ∃ front, parseHeaders maxHeaders (len - b.length) n' headers a = (.eof, front) ∧
      front.length ≤ headers'.length ∧ (front.length = headers'.length ↔ IsNewline b) := by
  induction n generalizing n' headers a with
  | zero => cases h
  | succ n ih =>
    obtain ⟨n', rfl⟩ : ∃ m, n' = m + 1 := ⟨n' - 1, by omega⟩
    have hmono := length_le_of_parseHeaders h
    rcases parseHeaders_done h with ⟨c, t, heq, hc, hnl, rfl⟩ |
      ⟨c, t, header, u, heq, h1, h2, hroom, hline, hu⟩
    · -- only the empty line is left
      have hfull : IsNewline (a ++ b) := by
        obtain ⟨p, hp, hp'⟩ := reads_newline hnl
        rwa [heq, hp, List.append_nil]
      refine ⟨headers', ?_, le_rfl, iff_of_true rfl (hfull.of_suffix hb)⟩
      cases a with
      | nil => rw [parseHeaders]
      | cons d a =>
        obtain ⟨rfl, rfl⟩ := List.cons.inj heq
        rw [parseHeaders_newline hc, (extends_newline d).eof_of_append hb hnl]
    · have hmono' := length_le_of_parseHeaders hu
      rw [List.length_append, List.length_singleton] at hmono'
      obtain ⟨p, hp, hpl⟩ := line_of_headerLine h1 h2 (heq ▸ hline)
      have hpu : p ++ u = a ++ b := by rw [← hp, heq]
      have hu0 : u ≠ [] := by rintro rfl; cases n <;> cases hu
      -- the front ends inside the line, or behind it
      by_cases hfront : headerLine (len - (a ++ b).length) headers.isEmpty a = .eof
      · have hlt := (exact_headerLine _ _).length_lt_of_eof hfront hline
        refine ⟨headers, ?_, hmono, iff_of_false (by omega)
          (not_isNewline_of_line hpl.isLine.getLast? hpu hu0 hlt)⟩
        cases a with
        | nil => rw [parseHeaders]
        | cons d a =>
          obtain ⟨rfl, rfl⟩ := List.cons.inj heq
          rw [parseHeaders_line h1 h2 hroom, Nat.sub_sub, Nat.add_comm, ← List.length_append,
            hfront]
      · obtain ⟨a', ha', rfl⟩ := (extends_headerLine _ _).of_done hfront hline
        cases a with
        | nil => cases ha'
        | cons d a =>
          obtain ⟨rfl, rfl⟩ := List.cons.inj heq
          have hlen : a'.length < n' := by
            have := congrArg List.length hpu
            simp only [List.length_append, List.length_cons] at this hn
            have hp0 : 0 < p.length := by
              obtain ⟨c, t, rfl, -⟩ := hpl
              exact Nat.succ_pos _
            omega
          obtain ⟨front, hf, hle, hiff⟩ := ih hu hlen
          refine ⟨front, ?_, hle, hiff⟩
          rw [parseHeaders_line h1 h2 hroom, Nat.sub_sub, Nat.add_comm, ← List.length_append, ha']
          exact hf

/-! ## Requests -/

/-- `q` is accepted with room for `maxHeaders` headers, and consumed entirely. -/
def Accepts (maxHeaders : ℕ) (q : List UInt8) (request : Request) : Prop :=
  phrParseRequest q maxHeaders 0 = ((q.length : ℤ), request)

theorem accepts_of_count {maxHeaders : ℕ} {q : List UInt8}
    (h : (phrParseRequest q maxHeaders 0).1 = q.length) :
    Accepts maxHeaders q (phrParseRequest q maxHeaders 0).2 :=
  Prod.ext h rfl

/-- What has been stored of a request line has no headers. -/
theorem headers_stored (token : List UInt8 → Scan (List UInt8)) (s : List UInt8) :
    (stored token s).headers = [] := by
  unfold stored
  repeat' split
  all_goals rfl

theorem accepts_iff {maxHeaders : ℕ} {q : List UInt8} {request : Request} :
    Accepts maxHeaders q request ↔
      parseRequest maxHeaders q = (.done () [], request) ∧ q.length < 2 ^ 31 := by
  rw [Accepts, phrParseRequest, if_neg (not_not.mpr rfl)]
  dsimp only
  rcases hp : parseRequest maxHeaders q with ⟨_ | _ | _, r⟩
  · rename_i rest
    have hle := length_le_of_isCompleteFrom (isCompleteFrom_of_parseRequest hp)
    constructor
    · intro h
      obtain ⟨hlen, rfl⟩ := Prod.mk.inj h
      have hlt : q.length < 2 ^ 31 := by
        have := (toInt_bounds (q.length - rest.length)).2
        omega
      rw [toInt_eq (by omega)] at hlen
      rw [List.length_eq_zero_iff.mp (by omega : rest.length = 0)]
      exact ⟨rfl, hlt⟩
    · rintro ⟨h, hlt⟩
      obtain ⟨hres, rfl⟩ := Prod.mk.inj h
      obtain rfl : rest = [] := by simpa using hres
      simpa using toInt_natCast.mpr hlt
  · exact iff_of_false (fun h => by have := (Prod.mk.inj h).1; omega) nofun
  · exact iff_of_false (fun h => by have := (Prod.mk.inj h).1; omega) nofun

theorem Accepts.parse {maxHeaders : ℕ} {q : List UInt8} {request : Request}
    (h : Accepts maxHeaders q request) : parseRequest maxHeaders q = (.done () [], request) :=
  (accepts_iff.mp h).1

/-- The length of an accepted request fits the `int` that is returned. -/
theorem Accepts.length_lt {maxHeaders : ℕ} {q : List UInt8} {request : Request}
    (h : Accepts maxHeaders q request) : q.length < 2 ^ 31 := (accepts_iff.mp h).2

/-- An accepted request is a request line and its headers. -/
theorem Accepts.parts {maxHeaders : ℕ} {q : List UInt8} {request : Request}
    (h : Accepts maxHeaders q request) :
    ∃ method path minorVersion s headers, requestLine q = .done (method, path, minorVersion) s ∧
      parseHeaders maxHeaders q.length (s.length + 1) [] s = (.done () [], headers) ∧
      request = { method := some method, path := some path, minorVersion, headers } := by
  replace h := h.parse
  rw [parseRequest] at h
  cases hr : requestLine q with
  | eof => rw [hr] at h; cases h
  | bad => rw [hr] at h; cases h
  | done x s =>
    obtain ⟨method, path, minorVersion⟩ := x
    simp only [hr] at h
    obtain ⟨hres, rfl⟩ := Prod.mk.inj h
    exact ⟨method, path, minorVersion, s, _, rfl, Prod.ext hres rfl, rfl⟩

theorem Accepts.ne_nil {maxHeaders : ℕ} {q : List UInt8} {request : Request}
    (h : Accepts maxHeaders q request) : q ≠ [] := by
  rintro rfl
  obtain ⟨_, _, _, _, _, hr, -⟩ := h.parts
  cases hr

theorem Accepts.length_headers_le {maxHeaders : ℕ} {q : List UInt8} {request : Request}
    (h : Accepts maxHeaders q request) : request.headers.length ≤ maxHeaders := by
  obtain ⟨_, _, _, s, headers, -, hheaders, rfl⟩ := h.parts
  exact length_headers_le_of_parseHeaders hheaders (Nat.zero_le _)

/-- The test for completeness, in every call on an accepted request. -/
theorem Accepts.complete {maxHeaders : ℕ} {q : List UInt8} {request : Request}
    (h : Accepts maxHeaders q request) {lastLen : ℕ} (hlast : lastLen < q.length)
    (y : List UInt8) :
    ∃ rest, (if lastLen ≠ 0 then isComplete (q ++ y) lastLen else .done () (q ++ y)) =
      .done () rest := by
  split_ifs
  · exact ⟨y, isComplete_append (isComplete_request h.parse hlast) hlast.le y⟩
  · exact ⟨q ++ y, rfl⟩

/-- **A call that has room** for the headers of a request accepts it, whatever was
in the buffer at the last call, and with other bytes behind it. -/
theorem phrParseRequest_of_le {maxHeaders room : ℕ} {q : List UInt8} {request : Request}
    (h : Accepts maxHeaders q request) (hroom : request.headers.length ≤ room) {lastLen : ℕ}
    (hlast : lastLen < q.length) (y : List UInt8) :
    phrParseRequest (q ++ y) room lastLen = ((q.length : ℤ), request) := by
  obtain ⟨method, path, minorVersion, s, headers, hline, hheaders, rfl⟩ := h.parts
  obtain ⟨_, hcomplete⟩ := h.complete hlast y
  have hparse : parseRequest room (q ++ y) =
      (.done () y, { method := some method, path := some path, minorVersion, headers }) := by
    rw [parseRequest, extends_requestLine.more hline]
    simp only
    rw [List.length_append, parseHeaders_of_le hheaders hroom (by simp)]
    rfl
  rw [phrParseRequest, hcomplete, hparse]
  simpa using toInt_natCast.mpr h.length_lt

/-- **A call that has no room** for the headers of a request refuses it. -/
theorem phrParseRequest_of_lt {maxHeaders room : ℕ} {q : List UInt8} {request : Request}
    (h : Accepts maxHeaders q request) (hroom : room < request.headers.length) {lastLen : ℕ}
    (hlast : lastLen < q.length) (y : List UInt8) :
    (phrParseRequest (q ++ y) room lastLen).1 = -1 := by
  obtain ⟨method, path, minorVersion, s, headers, hline, hheaders, rfl⟩ := h.parts
  obtain ⟨_, hcomplete⟩ := h.complete hlast y
  have hparse : (parseRequest room (q ++ y)).1 = .bad := by
    rw [parseRequest, extends_requestLine.more hline]
    simp only
    rw [List.length_append, parseHeaders_of_lt hheaders (Nat.zero_le _) hroom (by simp)]
  rw [phrParseRequest, hcomplete]
  rcases hp : parseRequest room (q ++ y) with ⟨res, r⟩
  rw [hp] at hparse
  dsimp only at hparse
  subst hparse
  rfl

/-- **The first call on a proper front** is incomplete. It counts all the headers
of the request exactly when the request has none, or when only the last line
end, or a part of it, is missing. -/
theorem phrParseRequest_front {maxHeaders : ℕ} {a b : List UInt8} {request : Request}
    (h : Accepts maxHeaders (a ++ b) request) (hb : b ≠ []) :
    ∃ front, phrParseRequest a maxHeaders 0 = (-2, front) ∧
      front.headers.length ≤ request.headers.length ∧
      (front.headers.length = request.headers.length ↔ request.headers = [] ∨ IsNewline b) := by
  obtain ⟨method, path, minorVersion, s, headers, hline, hheaders, rfl⟩ := h.parts
  have hs0 : s ≠ [] := by rintro rfl; cases hheaders
  have hfirst : ∀ {r}, parseRequest maxHeaders a = (.eof, r) →
      phrParseRequest a maxHeaders 0 = (-2, r) := by
    intro r hr
    rw [phrParseRequest, if_neg (not_not.mpr rfl)]
    dsimp only
    rw [hr]
  by_cases hfront : requestLine a = .eof
  · -- the front ends inside the request line
    have hlt := exact_requestLine.length_lt_of_eof hfront hline
    obtain ⟨e, p, hp, -, hpl⟩ := line_of_requestLine hline
    have hlast : (e ++ p).getLast? = some lf := by
      rw [List.getLast?_append, hpl.isLine.getLast?]
      rfl
    have hnot := not_isNewline_of_line hlast hp.symm hs0 hlt
    refine ⟨stored advanceToken a, hfirst (by rw [parseRequest, hfront]), ?_⟩
    rw [headers_stored]
    refine ⟨Nat.zero_le _, ?_⟩
    constructor
    · intro h0
      exact Or.inl (List.length_eq_zero_iff.mp h0.symm)
    · rintro (h0 | hb)
      · exact (List.length_eq_zero_iff.mpr h0).symm
      · exact absurd hb hnot
  · obtain ⟨s', hs', rfl⟩ := extends_requestLine.of_done hfront hline
    obtain ⟨front, hf, hle, hiff⟩ := parseHeaders_front hb hheaders
      (Nat.lt_succ_self s'.length)
    rw [List.length_append, Nat.add_sub_cancel] at hf
    refine ⟨_, hfirst (by rw [parseRequest, hs']; simp only; rw [hf]), hle, ?_⟩
    rw [hiff]
    constructor
    · exact Or.inr
    · rintro (h0 | hb)
      · obtain rfl : headers = [] := h0
        exact hiff.mp (le_antisymm hle (Nat.zero_le _))
      · exact hb

/-- **The later calls on a proper front** are incomplete and count no header. -/
theorem phrParseRequest_again {maxHeaders room : ℕ} {a b : List UInt8} {request : Request}
    (h : Accepts maxHeaders (a ++ b) request) (hb : b ≠ []) {lastLen : ℕ} (h0 : lastLen ≠ 0)
    (hlast : lastLen ≤ a.length) : phrParseRequest a room lastLen = (-2, .empty) := by
  have hlt : lastLen < (a ++ b).length := by
    have := List.length_pos_of_ne_nil hb
    rw [List.length_append]
    omega
  rw [phrParseRequest, if_pos h0,
    isComplete_front (isComplete_request h.parse hlt) hb hlast]

end Yotta.Picohttp
