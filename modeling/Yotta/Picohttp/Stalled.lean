import Yotta.Picohttp.Incremental

/-!
# Requests without an end

A buffer in which the parser reaches the end of its input holds lines and one line
that is not finished, so `is_complete` does not find an end in it either, from
wherever it starts.

Result:
* `phrParseRequest_stalled`: a call behind the first one answers `-2` on every front
  of such a buffer.
-/

namespace Yotta.Picohttp

open Yotta.Bytes Yotta.Numeral Yotta.Scan

/-- A line that is not finished. -/
def Unfinished (s : List UInt8) : Prop := ∃ text, Clean text ∧ (s = text ∨ s = text ++ [cr])

theorem unfinished_nil : Unfinished [] := ⟨[], clean_nil, Or.inl rfl⟩

theorem unfinished_cr : Unfinished [cr] := ⟨[], clean_nil, Or.inr rfl⟩

theorem unfinished_append {p s : List UInt8} (hp : Clean p) (hs : Unfinished s) :
    Unfinished (p ++ s) := by
  obtain ⟨text, htext, rfl | rfl⟩ := hs
  · exact ⟨p ++ s, clean_append hp htext, Or.inl rfl⟩
  · exact ⟨p ++ text, clean_append hp htext, Or.inr (List.append_assoc _ _ _).symm⟩

theorem unfinished_cons {c : UInt8} {s : List UInt8} (h1 : c ≠ cr) (h2 : c ≠ lf)
    (hs : Unfinished s) : Unfinished (c :: s) :=
  unfinished_append (clean_cons h1 h2 clean_nil) hs

/-! ## Where the scanners stall -/

theorem stalls_expectChar (ch : UInt8) : Stalls Unfinished (expectChar ch) := by
  intro s h
  cases s with
  | nil => exact unfinished_nil
  | cons c s =>
    rw [expectChar] at h
    split_ifs at h

theorem stalls_newline {c : UInt8} {s : List UInt8} (h : newline c s = .eof) :
    c = cr ∧ s = [] := by
  rw [newline] at h
  split_ifs at h with h1 h2
  cases s with
  | nil => exact ⟨h1, rfl⟩
  | cons d s =>
    rw [expectChar] at h
    split_ifs at h

theorem stalls_endOfLine : Stalls Unfinished endOfLine := by
  intro s h
  cases s with
  | nil => exact unfinished_nil
  | cons c s =>
    obtain ⟨rfl, rfl⟩ := stalls_newline h
    exact unfinished_cr

theorem stalls_skipEmptyLine : Stalls Unfinished skipEmptyLine := by
  intro s h
  cases s with
  | nil => exact unfinished_nil
  | cons c s =>
    rw [skipEmptyLine] at h
    split_ifs at h
    obtain ⟨rfl, rfl⟩ := stalls_newline h
    exact unfinished_cr

theorem stalls_advanceToken : Stalls Unfinished advanceToken := by
  intro s
  induction s with
  | nil => exact fun _ => unfinished_nil
  | cons c s ih =>
    intro h
    rw [advanceToken] at h
    split_ifs at h with h1 h2
    refine unfinished_cons ?_ ?_ (ih (map_eq_eof.mp h)) <;> rintro rfl <;> exact h2 (by decide)

/-- A token, the space behind it, and what stalls from there on. -/
theorem stalls_token {α : Type} {f : List UInt8 → List UInt8 → Scan α}
    (hf : ∀ tok, Stalls Unfinished (f tok)) :
    Stalls Unfinished fun s => (advanceToken s).bind fun tok s => f tok (s.drop 1) := by
  intro s h
  dsimp only at h
  cases htok : advanceToken s with
  | eof => exact stalls_advanceToken s htok
  | bad => simp [htok] at h
  | done tok u =>
    rw [htok, bind_done] at h
    obtain ⟨rfl, hclean, hhead⟩ := advanceToken_done htok
    cases u with
    | nil => cases hhead
    | cons c u =>
      obtain rfl : c = space := by simpa using hhead
      exact unfinished_append hclean (unfinished_cons (by decide) (by decide) (hf tok u h))

theorem reads_expectChar {ch : UInt8} (h1 : ch ≠ cr) (h2 : ch ≠ lf) :
    Reads Clean (expectChar ch) := by
  intro s a rest h
  cases s with
  | nil => cases h
  | cons c s =>
    rw [expectChar] at h
    split_ifs at h with hc
    cases h
    exact ⟨[c], rfl, clean_cons (by rwa [hc]) (by rwa [hc]) clean_nil⟩

theorem stalls_expectChars {chs : List UInt8} (h : Clean chs) :
    Stalls Unfinished (expectChars chs) := by
  induction chs with
  | nil => intro s hs; cases hs
  | cons ch chs ih =>
    obtain ⟨h1, h2⟩ := h ch List.mem_cons_self
    exact (stalls_expectChar ch).bind (reads_expectChar h1 h2)
      (fun _ => ih fun c hc => h c (List.mem_cons_of_mem _ hc)) fun _ _ => unfinished_append

theorem stalls_parseDigits (v : ℤ) : Stalls Unfinished (parseDigits v) := by
  intro s
  induction s generalizing v with
  | nil => exact fun _ => unfinished_nil
  | cons c s ih =>
    intro h
    rw [parseDigits] at h
    split_ifs at h with h1
    refine unfinished_cons ?_ ?_ (ih _ h) <;> rintro rfl <;> exact absurd h1 (by decide)

theorem stalls_parseHttpVersion : Stalls Unfinished parseHttpVersion := by
  have hint : Stalls Unfinished parseInt := by
    intro s h
    cases s with
    | nil => exact unfinished_nil
    | cons c s =>
      rw [parseInt] at h
      split_ifs at h
      exact stalls_parseDigits 0 (c :: s) h
  exact (stalls_expectChars clean_httpVersion).bind (reads_expectChars clean_httpVersion)
    (fun _ => hint) fun _ _ => unfinished_append

/-- A request line stalls in the empty line in front of it or behind that. -/
theorem stalls_requestLine {s : List UInt8} (h : requestLine s = .eof) :
    ∃ e p, s = e ++ p ∧ (e = [] ∨ IsNewline e) ∧ Unfinished p := by
  have hversion (method path : List UInt8) : Stalls Unfinished fun s =>
      (parseHttpVersion s).bind fun minorVersion s =>
        (endOfLine s).map fun _ => (method, path, minorVersion) :=
    stalls_parseHttpVersion.bind reads_parseHttpVersion (fun _ => stalls_endOfLine.map _)
      fun _ _ => unfinished_append
  cases he : skipEmptyLine s with
  | eof => exact ⟨[], s, rfl, Or.inl rfl, stalls_skipEmptyLine s he⟩
  | bad => rw [requestLine, he] at h; cases h
  | done a u =>
    rw [requestLine, he, bind_done] at h
    obtain ⟨e, rfl, hnl⟩ := reads_skipEmptyLine s a u he
    exact ⟨e, u, rfl, hnl, stalls_token (fun method => stalls_token (hversion method)) u h⟩

theorem stalls_headerName : Stalls Unfinished headerName := by
  intro s
  induction s with
  | nil => exact fun _ => unfinished_nil
  | cons c s ih =>
    intro h
    rw [headerName] at h
    split_ifs at h with h1 h2
    refine unfinished_cons ?_ ?_ (ih (map_eq_eof.mp h)) <;> rintro rfl <;> exact h2 (by decide)

theorem stalls_skipBlanks : Stalls Unfinished skipBlanks := by
  intro s
  induction s with
  | nil => exact fun _ => unfinished_nil
  | cons c s ih =>
    intro h
    rw [skipBlanks] at h
    split_ifs at h with h1
    refine unfinished_cons ?_ ?_ (ih (map_eq_eof.mp h)) <;> rintro rfl <;>
      exact absurd h1 (by decide)

theorem stalls_getTokenToEol : Stalls Unfinished getTokenToEol := by
  intro s
  induction s with
  | nil => exact fun _ => unfinished_nil
  | cons c s ih =>
    intro h
    rw [getTokenToEol] at h
    split_ifs at h with h1
    · rw [foundCtl] at h
      split_ifs at h with hcr
      cases s with
      | nil => rw [hcr]; exact unfinished_cr
      | cons d s =>
        rw [map_eq_eof, expectChar] at h
        split_ifs at h
    · refine unfinished_cons ?_ ?_ (ih (map_eq_eof.mp h)) <;> rintro rfl <;> exact h1 (by decide)

theorem stalls_headerLine (pos : ℕ) (first : Bool) : Stalls Unfinished (headerLine pos first) := by
  have hvalue (name : Option (List UInt8)) (valueAt : ℕ) :
      Stalls Unfinished (headerValue name valueAt) := stalls_getTokenToEol.map _
  have hblanks (name : List UInt8) : Stalls Unfinished fun s =>
      (skipBlanks s).bind fun blanks s =>
        headerValue (some name) (pos + name.length + 1 + blanks) s :=
    stalls_skipBlanks.bind reads_skipBlanks (fun _ => hvalue _ _) fun _ _ => unfinished_append
  intro s h
  cases s with
  | nil => exact unfinished_nil
  | cons c s =>
    rw [headerLine] at h
    split_ifs at h
    · exact stalls_headerName.bind reads_headerName hblanks (fun _ _ => unfinished_append)
        (c :: s) h
    · exact hvalue none pos (c :: s) h

/-! ## No end -/

/-- There is no end in a line that is not finished. -/
theorem isCompleteFrom_unfinished {s : List UInt8} (h : Unfinished s) (retCnt : ℕ) :
    isCompleteFrom retCnt s = .eof := by
  obtain ⟨text, htext, hs⟩ := h
  induction text generalizing s retCnt with
  | nil => rcases hs with rfl | rfl <;> rfl
  | cons c text ih =>
    obtain ⟨h1, h2⟩ := htext c List.mem_cons_self
    have htail : Clean text := fun d hd => htext d (List.mem_cons_of_mem _ hd)
    rcases hs with rfl | rfl
    · rw [isCompleteFrom_other h1 h2]
      exact ih 0 htail (Or.inl rfl)
    · rw [List.cons_append, isCompleteFrom_other h1 h2]
      exact ih 0 htail (Or.inr rfl)

/-- Headers that stall hold no end. -/
theorem isCompleteFrom_of_parseHeaders_eof {maxHeaders len n : ℕ} {headers : List PhrHeader}
    {s : List UInt8} (hn : s.length < n)
    (h : (parseHeaders maxHeaders len n headers s).1 = .eof) : isCompleteFrom 1 s = .eof := by
  induction n generalizing headers s with
  | zero => omega
  | succ n ih =>
    cases s with
    | nil => rfl
    | cons c s =>
      rw [parseHeaders] at h
      split_ifs at h with h1 h2
      · obtain ⟨rfl, rfl⟩ := stalls_newline h
        rfl
      · simp only [Bool.or_eq_true, decide_eq_true_eq, not_or] at h1
        cases hl : headerLine (len - (s.length + 1)) headers.isEmpty (c :: s) with
        | eof => exact isCompleteFrom_unfinished (stalls_headerLine _ _ _ hl) 1
        | bad => rw [hl] at h; cases h
        | done header u =>
          rw [hl] at h
          obtain ⟨p, hp, hline⟩ := line_of_headerLine h1.1 h1.2 hl
          have hpos : 0 < p.length := by
            obtain ⟨d, t, rfl, -⟩ := hline
            exact Nat.succ_pos _
          have hlen := congrArg List.length hp
          rw [List.length_append] at hlen
          rw [hp, isCompleteFrom_textLine hline]
          exact ih (by omega) h

/-- A request that stalls holds no end. -/
theorem isCompleteFrom_of_parseRequest_eof {maxHeaders : ℕ} {q : List UInt8}
    (h : (parseRequest maxHeaders q).1 = .eof) : isCompleteFrom 0 q = .eof := by
  rw [parseRequest] at h
  cases hr : requestLine q with
  | bad => rw [hr] at h; cases h
  | eof =>
    obtain ⟨e, p, rfl, rfl | he, hp⟩ := stalls_requestLine hr
    · exact isCompleteFrom_unfinished hp 0
    · rw [isCompleteFrom_newline he, if_neg (by decide)]
      exact isCompleteFrom_unfinished hp 1
  | done x s =>
    rw [hr] at h
    obtain ⟨e, p, rfl, he, hp⟩ := line_of_requestLine hr
    have hs : isCompleteFrom 1 s = .eof := isCompleteFrom_of_parseHeaders_eof (Nat.lt_succ_self _) h
    rw [List.append_assoc]
    rcases he with rfl | he
    · rw [List.nil_append, isCompleteFrom_textLine hp, hs]
    · rw [isCompleteFrom_newline he, if_neg (by decide), isCompleteFrom_textLine hp, hs]

/-- Without a line end in front there is no end either. -/
theorem isCompleteFrom_zero_eof {s : List UInt8} (h : isCompleteFrom 1 s = .eof) :
    isCompleteFrom 0 s = .eof := by
  match s with
  | [] => rfl
  | [c] =>
    by_cases h2 : c = lf
    · rw [h2, isCompleteFrom_lf, if_pos rfl] at h
      cases h
    · by_cases h1 : c = cr
      · rw [h1]
        rfl
      · rw [isCompleteFrom_other h1 h2]
        rfl
  | c :: d :: s =>
    by_cases h2 : c = lf
    · rw [h2, isCompleteFrom_lf, if_pos rfl] at h
      cases h
    · by_cases h1 : c = cr
      · rw [h1, isCompleteFrom_cr] at h
        split_ifs at h with hd h1
        exact absurd rfl h1
      · rwa [isCompleteFrom_other h1 h2] at h ⊢

theorem isCompleteFrom_tail_eof {s : List UInt8} (h : isCompleteFrom 0 s = .eof) :
    isCompleteFrom 0 s.tail = .eof := by
  match s with
  | [] => rfl
  | [c] => rfl
  | c :: d :: s =>
    rw [List.tail_cons]
    by_cases h2 : c = lf
    · rw [h2, isCompleteFrom_lf, if_neg (by decide)] at h
      exact isCompleteFrom_zero_eof h
    · by_cases h1 : c = cr
      · -- a line end of two bytes; its second byte is one by itself
        rw [h1, isCompleteFrom_cr] at h
        split_ifs at h with hd h1
        rw [not_not.mp hd, isCompleteFrom_lf, if_neg (by decide)]
        exact h
      · rwa [isCompleteFrom_other h1 h2] at h

theorem isCompleteFrom_drop_eof {s : List UInt8} (h : isCompleteFrom 0 s = .eof) (d : ℕ) :
    isCompleteFrom 0 (s.drop d) = .eof := by
  induction d with
  | zero => exact h
  | succ d ih =>
    rw [← List.tail_drop]
    exact isCompleteFrom_tail_eof ih

/-- The first call asks for more where it reaches the end of its input. -/
theorem phrParseRequest_eq_neg_two {maxHeaders : ℕ} {q : List UInt8} (hlen : q.length < 2 ^ 31) :
    (phrParseRequest q maxHeaders 0).1 = -2 ↔ (parseRequest maxHeaders q).1 = .eof := by
  rw [phrParseRequest, if_neg (not_not.mpr rfl)]
  dsimp only
  rcases hp : parseRequest maxHeaders q with ⟨⟨_, rest⟩ | _ | _, request⟩
  · have hle := length_le_of_isCompleteFrom (isCompleteFrom_of_parseRequest hp)
    apply iff_of_false
    · intro h
      dsimp only at h
      rw [toInt_eq (by omega)] at h
      omega
    · intro h
      cases h
  · exact iff_of_true rfl rfl
  · apply iff_of_false
    · intro h
      cases h
    · intro h
      cases h

/-- **No end.** Where the first call on a buffer asks for more, a later call on any
front of it does, whatever room it has for headers. -/
theorem phrParseRequest_stalled {maxHeaders : ℕ} {q front rest : List UInt8}
    (hlen : q.length < 2 ^ 31) (h : (phrParseRequest q maxHeaders 0).1 = -2)
    (hq : front ++ rest = q) (room : ℕ) {lastLen : ℕ} (hlast : lastLen ≠ 0) :
    phrParseRequest front room lastLen = (-2, .empty) := by
  have hfront : isCompleteFrom 0 front = .eof := by
    have hwhole := isCompleteFrom_of_parseRequest_eof ((phrParseRequest_eq_neg_two hlen).mp h)
    rw [← hq] at hwhole
    exact (extends_isCompleteFrom 0).eof_front hwhole
  have hcomplete : isComplete front lastLen = .eof := by
    rw [isComplete]
    split_ifs
    · exact hfront
    · exact isCompleteFrom_drop_eof hfront _
  rw [phrParseRequest, if_pos hlast, hcomplete]

end Yotta.Picohttp
