import Yotta.Picohttp.Parser

/-!
# The scanners of the request parser

Every scanner of `picohttpparser.c` keeps a decision it has made when more input
arrives (`extends_…`), and decides by the text it reads (`exact_…`) or by that
and the byte behind it (`peeks_…`).

Main results: `extends_requestLine`, `extends_headerLine` and
`extends_isCompleteFrom`; `exact_requestLine` and `exact_headerLine`.
-/

namespace Yotta.Picohttp

open Yotta.Bytes Yotta.Numeral Yotta.Scan

/-! ## More input -/

theorem extends_expectChar (ch : UInt8) : Extends (expectChar ch) := by
  intro s t h
  cases s with
  | nil => exact absurd rfl h
  | cons c s =>
    rw [List.cons_append, expectChar, expectChar]
    split_ifs <;> rfl

theorem extends_expectChars (chs : List UInt8) : Extends (expectChars chs) := by
  induction chs with
  | nil => intro s t _; rfl
  | cons ch chs ih => exact (extends_expectChar ch).bind fun _ => ih

theorem extends_advanceToken : Extends advanceToken := by
  intro s t h
  induction s with
  | nil => exact absurd rfl h
  | cons c s ih =>
    rw [advanceToken] at h
    rw [List.cons_append, advanceToken, advanceToken]
    split_ifs at h ⊢
    · rfl
    · rfl
    · rw [ne_eq, map_eq_eof] at h
      rw [ih h, append_map]

theorem extends_foundCtl (c : UInt8) : Extends (foundCtl c) := by
  unfold foundCtl
  intro s t h
  split_ifs at h ⊢
  · exact (extends_expectChar lf).map _ s t h
  · rfl
  · rfl

theorem extends_getTokenToEol : Extends getTokenToEol := by
  intro s t h
  induction s with
  | nil => exact absurd rfl h
  | cons c s ih =>
    rw [getTokenToEol] at h
    rw [List.cons_append, getTokenToEol, getTokenToEol]
    split_ifs at h ⊢
    · exact extends_foundCtl c s t h
    · rw [ne_eq, map_eq_eof] at h
      rw [ih h, append_map]

theorem isCompleteFrom_cr (retCnt : ℕ) (d : UInt8) (s : List UInt8) :
    isCompleteFrom retCnt (cr :: d :: s) =
      if d ≠ lf then .bad
      else if retCnt + 1 = 2 then .done () s else isCompleteFrom (retCnt + 1) s := by
  rw [isCompleteFrom.eq_def]
  rfl

theorem isCompleteFrom_lf (retCnt : ℕ) (s : List UInt8) :
    isCompleteFrom retCnt (lf :: s) =
      if retCnt + 1 = 2 then .done () s else isCompleteFrom (retCnt + 1) s := by
  rw [isCompleteFrom.eq_def]
  rfl

theorem isCompleteFrom_other {c : UInt8} (h1 : c ≠ cr) (h2 : c ≠ lf) (retCnt : ℕ)
    (s : List UInt8) : isCompleteFrom retCnt (c :: s) = isCompleteFrom 0 s := by
  rw [isCompleteFrom.eq_def]
  dsimp only
  rw [if_neg h1, if_neg h2]

theorem extends_isCompleteFrom (retCnt : ℕ) : Extends (isCompleteFrom retCnt) := by
  intro s t h
  induction retCnt, s using isCompleteFrom.induct with
  | case1 => exact absurd rfl h
  | case2 => exact absurd rfl h
  | case3 retCnt c s hc => simp [isCompleteFrom_cr, hc]
  | case4 retCnt c s hc h2 => simp_all [isCompleteFrom_cr]
  | case5 retCnt c s hc h2 ih => simp_all [isCompleteFrom_cr]
  | case6 retCnt s h2 => simp_all [isCompleteFrom_lf]
  | case7 retCnt s h2 _ ih => simp_all [isCompleteFrom_lf]
  | case8 retCnt c s h1 h2 ih => simp_all [isCompleteFrom_other h1 h2]

theorem extends_parseDigits (v : ℤ) : Extends (parseDigits v) := by
  intro s t h
  induction s generalizing v with
  | nil => exact absurd rfl h
  | cons c s ih =>
    rw [parseDigits] at h
    rw [List.cons_append, parseDigits, parseDigits]
    split_ifs at h ⊢
    · exact ih _ h
    · rfl

theorem extends_parseInt : Extends parseInt := by
  intro s t h
  cases s with
  | nil => exact absurd rfl h
  | cons c s =>
    rw [parseInt] at h
    rw [List.cons_append, parseInt, parseInt]
    split_ifs at h ⊢
    · exact extends_parseDigits 0 (c :: s) t h
    · rfl

theorem extends_parseHttpVersion : Extends parseHttpVersion :=
  (extends_expectChars _).bind fun _ => extends_parseInt

theorem extends_newline (c : UInt8) : Extends (newline c) := by
  unfold newline
  intro s t h
  split_ifs at h ⊢
  · exact extends_expectChar lf s t h
  · rfl
  · rfl

theorem extends_endOfLine : Extends endOfLine := by
  intro s t h
  cases s with
  | nil => exact absurd rfl h
  | cons c s => exact extends_newline c s t h

theorem extends_skipEmptyLine : Extends skipEmptyLine := by
  intro s t h
  cases s with
  | nil => exact absurd rfl h
  | cons c s =>
    rw [skipEmptyLine] at h
    rw [List.cons_append, skipEmptyLine, skipEmptyLine]
    split_ifs at h ⊢
    · exact extends_newline c s t h
    · rfl

/-- A scanner that starts behind the byte in front. -/
theorem extends_behind {α : Type} {f : List UInt8 → Scan α} (hf : Extends f) (h0 : f [] = .eof) :
    Extends fun s => f (s.drop 1) := by
  intro s t h
  cases s with
  | nil => exact absurd h0 h
  | cons c s => exact hf s t h

theorem extends_requestLine : Extends requestLine :=
  extends_skipEmptyLine.bind fun _ =>
  extends_advanceToken.bind fun _ =>
  (extends_behind extends_advanceToken rfl).bind fun _ =>
  (extends_behind extends_parseHttpVersion rfl).bind fun _ =>
  extends_endOfLine.map _

theorem extends_headerName : Extends headerName := by
  intro s t h
  induction s with
  | nil => exact absurd rfl h
  | cons c s ih =>
    rw [headerName] at h
    rw [List.cons_append, headerName, headerName]
    split_ifs at h ⊢
    · rfl
    · rfl
    · rw [ne_eq, map_eq_eof] at h
      rw [ih h, append_map]

theorem extends_skipBlanks : Extends skipBlanks := by
  intro s t h
  induction s with
  | nil => exact absurd rfl h
  | cons c s ih =>
    rw [skipBlanks] at h
    rw [List.cons_append, skipBlanks, skipBlanks]
    split_ifs at h ⊢
    · rw [ne_eq, map_eq_eof] at h
      rw [ih h, append_map]
    · rfl

theorem extends_headerValue (name : Option (List UInt8)) (valueAt : ℕ) :
    Extends (headerValue name valueAt) :=
  extends_getTokenToEol.map _

theorem extends_headerLine (pos : ℕ) (first : Bool) : Extends (headerLine pos first) := by
  intro s t h
  cases s with
  | nil => exact absurd rfl h
  | cons c s =>
    have hnamed : Extends fun s =>
        (headerName s).bind fun name s => (skipBlanks s).bind fun blanks s =>
          headerValue (some name) (pos + name.length + 1 + blanks) s :=
      extends_headerName.bind fun _ => extends_skipBlanks.bind fun _ => extends_headerValue _ _
    rw [headerLine] at h
    rw [List.cons_append, headerLine, headerLine]
    split_ifs at h ⊢
    · rfl
    · exact hnamed (c :: s) t h
    · exact extends_headerValue none pos (c :: s) t h

/-! ## Other input -/

theorem exact_expectChar (ch : UInt8) : Exact (expectChar ch) := by
  intro s a rest h
  cases s with
  | nil => cases h
  | cons c s =>
    rw [expectChar] at h
    split_ifs at h with hc
    cases h
    exact ⟨[c], by simp, rfl, fun t => by simp [expectChar, hc]⟩

theorem peeks_expectChars (chs : List UInt8) : Peeks (expectChars chs) := by
  induction chs with
  | nil =>
    intro s a rest h
    cases h
    exact ⟨[], rfl, fun t _ => rfl⟩
  | cons ch chs ih => exact (exact_expectChar ch).peeks.bind fun _ => ih

theorem peeks_advanceToken : Peeks advanceToken := by
  intro s
  induction s with
  | nil => intro a rest h; cases h
  | cons c s ih =>
    intro a rest h
    rw [advanceToken] at h
    split_ifs at h with h1 h2
    · cases h
      refine ⟨[], rfl, fun t ht => ?_⟩
      cases t with
      | nil => cases ht
      | cons d t =>
        obtain rfl : d = c := by simpa using ht
        rw [List.nil_append, advanceToken, if_pos h1]
    · obtain ⟨tok, htok, rfl⟩ := map_eq_done.mp h
      obtain ⟨p, rfl, hp⟩ := ih tok rest htok
      refine ⟨c :: p, rfl, fun t ht => ?_⟩
      rw [List.cons_append, advanceToken, if_neg h1, if_neg h2, hp t ht, map_done]

theorem exact_foundCtl_cons : ∀ (c : UInt8) (s : List UInt8) (v : List UInt8) (rest : List UInt8),
    foundCtl c s = .done v rest →
    ∃ p, s = p ++ rest ∧ ∀ t, foundCtl c (p ++ t) = .done v t := by
  intro c s v rest h
  rw [foundCtl] at h
  split_ifs at h with h1 h2
  · obtain ⟨p, -, rfl, hp⟩ := (exact_expectChar lf).map (fun _ => ([] : List UInt8)) s v rest h
    exact ⟨p, rfl, fun t => by rw [foundCtl, if_pos h1]; exact hp t⟩
  · cases h
    exact ⟨[], rfl, fun t => by rw [foundCtl, if_neg h1, if_pos h2]; rfl⟩

theorem exact_getTokenToEol : Exact getTokenToEol := by
  intro s
  induction s with
  | nil => intro a rest h; cases h
  | cons c s ih =>
    intro a rest h
    rw [getTokenToEol] at h
    split_ifs at h with h1
    · obtain ⟨p, rfl, hp⟩ := exact_foundCtl_cons c s a rest h
      refine ⟨c :: p, by simp, rfl, fun t => ?_⟩
      rw [List.cons_append, getTokenToEol, if_pos h1, hp t]
    · obtain ⟨v, hv, rfl⟩ := map_eq_done.mp h
      obtain ⟨p, -, rfl, hp⟩ := ih v rest hv
      refine ⟨c :: p, by simp, rfl, fun t => ?_⟩
      rw [List.cons_append, getTokenToEol, if_neg h1, hp t, map_done]

theorem peeks_parseDigits (v : ℤ) : Peeks (parseDigits v) := by
  intro s
  induction s generalizing v with
  | nil => intro a rest h; cases h
  | cons c s ih =>
    intro a rest h
    rw [parseDigits] at h
    split_ifs at h with h1
    · obtain ⟨p, rfl, hp⟩ := ih _ a rest h
      refine ⟨c :: p, rfl, fun t ht => ?_⟩
      rw [List.cons_append, parseDigits, if_pos h1, hp t ht]
    · cases h
      refine ⟨[], rfl, fun t ht => ?_⟩
      cases t with
      | nil => cases ht
      | cons d t =>
        obtain rfl : d = c := by simpa using ht
        rw [List.nil_append, parseDigits, if_neg h1]

theorem peeks_parseInt : Peeks parseInt := by
  intro s a rest h
  cases s with
  | nil => cases h
  | cons c s =>
    rw [parseInt] at h
    split_ifs at h with h1
    obtain ⟨p, hp, ht⟩ := peeks_parseDigits 0 (c :: s) a rest h
    refine ⟨p, hp, fun t hhead => ?_⟩
    cases p with
    | nil =>
      cases t with
      | nil =>
        rw [List.nil_append] at hp
        rw [← hp] at hhead
        cases hhead
      | cons d t =>
        rw [List.nil_append] at hp
        rw [← hp] at hhead
        obtain rfl : d = c := by simpa using hhead
        rw [List.nil_append, parseInt, if_pos h1]
        exact ht _ (by rw [← hp]; rfl)
    | cons d p =>
      obtain ⟨rfl, -⟩ := List.cons.inj hp
      rw [List.cons_append, parseInt, if_pos h1]
      exact ht t hhead

theorem exact_newline : ∀ (c : UInt8) (s : List UInt8) (rest : List UInt8),
    newline c s = .done () rest → ∃ p, s = p ++ rest ∧ ∀ t, newline c (p ++ t) = .done () t := by
  intro c s rest h
  rw [newline] at h
  split_ifs at h with h1 h2
  · obtain ⟨p, -, rfl, hp⟩ := exact_expectChar lf s () rest h
    exact ⟨p, rfl, fun t => by rw [newline, if_pos h1, hp t]⟩
  · cases h
    exact ⟨[], rfl, fun t => by rw [newline, if_neg h1, if_pos h2]; rfl⟩

theorem exact_endOfLine : Exact endOfLine := by
  intro s a rest h
  cases s with
  | nil => cases h
  | cons c s =>
    obtain ⟨p, rfl, hp⟩ := exact_newline c s rest h
    exact ⟨c :: p, by simp, rfl, hp⟩

theorem peeks_skipEmptyLine : Peeks skipEmptyLine := by
  intro s a rest h
  cases s with
  | nil => cases h
  | cons c s =>
    rw [skipEmptyLine] at h
    split_ifs at h with h1
    · obtain ⟨p, rfl, hp⟩ := exact_newline c s rest h
      exact ⟨c :: p, rfl, fun t _ => by rw [List.cons_append, skipEmptyLine, if_pos h1, hp t]⟩
    · cases h
      refine ⟨[], rfl, fun t ht => ?_⟩
      cases t with
      | nil => cases ht
      | cons d t =>
        obtain rfl : d = c := by simpa using ht
        rw [List.nil_append, skipEmptyLine, if_neg h1]

theorem peeks_behind {α : Type} {f : List UInt8 → Scan α} (hf : Peeks f) (h0 : f [] = .eof) :
    Peeks fun s => f (s.drop 1) := by
  intro s a rest h
  cases s with
  | nil => simp [h0] at h
  | cons c s =>
    obtain ⟨p, rfl, hp⟩ := hf s a rest h
    exact ⟨c :: p, rfl, hp⟩

theorem exact_requestLine : Exact requestLine :=
  peeks_skipEmptyLine.bind_exact fun _ =>
  peeks_advanceToken.bind_exact fun _ =>
  (peeks_behind peeks_advanceToken rfl).bind_exact fun _ =>
  (peeks_behind ((peeks_expectChars _).bind fun _ => peeks_parseInt) rfl).bind_exact fun _ =>
  exact_endOfLine.map _

theorem exact_headerName : Exact headerName := by
  intro s
  induction s with
  | nil => intro a rest h; cases h
  | cons c s ih =>
    intro a rest h
    rw [headerName] at h
    split_ifs at h with h1 h2
    · cases h
      exact ⟨[c], by simp, rfl, fun t => by simp [headerName, h1]⟩
    · obtain ⟨v, hv, rfl⟩ := map_eq_done.mp h
      obtain ⟨p, -, rfl, hp⟩ := ih v rest hv
      refine ⟨c :: p, by simp, rfl, fun t => ?_⟩
      rw [List.cons_append, headerName, if_neg h1, if_neg h2, hp t, map_done]

theorem peeks_skipBlanks : Peeks skipBlanks := by
  intro s
  induction s with
  | nil => intro a rest h; cases h
  | cons c s ih =>
    intro a rest h
    rw [skipBlanks] at h
    split_ifs at h with h1
    · obtain ⟨n, hn, rfl⟩ := map_eq_done.mp h
      obtain ⟨p, rfl, hp⟩ := ih n rest hn
      refine ⟨c :: p, rfl, fun t ht => ?_⟩
      rw [List.cons_append, skipBlanks, if_pos h1, hp t ht, map_done]
    · cases h
      refine ⟨[], rfl, fun t ht => ?_⟩
      cases t with
      | nil => cases ht
      | cons d t =>
        obtain rfl : d = c := by simpa using ht
        rw [List.nil_append, skipBlanks, if_neg h1]

theorem exact_headerLine (pos : ℕ) (first : Bool) : Exact (headerLine pos first) := by
  have hnamed : Exact fun s =>
      (headerName s).bind fun name s => (skipBlanks s).bind fun blanks s =>
        headerValue (some name) (pos + name.length + 1 + blanks) s :=
    exact_headerName.peeks.bind_exact fun _ => peeks_skipBlanks.bind_exact fun _ =>
      exact_getTokenToEol.map _
  have hvalue : Exact (headerValue none pos) := exact_getTokenToEol.map _
  intro s a rest h
  cases s with
  | nil => cases h
  | cons c s =>
    rw [headerLine] at h
    split_ifs at h with h1 h2
    · obtain ⟨p, hne, hp, ht⟩ := hnamed (c :: s) a rest h
      obtain ⟨d, p, rfl⟩ := List.exists_cons_of_ne_nil hne
      obtain ⟨rfl, -⟩ := List.cons.inj hp
      refine ⟨c :: p, hne, hp, fun t => ?_⟩
      rw [List.cons_append, headerLine, if_pos h1, if_neg h2]
      exact ht t
    · obtain ⟨p, hne, hp, ht⟩ := hvalue (c :: s) a rest h
      obtain ⟨d, p, rfl⟩ := List.exists_cons_of_ne_nil hne
      obtain ⟨rfl, -⟩ := List.cons.inj hp
      refine ⟨c :: p, hne, hp, fun t => ?_⟩
      rw [List.cons_append, headerLine, if_neg h1]
      exact ht t

end Yotta.Picohttp
