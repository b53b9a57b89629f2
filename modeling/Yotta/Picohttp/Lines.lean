import Yotta.Picohttp.Scanners

/-!
# Lines and complete requests

A request is a sequence of lines. What the scanners read of it is a line each,
and `is_complete` looks for two line ends with nothing between them.

Results:
* `line_of_requestLine` and `line_of_headerLine`: a request line and a header line
  are lines that are not empty.
* `isComplete_request`: from wherever the call before the last one leaves off,
  `is_complete` finds the end of a request.
-/

namespace Yotta.Picohttp

open Yotta.Bytes Yotta.Numeral Yotta.Scan

/-! ## Lines -/

/-- No byte of a line end. -/
def Clean (s : List UInt8) : Prop := ∀ c ∈ s, c ≠ cr ∧ c ≠ lf

/-- The two line ends. -/
def IsNewline (s : List UInt8) : Prop := s = [lf] ∨ s = [cr, lf]

/-- A text and its line end. -/
def IsLine (s : List UInt8) : Prop := ∃ text term, s = text ++ term ∧ Clean text ∧ IsNewline term

/-- A line with a text that is not empty. -/
def IsTextLine (s : List UInt8) : Prop := ∃ c t, s = c :: t ∧ c ≠ cr ∧ c ≠ lf ∧ IsLine t

theorem clean_nil : Clean [] := by simp [Clean]

theorem clean_cons {c : UInt8} {s : List UInt8} (h1 : c ≠ cr) (h2 : c ≠ lf) (hs : Clean s) :
    Clean (c :: s) := by
  intro d hd
  rcases List.mem_cons.mp hd with rfl | hd
  · exact ⟨h1, h2⟩
  · exact hs d hd

theorem clean_append {s t : List UInt8} (hs : Clean s) (ht : Clean t) : Clean (s ++ t) := by
  intro c hc
  exact (List.mem_append.mp hc).elim (hs c) (ht c)

theorem IsNewline.isLine {s : List UInt8} (h : IsNewline s) : IsLine s :=
  ⟨[], s, rfl, clean_nil, h⟩

theorem isLine_append {s t : List UInt8} (hs : Clean s) (ht : IsLine t) : IsLine (s ++ t) := by
  obtain ⟨text, term, rfl, htext, hterm⟩ := ht
  exact ⟨s ++ text, term, by rw [List.append_assoc], clean_append hs htext, hterm⟩

theorem isLine_cons {c : UInt8} {s : List UInt8} (h1 : c ≠ cr) (h2 : c ≠ lf) (hs : IsLine s) :
    IsLine (c :: s) :=
  isLine_append (clean_cons h1 h2 clean_nil) hs

theorem IsTextLine.isLine {s : List UInt8} (h : IsTextLine s) : IsLine s := by
  obtain ⟨c, t, rfl, h1, h2, ht⟩ := h
  exact isLine_cons h1 h2 ht

theorem isTextLine_append {s t : List UInt8} (hs : Clean s) (ht : IsTextLine t) :
    IsTextLine (s ++ t) := by
  cases s with
  | nil => exact ht
  | cons c s =>
    obtain ⟨h1, h2⟩ := hs c List.mem_cons_self
    exact ⟨c, s ++ t, rfl, h1, h2,
      isLine_append (fun d hd => hs d (List.mem_cons_of_mem _ hd)) ht.isLine⟩

theorem IsNewline.getLast? {s : List UInt8} (h : IsNewline s) : s.getLast? = some lf := by
  rcases h with rfl | rfl <;> rfl

theorem IsLine.getLast? {s : List UInt8} (h : IsLine s) : s.getLast? = some lf := by
  obtain ⟨text, term, rfl, -, hterm⟩ := h
  rw [List.getLast?_append, hterm.getLast?]
  rfl

/-- What is left of a line end is a line end. -/
theorem IsNewline.of_suffix {s t : List UInt8} (h : IsNewline (s ++ t)) (ht : t ≠ []) :
    IsNewline t := by
  cases s with
  | nil => exact h
  | cons c s =>
    rcases h with h | h
    · simp_all
    · obtain ⟨-, h⟩ := List.cons.inj h
      cases s with
      | nil => exact Or.inl h
      | cons d s => simp_all

/-- A text that holds the end of a line and more behind it is not a line end. -/
theorem not_isNewline_of_line {p a b rest : List UInt8} (hp : p.getLast? = some lf)
    (heq : p ++ rest = a ++ b) (hrest : rest ≠ []) (hlt : rest.length < b.length) :
    ¬ IsNewline b := by
  obtain ⟨b1, rfl⟩ : ∃ b1, b = b1 ++ rest := by
    obtain ⟨b1, hb1⟩ := List.suffix_of_suffix_length_le (List.suffix_append p rest)
      (by rw [heq]; exact List.suffix_append a b) hlt.le
    exact ⟨b1, hb1.symm⟩
  obtain rfl : p = a ++ b1 := by simpa [← List.append_assoc] using heq
  have hb1 : b1 ≠ [] := by rintro rfl; simp at hlt
  have hlast : b1.getLast? = some lf := by
    rw [← hp, List.getLast?_append_of_ne_nil _ hb1]
  rintro (h | h)
  · have := congrArg List.length h
    have h1 := List.length_pos_of_ne_nil hb1
    have h2 := List.length_pos_of_ne_nil hrest
    simp only [List.length_append, List.length_cons, List.length_nil] at this
    omega
  · obtain ⟨c, b1, rfl⟩ := List.exists_cons_of_ne_nil hb1
    obtain ⟨rfl, h⟩ := List.cons.inj h
    cases b1 with
    | nil => exact absurd hlast (by decide)
    | cons d b1 => simp_all

/-! ## What the scanners read -/

theorem reads_newline {c : UInt8} {s rest : List UInt8} {a : Unit}
    (h : newline c s = .done a rest) : ∃ p, c :: s = p ++ rest ∧ IsNewline p := by
  rw [newline] at h
  split_ifs at h with h1 h2
  · cases s with
    | nil => cases h
    | cons d s =>
      rw [expectChar] at h
      split_ifs at h with hd
      cases h
      exact ⟨[cr, lf], by simp [h1, hd], Or.inr rfl⟩
  · cases h
    exact ⟨[lf], by simp [h2], Or.inl rfl⟩

theorem reads_endOfLine : Reads IsNewline endOfLine := by
  intro s a rest h
  cases s with
  | nil => cases h
  | cons c s => exact reads_newline h

theorem reads_skipEmptyLine : Reads (fun p => p = [] ∨ IsNewline p) skipEmptyLine := by
  intro s a rest h
  cases s with
  | nil => cases h
  | cons c s =>
    rw [skipEmptyLine] at h
    split_ifs at h with h1
    · obtain ⟨p, hp, hnl⟩ := reads_newline h
      exact ⟨p, hp, Or.inr hnl⟩
    · cases h
      exact ⟨[], rfl, Or.inl rfl⟩

/-- A token ends in front of a space. -/
theorem advanceToken_done {s tok rest : List UInt8} (h : advanceToken s = .done tok rest) :
    s = tok ++ rest ∧ Clean tok ∧ rest.head? = some space := by
  induction s generalizing tok with
  | nil => cases h
  | cons c s ih =>
    rw [advanceToken] at h
    split_ifs at h with h1 h2
    · cases h
      exact ⟨rfl, clean_nil, by rw [h1]; rfl⟩
    · obtain ⟨tok, htok, rfl⟩ := map_eq_done.mp h
      obtain ⟨rfl, hclean, hhead⟩ := ih htok
      refine ⟨rfl, clean_cons ?_ ?_ hclean, hhead⟩ <;> rintro rfl <;> exact h2 (by decide)

/-- A token, the space behind it, and what is read from there on. -/
theorem reads_token {α : Type} {f : List UInt8 → List UInt8 → Scan α}
    (hf : ∀ tok, Reads IsLine (f tok)) :
    Reads IsTextLine fun s => (advanceToken s).bind fun tok s => f tok (s.drop 1) := by
  intro s a rest h
  obtain ⟨tok, u, htok, hu⟩ := bind_eq_done.mp h
  obtain ⟨rfl, hclean, hhead⟩ := advanceToken_done htok
  cases u with
  | nil => cases hhead
  | cons c u =>
    obtain rfl : c = space := by simpa using hhead
    obtain ⟨p, rfl, hp⟩ := hf tok u a rest hu
    exact ⟨tok ++ space :: p, by simp,
      isTextLine_append hclean ⟨space, p, rfl, by decide, by decide, hp⟩⟩

theorem reads_expectChars {chs : List UInt8} (h : Clean chs) : Reads Clean (expectChars chs) := by
  induction chs with
  | nil =>
    intro s a rest hs
    cases hs
    exact ⟨[], rfl, clean_nil⟩
  | cons ch chs ih =>
    have hch : Reads (· = [ch]) (expectChar ch) := by
      intro s a rest hs
      cases s with
      | nil => cases hs
      | cons c s =>
        rw [expectChar] at hs
        split_ifs at hs with hc
        cases hs
        exact ⟨[c], rfl, by rw [hc]⟩
    refine hch.bind (fun _ => ih fun c hc => h c (List.mem_cons_of_mem _ hc)) ?_
    rintro p q rfl hq
    obtain ⟨h1, h2⟩ := h ch List.mem_cons_self
    exact clean_cons h1 h2 hq

theorem reads_parseDigits (v : ℤ) : Reads Clean (parseDigits v) := by
  intro s
  induction s generalizing v with
  | nil => intro a rest h; cases h
  | cons c s ih =>
    intro a rest h
    rw [parseDigits] at h
    split_ifs at h with h1
    · obtain ⟨p, rfl, hp⟩ := ih _ a rest h
      refine ⟨c :: p, rfl, clean_cons ?_ ?_ hp⟩ <;> rintro rfl <;> exact absurd h1 (by decide)
    · cases h
      exact ⟨[], rfl, clean_nil⟩

theorem reads_parseInt : Reads Clean parseInt := by
  intro s a rest h
  cases s with
  | nil => cases h
  | cons c s =>
    rw [parseInt] at h
    split_ifs at h
    exact reads_parseDigits 0 (c :: s) a rest h

theorem clean_httpVersion : Clean (ascii "HTTP/1.") := by
  unfold Clean
  decide +kernel

theorem reads_parseHttpVersion : Reads Clean parseHttpVersion :=
  (reads_expectChars clean_httpVersion).bind (fun _ => reads_parseInt) fun _ _ => clean_append

/-- A request line behind the empty line that may stand in front of it. -/
theorem line_of_requestLine {s rest : List UInt8} {x : List UInt8 × List UInt8 × ℤ}
    (h : requestLine s = .done x rest) :
    ∃ e p, s = e ++ p ++ rest ∧ (e = [] ∨ IsNewline e) ∧ IsTextLine p := by
  have hversion (method path : List UInt8) : Reads IsLine fun s =>
      (parseHttpVersion s).bind fun minorVersion s =>
        (endOfLine s).map fun _ => (method, path, minorVersion) :=
    reads_parseHttpVersion.bind (fun _ => reads_endOfLine.map _)
      fun _ _ hp hq => isLine_append hp hq.isLine
  have hpath (method : List UInt8) : Reads IsLine fun s =>
      (advanceToken s).bind fun path s => (parseHttpVersion (s.drop 1)).bind fun minorVersion s =>
        (endOfLine s).map fun _ => (method, path, minorVersion) := by
    intro s a rest hs
    obtain ⟨p, hp, hline⟩ := reads_token (hversion method) s a rest hs
    exact ⟨p, hp, hline.isLine⟩
  obtain ⟨_, u, he, hu⟩ := bind_eq_done.mp h
  obtain ⟨e, rfl, hnl⟩ := reads_skipEmptyLine s _ u he
  obtain ⟨p, rfl, hp⟩ := reads_token hpath u x rest hu
  exact ⟨e, p, by rw [List.append_assoc], hnl, hp⟩

theorem reads_headerName : Reads Clean headerName := by
  intro s
  induction s with
  | nil => intro a rest h; cases h
  | cons c s ih =>
    intro a rest h
    rw [headerName] at h
    split_ifs at h with h1 h2
    · cases h
      exact ⟨[c], rfl, clean_cons (by rw [h1]; decide) (by rw [h1]; decide) clean_nil⟩
    · obtain ⟨v, hv, -⟩ := map_eq_done.mp h
      obtain ⟨p, rfl, hp⟩ := ih v rest hv
      refine ⟨c :: p, rfl, clean_cons ?_ ?_ hp⟩ <;> rintro rfl <;> exact h2 (by decide)

theorem reads_skipBlanks : Reads Clean skipBlanks := by
  intro s
  induction s with
  | nil => intro a rest h; cases h
  | cons c s ih =>
    intro a rest h
    rw [skipBlanks] at h
    split_ifs at h with h1
    · obtain ⟨n, hn, -⟩ := map_eq_done.mp h
      obtain ⟨p, rfl, hp⟩ := ih n rest hn
      refine ⟨c :: p, rfl, clean_cons ?_ ?_ hp⟩ <;> rintro rfl <;> exact absurd h1 (by decide)
    · cases h
      exact ⟨[], rfl, clean_nil⟩

theorem reads_getTokenToEol : Reads IsLine getTokenToEol := by
  intro s
  induction s with
  | nil => intro a rest h; cases h
  | cons c s ih =>
    intro a rest h
    rw [getTokenToEol] at h
    split_ifs at h with h1
    · -- `FOUND_CTL` accepts what `newline` does
      have hnl : newline c s = .done () rest := by
        rw [foundCtl] at h
        rw [newline]
        split_ifs at h ⊢
        · obtain ⟨_, hlf, -⟩ := map_eq_done.mp h
          exact hlf
        · cases h
          rfl
      obtain ⟨p, hp, hline⟩ := reads_newline hnl
      exact ⟨p, hp, hline.isLine⟩
    · obtain ⟨v, hv, -⟩ := map_eq_done.mp h
      obtain ⟨p, rfl, hp⟩ := ih v rest hv
      refine ⟨c :: p, rfl, isLine_cons ?_ ?_ hp⟩ <;> rintro rfl <;> exact h1 (by decide)

/-- A header line. -/
theorem line_of_headerLine {pos : ℕ} {first : Bool} {c : UInt8} {s rest : List UInt8}
    {header : PhrHeader} (h1 : c ≠ cr) (h2 : c ≠ lf)
    (h : headerLine pos first (c :: s) = .done header rest) :
    ∃ p, c :: s = p ++ rest ∧ IsTextLine p := by
  have hvalue (name : Option (List UInt8)) (valueAt : ℕ) :
      Reads IsLine (headerValue name valueAt) :=
    reads_getTokenToEol.map _
  have hnamed : Reads IsLine fun s =>
      (headerName s).bind fun name s => (skipBlanks s).bind fun blanks s =>
        headerValue (some name) (pos + name.length + 1 + blanks) s :=
    reads_headerName.bind (Q := IsLine) (fun _ => reads_skipBlanks.bind (fun _ => hvalue _ _)
      fun _ _ => isLine_append) fun _ _ => isLine_append
  have hline : ∃ p, c :: s = p ++ rest ∧ IsLine p := by
    rw [headerLine] at h
    split_ifs at h
    · exact hnamed (c :: s) header rest h
    · exact hvalue none pos (c :: s) header rest h
  obtain ⟨p, hp, text, term, rfl, htext, hterm⟩ := hline
  refine ⟨text ++ term, hp, ?_⟩
  cases text with
  | nil =>
    rcases hterm with rfl | rfl
    · exact absurd (List.cons.inj hp).1 h2
    · exact absurd (List.cons.inj hp).1 h1
  | cons d text =>
    obtain ⟨h1, h2⟩ := htext d List.mem_cons_self
    exact ⟨d, text ++ term, rfl, h1, h2, text, term, rfl,
      fun e he => htext e (List.mem_cons_of_mem _ he), hterm⟩

/-! ## Completeness -/

/-- A line with a text leaves one line end counted. -/
theorem isCompleteFrom_textLine {p : List UInt8} (hp : IsTextLine p) (retCnt : ℕ)
    (rest : List UInt8) : isCompleteFrom retCnt (p ++ rest) = isCompleteFrom 1 rest := by
  obtain ⟨c, t, rfl, h1, h2, text, term, rfl, htext, hterm⟩ := hp
  rw [List.cons_append, isCompleteFrom_other h1 h2]
  induction text with
  | nil => rcases hterm with rfl | rfl <;> simp [isCompleteFrom_cr, isCompleteFrom_lf]
  | cons d text ih =>
    obtain ⟨h1, h2⟩ := htext d List.mem_cons_self
    rw [List.cons_append, List.cons_append, isCompleteFrom_other h1 h2]
    exact ih fun e he => htext e (List.mem_cons_of_mem _ he)

theorem isCompleteFrom_newline {p : List UInt8} (hp : IsNewline p) (retCnt : ℕ)
    (rest : List UInt8) : isCompleteFrom retCnt (p ++ rest) =
      if retCnt + 1 = 2 then .done () rest else isCompleteFrom (retCnt + 1) rest := by
  rcases hp with rfl | rfl
  · exact isCompleteFrom_lf retCnt rest
  · rw [List.cons_append, List.cons_append, isCompleteFrom_cr, if_neg (not_not.mpr rfl)]
    rfl

/-- Accepted headers end with the second of two line ends. -/
theorem isCompleteFrom_of_parseHeaders {maxHeaders len n : ℕ} {headers headers' : List PhrHeader}
    {s rest : List UInt8}
    (h : parseHeaders maxHeaders len n headers s = (.done () rest, headers')) :
    isCompleteFrom 1 s = .done () rest := by
  induction n generalizing headers s with
  | zero => cases h
  | succ n ih =>
    cases s with
    | nil => cases h
    | cons c s =>
      rw [parseHeaders] at h
      split_ifs at h with h1 h2
      · obtain ⟨p, hp, hnl⟩ := reads_newline (Prod.mk.inj h).1
        rw [hp, isCompleteFrom_newline hnl]
        rfl
      · cases h
      · simp only [Bool.or_eq_true, decide_eq_true_eq, not_or] at h1
        cases hl : headerLine (len - (s.length + 1)) headers.isEmpty (c :: s) with
        | eof => rw [hl] at h; cases h
        | bad => rw [hl] at h; cases h
        | done header u =>
          rw [hl] at h
          obtain ⟨p, hp, hline⟩ := line_of_headerLine h1.1 h1.2 hl
          rw [hp, isCompleteFrom_textLine hline]
          exact ih h

/-- An accepted request is complete. -/
theorem isCompleteFrom_of_parseRequest {maxHeaders : ℕ} {q rest : List UInt8} {request : Request}
    (h : parseRequest maxHeaders q = (.done () rest, request)) :
    isCompleteFrom 0 q = .done () rest := by
  rw [parseRequest] at h
  cases hr : requestLine q with
  | eof => rw [hr] at h; cases h
  | bad => rw [hr] at h; cases h
  | done x s =>
    simp only [hr] at h
    obtain ⟨e, p, rfl, he, hp⟩ := line_of_requestLine hr
    have hs : isCompleteFrom 1 s = .done () rest :=
      isCompleteFrom_of_parseHeaders (Prod.ext (Prod.mk.inj h).1 rfl)
    rw [List.append_assoc]
    rcases he with rfl | he
    · rw [List.nil_append, isCompleteFrom_textLine hp, hs]
    · rw [isCompleteFrom_newline he, if_neg (by decide), isCompleteFrom_textLine hp, hs]

/-- The end of a request is found within the buffer. -/
theorem length_le_of_isCompleteFrom {retCnt : ℕ} {s rest : List UInt8} {a : Unit}
    (h : isCompleteFrom retCnt s = .done a rest) : rest.length ≤ s.length := by
  induction retCnt, s using isCompleteFrom.induct with
  | case1 => cases h
  | case2 => cases h
  | case3 retCnt c s hc => simp [isCompleteFrom_cr, hc] at h
  | case4 retCnt c s hc h2 =>
    rw [isCompleteFrom_cr, if_neg hc, if_pos h2] at h
    cases h
    simp only [List.length_cons]
    omega
  | case5 retCnt c s hc h2 ih =>
    rw [isCompleteFrom_cr, if_neg hc, if_neg h2] at h
    have := ih h
    simp only [List.length_cons]
    omega
  | case6 retCnt s h2 =>
    rw [isCompleteFrom_lf, if_pos h2] at h
    cases h
    exact Nat.le_succ _
  | case7 retCnt s h2 _ ih =>
    rw [isCompleteFrom_lf, if_neg ‹_›] at h
    exact (ih h).trans (Nat.le_succ _)
  | case8 retCnt c s h1 h2 ih =>
    rw [isCompleteFrom_other h1 h2] at h
    exact (ih h).trans (Nat.le_succ _)

/-- One more line end in front makes no difference, where the end is not that
close. -/
theorem isCompleteFrom_zero {w : List UInt8} (h : isCompleteFrom 1 w = .done () [])
    (hlen : 3 ≤ w.length) : isCompleteFrom 0 w = .done () [] := by
  match w, hlen with
  | c :: d :: e :: w, _ =>
    by_cases h2 : c = lf
    · subst h2
      rw [isCompleteFrom_lf, if_pos rfl] at h
      cases h
    · by_cases h1 : c = cr
      · subst h1
        by_cases hd : d = lf
        · rw [isCompleteFrom_cr, if_neg (not_not.mpr hd), if_pos rfl] at h
          cases h
        · rw [isCompleteFrom_cr, if_pos hd] at h
          cases h
      · rw [isCompleteFrom_other h1 h2] at h ⊢
        exact h

/-- The end is found from the next byte on, where it is not that close. -/
theorem isCompleteFrom_tail {w : List UInt8} (h : isCompleteFrom 0 w = .done () [])
    (hlen : 5 ≤ w.length) : isCompleteFrom 0 w.tail = .done () [] := by
  match w, hlen with
  | c :: d :: w, hlen =>
    rw [List.length_cons, List.length_cons] at hlen
    rw [List.tail_cons]
    by_cases h2 : c = lf
    · subst h2
      rw [isCompleteFrom_lf, if_neg (by decide)] at h
      exact isCompleteFrom_zero h (by rw [List.length_cons]; omega)
    · by_cases h1 : c = cr
      · -- a line end of two bytes; its second byte is one by itself
        subst h1
        by_cases hd : d = lf
        · subst hd
          rw [isCompleteFrom_cr, if_neg (by decide), if_neg (by decide)] at h
          rwa [isCompleteFrom_lf, if_neg (by decide)]
        · rw [isCompleteFrom_cr, if_pos hd] at h
          cases h
      · rwa [isCompleteFrom_other h1 h2] at h

theorem isCompleteFrom_drop {q : List UInt8} (h : isCompleteFrom 0 q = .done () []) {d : ℕ}
    (hd : d + 4 ≤ q.length) : isCompleteFrom 0 (q.drop d) = .done () [] := by
  induction d with
  | zero => rwa [List.drop_zero]
  | succ d ih =>
    rw [← List.tail_drop]
    exact isCompleteFrom_tail (ih (by omega)) (by rw [List.length_drop]; omega)

/-- **Completeness.** From wherever a call on a front leaves off, the end of the
request is found. -/
theorem isComplete_request {maxHeaders : ℕ} {q : List UInt8} {request : Request} {lastLen : ℕ}
    (h : parseRequest maxHeaders q = (.done () [], request)) (hlast : lastLen < q.length) :
    isComplete q lastLen = .done () [] := by
  have hq := isCompleteFrom_of_parseRequest h
  rw [isComplete]
  split_ifs with h3
  · exact hq
  · exact isCompleteFrom_drop hq (by omega)

/-- Bytes behind the request do not matter. -/
theorem isComplete_append {q : List UInt8} {lastLen : ℕ} (h : isComplete q lastLen = .done () [])
    (hlast : lastLen ≤ q.length) (y : List UInt8) : isComplete (q ++ y) lastLen = .done () y := by
  rw [isComplete] at h ⊢
  split_ifs at h ⊢ with h3
  · exact (extends_isCompleteFrom 0).more h y
  · rw [List.drop_append_of_le_length (by omega)]
    exact (extends_isCompleteFrom 0).more h y

/-- A front of a request is not complete. -/
theorem isComplete_front {a b : List UInt8} {lastLen : ℕ}
    (h : isComplete (a ++ b) lastLen = .done () []) (hb : b ≠ []) (hlast : lastLen ≤ a.length) :
    isComplete a lastLen = .eof := by
  rw [isComplete] at h ⊢
  split_ifs at h ⊢ with h3
  · exact (extends_isCompleteFrom 0).eof_of_append hb h
  · rw [List.drop_append_of_le_length (by omega)] at h
    exact (extends_isCompleteFrom 0).eof_of_append hb h

end Yotta.Picohttp
