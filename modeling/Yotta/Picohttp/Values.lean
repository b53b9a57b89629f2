import Yotta.Picohttp.Incremental

/-!
# Where header values stand

Results:
* `standsIn_of_phrParseRequest`: the value of a parsed header stands in the buffer at its
  position, without a byte that ends a line or a string, and a newline follows it.
* `phrParseRequest_cut`: a request may end behind any of its headers.
-/

namespace Yotta.Picohttp

open Yotta.Bytes Yotta.Scan

/-! ## Values -/

/-- No byte ends a line or a string. -/
def IsText (s : List UInt8) : Prop := (0 : UInt8) ∉ s ∧ Clean s

/-- The value of the header stands in the buffer at its position, and a newline follows it. -/
def StandsIn (header : PhrHeader) (buf : List UInt8) : Prop :=
  IsText header.value ∧ ∃ before term rest, buf = before ++ header.value ++ term ++ rest ∧
    before.length = header.valueAt ∧ IsNewline term

theorem isText_nil : IsText [] := ⟨List.not_mem_nil, clean_nil⟩

theorem isText_cons {c : UInt8} {s : List UInt8} (h0 : c ≠ 0) (h1 : c ≠ cr) (h2 : c ≠ lf)
    (hs : IsText s) : IsText (c :: s) := by
  refine ⟨fun hmem => ?_, clean_cons h1 h2 hs.2⟩
  rcases List.mem_cons.mp hmem with h | h
  · exact h0 h.symm
  · exact hs.1 h

/-- Bytes behind the buffer make no difference. -/
theorem StandsIn.append {header : PhrHeader} {buf : List UInt8} (h : StandsIn header buf)
    (y : List UInt8) : StandsIn header (buf ++ y) := by
  obtain ⟨htext, before, term, rest, hbuf, hat, hterm⟩ := h
  refine ⟨htext, before, term, rest ++ y, ?_, hat, hterm⟩
  rw [hbuf, List.append_assoc]

theorem StandsIn.drop {header : PhrHeader} {buf : List UInt8} (h : StandsIn header buf) :
    ∃ term rest, buf.drop header.valueAt = header.value ++ (term ++ rest) ∧ IsNewline term := by
  obtain ⟨-, before, term, rest, rfl, hat, hterm⟩ := h
  refine ⟨term, rest, ?_, hterm⟩
  rw [List.append_assoc, List.append_assoc, List.drop_left' hat]

/-! ## One header line -/

theorem getTokenToEol_done {s value rest : List UInt8} (h : getTokenToEol s = .done value rest) :
    ∃ term, s = value ++ (term ++ rest) ∧ IsNewline term ∧ IsText value := by
  induction s generalizing value with
  | nil => cases h
  | cons c s ih =>
    rw [getTokenToEol] at h
    split_ifs at h with hctl
    · unfold foundCtl at h
      split_ifs at h with h1 h2
      · obtain ⟨a, ha, hval⟩ := map_eq_done.mp h
        cases s with
        | nil => cases ha
        | cons d s =>
          rw [expectChar] at ha
          split_ifs at ha with hd
          cases ha
          subst h1 hd hval
          exact ⟨[cr, lf], rfl, Or.inr rfl, isText_nil⟩
      · cases h
        subst h2
        exact ⟨[lf], rfl, Or.inl rfl, isText_nil⟩
    · obtain ⟨value', hvalue, rfl⟩ := map_eq_done.mp h
      obtain ⟨term, rfl, hterm, htext⟩ := ih hvalue
      refine ⟨term, rfl, hterm, isText_cons ?_ ?_ ?_ htext⟩ <;> rintro rfl <;>
        exact hctl (by decide)

theorem headerName_done {s name rest : List UInt8} (h : headerName s = .done name rest) :
    s = name ++ 58 :: rest := by
  induction s generalizing name with
  | nil => cases h
  | cons c s ih =>
    rw [headerName] at h
    split_ifs at h with h1 h2
    · cases h
      rw [h1]
      rfl
    · obtain ⟨name', hname, rfl⟩ := map_eq_done.mp h
      rw [ih hname]
      rfl

theorem skipBlanks_done {s rest : List UInt8} {n : ℕ} (h : skipBlanks s = .done n rest) :
    ∃ blanks, s = blanks ++ rest ∧ blanks.length = n := by
  induction s generalizing n with
  | nil => cases h
  | cons c s ih =>
    rw [skipBlanks] at h
    split_ifs at h
    · obtain ⟨m, hm, rfl⟩ := map_eq_done.mp h
      obtain ⟨blanks, rfl, hlen⟩ := ih hm
      exact ⟨c :: blanks, rfl, by rw [List.length_cons, hlen]⟩
    · cases h
      exact ⟨[], rfl, rfl⟩

theorem headerValue_done {name : Option (List UInt8)} {valueAt : ℕ} {s rest : List UInt8}
    {header : PhrHeader} (h : headerValue name valueAt s = .done header rest) :
    header.valueAt = valueAt ∧ IsText header.value ∧
      ∃ term, s = header.value ++ (term ++ rest) ∧ IsNewline term := by
  obtain ⟨value, hvalue, rfl⟩ := map_eq_done.mp h
  obtain ⟨term, hs, hterm, htext⟩ := getTokenToEol_done hvalue
  exact ⟨rfl, htext, term, hs, hterm⟩

/-- A header line at the position `pos`. -/
theorem headerLine_done {pos : ℕ} {first : Bool} {s rest : List UInt8} {header : PhrHeader}
    (h : headerLine pos first s = .done header rest) :
    IsText header.value ∧ ∃ before term, s = before ++ header.value ++ term ++ rest ∧
      pos + before.length = header.valueAt ∧ IsNewline term := by
  cases s with
  | nil => cases h
  | cons c s =>
    rw [headerLine] at h
    split_ifs at h with hnamed htoken
    · obtain ⟨name, s₁, hname, h⟩ := bind_eq_done.mp h
      obtain ⟨n, s₂, hblanks, h⟩ := bind_eq_done.mp h
      obtain ⟨hat, htext, term, rfl, hterm⟩ := headerValue_done h
      obtain ⟨blanks, rfl, hlen⟩ := skipBlanks_done hblanks
      refine ⟨htext, name ++ 58 :: blanks, term, ?_, ?_, hterm⟩
      · rw [headerName_done hname]
        simp
      · rw [hat, List.length_append, List.length_cons, hlen]
        omega
    · obtain ⟨hat, htext, term, hs, hterm⟩ := headerValue_done h
      refine ⟨htext, [], term, ?_, hat.symm, hterm⟩
      rw [hs]
      simp

/-! ## Requests -/

/-- The parts of a call that accepts. -/
theorem parts_of_phrParseRequest {buf : List UInt8} {room lastLen : ℕ} {n : ℤ}
    {request : Request} (h : phrParseRequest buf room lastLen = (n, request)) (hn : 0 < n) :
    ∃ method path minorVersion s rest, requestLine buf = .done (method, path, minorVersion) s ∧
      parseHeaders room buf.length (s.length + 1) [] s = (.done () rest, request.headers) := by
  unfold phrParseRequest at h
  dsimp only at h
  generalize (if lastLen ≠ 0 then isComplete buf lastLen else .done () buf) = complete at h
  cases complete with
  | eof => exact absurd hn (by rw [← (Prod.mk.inj h).1]; decide)
  | bad => exact absurd hn (by rw [← (Prod.mk.inj h).1]; decide)
  | done a rest₀ =>
    dsimp only at h
    cases hline : requestLine buf with
    | eof =>
      rw [parseRequest, hline] at h
      exact absurd hn (by rw [← (Prod.mk.inj h).1]; decide)
    | bad =>
      rw [parseRequest, hline] at h
      exact absurd hn (by rw [← (Prod.mk.inj h).1]; decide)
    | done x s =>
      obtain ⟨method, path, minorVersion⟩ := x
      rw [parseRequest, hline] at h
      dsimp only at h
      rcases hheaders : parseHeaders room buf.length (s.length + 1) [] s with ⟨_ | _ | _, headers⟩
      · rw [hheaders] at h
        obtain ⟨-, rfl⟩ := Prod.mk.inj h
        exact ⟨method, path, minorVersion, s, _, rfl, hheaders⟩
      · rw [hheaders] at h
        exact absurd hn (by rw [← (Prod.mk.inj h).1]; decide)
      · rw [hheaders] at h
        exact absurd hn (by rw [← (Prod.mk.inj h).1]; decide)

/-! ## A request that ends earlier -/

/-- The empty line may stand behind any header that has been read. -/
theorem parseHeaders_cut {maxHeaders pos n : ℕ} {headers headers' : List PhrHeader}
    {s rest : List UInt8} {x : PhrHeader}
    (h : parseHeaders maxHeaders (pos + s.length) n headers s = (.done () rest, headers'))
    (hx : x ∈ headers') (hnew : x ∉ headers) :
    ∃ before term q, s = before ++ x.value ++ term ++ q ∧ q ≠ [] ∧ IsText x.value ∧
      pos + before.length = x.valueAt ∧ IsNewline term ∧
      ∃ headers'', x ∈ headers'' ∧
        ∀ n', (before ++ x.value ++ term ++ [lf]).length ≤ n' →
        parseHeaders maxHeaders (pos + (before ++ x.value ++ term ++ [lf]).length) n' headers
          (before ++ x.value ++ term ++ [lf]) = (.done () [], headers'') := by
  induction n generalizing headers pos s with
  | zero => cases h
  | succ n ih =>
    rcases parseHeaders_done h with
      ⟨-, -, -, -, -, rfl⟩ | ⟨c, t, header, u, hs, h1, h2, hroom, hline, hrest⟩
    · exact absurd hx hnew
    rw [Nat.add_sub_cancel] at hline
    obtain ⟨p, hp, hsplit, hmore⟩ := exact_headerLine pos _ _ _ _ hline
    obtain ⟨d, p', rfl⟩ := List.exists_cons_of_ne_nil hp
    obtain rfl : c = d := by
      rw [hs, List.cons_append] at hsplit
      exact (List.cons.inj hsplit).1
    -- a round on the line, whatever follows it
    have hround : ∀ (m : ℕ) (y : List UInt8),
        parseHeaders maxHeaders (pos + (c :: p' ++ y).length) (m + 1) headers (c :: p' ++ y) =
          parseHeaders maxHeaders (pos + (c :: p').length + y.length) m (headers ++ [header])
            y := by
      intro m y
      rw [List.cons_append, parseHeaders_line h1 h2 hroom, Nat.add_sub_cancel, ← List.cons_append,
        hmore y, List.length_append, Nat.add_assoc]
    by_cases hxh : x = header
    · subst hxh
      have hread := hmore []
      rw [List.append_nil] at hread
      obtain ⟨htext, before, term, hbefore, hat, hterm⟩ := headerLine_done hread
      rw [List.append_nil] at hbefore
      refine ⟨before, term, u, ?_, ?_, htext, hat, hterm, headers ++ [x], by simp, ?_⟩
      · rw [← hbefore, hsplit]
      · rintro rfl
        cases n <;> cases hrest
      · intro n' hn'
        rw [← hbefore] at hn' ⊢
        obtain ⟨m, rfl⟩ : ∃ m, n' = m + 2 := ⟨n' - 2, by
          simp only [List.length_append, List.length_cons] at hn'
          omega⟩
        rw [hround, parseHeaders_newline (Or.inr rfl)]
        rfl
    · have hpos : pos + s.length = pos + (c :: p').length + u.length := by
        rw [hsplit, List.length_append, Nat.add_assoc]
      rw [hpos] at hrest
      have hnew' : x ∉ headers ++ [header] := by
        rw [List.mem_append, List.mem_singleton]
        rintro (hmem | hmem)
        · exact hnew hmem
        · exact hxh hmem
      obtain ⟨before, term, q, rfl, hq, htext, hat, hterm, headers'', hmem, hparse⟩ :=
        ih hrest hnew'
      have hassoc : ∀ y, (c :: p' ++ before) ++ x.value ++ term ++ y =
          c :: p' ++ (before ++ x.value ++ term ++ y) := by
        intro y
        simp only [List.append_assoc]
      refine ⟨c :: p' ++ before, term, q, ?_, hq, htext, ?_, hterm, headers'', hmem, ?_⟩
      · rw [hsplit, hassoc]
      · rw [← hat, List.length_append, Nat.add_assoc]
      · intro n' hn'
        rw [hassoc] at hn' ⊢
        obtain ⟨m, rfl⟩ : ∃ m, n' = m + 1 := ⟨n' - 1, by
          rw [List.cons_append, List.length_cons] at hn'
          omega⟩
        rw [hround]
        apply hparse
        rw [List.length_append, List.length_cons] at hn'
        omega

/-- **A request may end behind any of its headers**, with the empty line there. -/
theorem phrParseRequest_cut {buf : List UInt8} {room lastLen : ℕ} {n : ℤ} {request : Request}
    (h : phrParseRequest buf room lastLen = (n, request)) (hn : 0 < n) {x : PhrHeader}
    (hx : x ∈ request.headers) :
    ∃ before term q, buf = before ++ x.value ++ term ++ q ∧ q ≠ [] ∧ IsText x.value ∧
      before.length = x.valueAt ∧ IsNewline term ∧
      ∃ request', parseRequest room (before ++ x.value ++ term ++ [lf]) =
        (.done () [], request') ∧ x ∈ request'.headers := by
  obtain ⟨method, path, minorVersion, s, rest, hline, hheaders⟩ := parts_of_phrParseRequest h hn
  obtain ⟨front, -, rfl, hmore⟩ := exact_requestLine _ _ _ hline
  rw [List.length_append] at hheaders
  obtain ⟨before, term, q, rfl, hq, htext, hat, hterm, headers'', hmem, hparse⟩ :=
    parseHeaders_cut hheaders hx List.not_mem_nil
  have hassoc : ∀ y, (front ++ before) ++ x.value ++ term ++ y =
      front ++ (before ++ x.value ++ term ++ y) := by
    intro y
    simp only [List.append_assoc]
  refine ⟨front ++ before, term, q, ?_, hq, htext, ?_, hterm,
    { method := some method, path := some path, minorVersion, headers := headers'' }, ?_, hmem⟩
  · rw [hassoc]
  · rw [← hat, List.length_append]
  · rw [hassoc, parseRequest, hmore]
    dsimp only
    rw [List.length_append, hparse _ (Nat.le_succ _)]

/-- **Values.** The values of the headers of a request that is accepted. -/
theorem standsIn_of_phrParseRequest {buf : List UInt8} {room lastLen : ℕ} {n : ℤ}
    {request : Request} (h : phrParseRequest buf room lastLen = (n, request)) (hn : 0 < n) :
    ∀ header ∈ request.headers, StandsIn header buf := by
  intro header hmem
  obtain ⟨before, term, q, hbuf, -, htext, hat, hterm, -⟩ := phrParseRequest_cut h hn hmem
  exact ⟨htext, before, term, q, hbuf, hat, hterm⟩

end Yotta.Picohttp
