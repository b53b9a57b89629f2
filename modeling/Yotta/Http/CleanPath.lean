import Yotta.Lib.Lexical

/-!
# `clean_path`

Model of `clean_path` (`http/yta_http.cpp`, lines 92–152). The caller's buffer
`normalized_path` is a list, the write pointer `output` is kept as the distance
`output - normalized_path`, and `path` may be longer than `length`, as the
memory behind a `string_view` is.

Results:
* `cleanPath_eq`: for every path, the returned length is that of the lexical
  normal form, and the buffer holds the `residue` of the path over its previous
  content. Its first `length` bytes are the normal form
  (`cleanPath_take`); what lies behind them is left over from components that a
  later `..` took away.
-/

namespace Yotta.Http

open Yotta.Bytes Yotta.Lexical

/-! ## Model of the code -/

/-- The locals of the `while` loop. -/
structure CleanState where
  /-- `normalized_path` -/
  buf : List UInt8
  /-- `output - normalized_path` -/
  output : ℕ
  r : ℕ
  dotdot : ℕ

/-- `*output++ = c` -/
def CleanState.emit (st : CleanState) (c : UInt8) : CleanState :=
  { st with buf := st.buf.set st.output c, output := st.output + 1 }

/-- `while (output > dotdot && *output != '/') --output;` (lines 127–129),
started at `output`. -/
def backtrack (buf : List UInt8) (dotdot : ℕ) : ℕ → ℕ
  | 0 => 0
  | output + 1 =>
    if output + 1 > dotdot ∧ buf.getD (output + 1) 0 ≠ slash then backtrack buf dotdot output
    else output + 1

/-- `for (; r < length && path[r] != '/'; ++r) *output++ = path[r];` (lines
142–144), for at most the given number of rounds. -/
def copyElement (path : List UInt8) (length : ℕ) : ℕ → CleanState → CleanState
  | 0, st => st
  | n + 1, st =>
    if st.r < length ∧ path.getD st.r 0 ≠ slash then
      copyElement path length n { st.emit (path.getD st.r 0) with r := st.r + 1 }
    else st

/-- One more leading `..` (lines 131–136). -/
def emitUp (st : CleanState) : CleanState :=
  let st := if st.output > 0 then st.emit slash else st
  let st := (st.emit dot).emit dot
  { st with dotdot := st.output }

theorem emitUp_r (st : CleanState) : (emitUp st).r = st.r := by
  unfold emitUp
  split_ifs <;> rfl

/-- The body of the `while` loop (lines 115–145). -/
def cleanStep (path : List UInt8) (length : ℕ) (rooted : Bool) (st : CleanState) : CleanState :=
  if path.getD st.r 0 = slash then { st with r := st.r + 1 }
  else if path.getD st.r 0 = dot ∧ (st.r + 1 = length ∨ path.getD (st.r + 1) 0 = slash) then
    { st with r := st.r + 1 }
  else if path.getD st.r 0 = dot ∧ path.getD (st.r + 1) 0 = dot ∧
      (st.r + 2 = length ∨ path.getD (st.r + 2) 0 = slash) then
    let st := { st with r := st.r + 2 }
    if st.output > st.dotdot then
      { st with output := backtrack st.buf st.dotdot (st.output - 1) }
    else if !rooted then emitUp st
    else st
  else
    let st := if rooted && st.output != 1 || !rooted && st.output != 0 then st.emit slash else st
    copyElement path length (length - st.r) st

/-- The `while` loop (lines 114–146). Each round advances `r`, so `length`
rounds are enough. -/
def cleanLoop (path : List UInt8) (length : ℕ) (rooted : Bool) : ℕ → CleanState → CleanState
  | 0, st => st
  | n + 1, st =>
    if st.r < length then cleanLoop path length rooted n (cleanStep path length rooted st) else st

/-- `clean_path path length normalized_path` (lines 94–152): the new length and
the buffer. -/
def cleanPath (path : List UInt8) (length : ℕ) (normalizedPath : List UInt8) :
    ℕ × List UInt8 :=
  if length = 0 then (1, normalizedPath.set 0 dot)
  else
    let rooted := path.getD 0 0 == slash
    let st : CleanState := { buf := normalizedPath, output := 0, r := 0, dotdot := 0 }
    let st := if rooted then { st.emit slash with r := 1, dotdot := 1 } else st
    let st := cleanLoop path length rooted length st
    let st := if st.output = 0 then st.emit dot else st
    (st.output, st.buf)

/-! ## The element at the read index -/

/-- The element of a path that starts at its front. -/
def element (rest : List UInt8) : List UInt8 := rest.takeWhile (· ≠ slash)

theorem slash_notMem_element (rest : List UInt8) : slash ∉ element rest := by
  intro h
  simpa using List.mem_takeWhile_imp h

/-- What follows an element is the end or a `/`. -/
theorem element_append (rest : List UInt8) :
    ∃ tl, rest = element rest ++ tl ∧ (tl = [] ∨ ∃ tl', tl = slash :: tl') := by
  refine ⟨rest.dropWhile (· ≠ slash), (List.takeWhile_append_dropWhile).symm, ?_⟩
  cases h : rest.dropWhile (· ≠ slash) with
  | nil => exact Or.inl rfl
  | cons c tl =>
    have hne : rest.dropWhile (· ≠ slash) ≠ [] := by rw [h]; exact List.cons_ne_nil _ _
    have := List.head_dropWhile_not (fun x : UInt8 => decide (x ≠ slash)) hne
    simp only [h, List.head_cons, decide_eq_false_iff_not, not_not] at this
    exact Or.inr ⟨tl, by rw [this]⟩

theorem element_cons_of_ne {c : UInt8} (hc : c ≠ slash) (rest : List UInt8) :
    element (c :: rest) = c :: element rest := by
  simp [element, hc]

theorem element_eq_nil_iff (rest : List UInt8) :
    element rest = [] ↔ rest = [] ∨ ∃ tl, rest = slash :: tl := by
  cases rest with
  | nil => simp [element]
  | cons c rest => by_cases hc : c = slash <;> simp [element, hc]

/-- Folding over the components of a path takes its first element and goes on
behind it. -/
theorem foldl_splitOn_element {β : Type} (f : β → List UInt8 → β) (hf : ∀ b, f b [] = b) (b : β)
    (rest : List UInt8) :
    (rest.splitOn slash).foldl f b =
      ((rest.drop (element rest).length).splitOn slash).foldl f (f b (element rest)) := by
  obtain ⟨tl, hrest, htl⟩ := element_append rest
  have hdrop : rest.drop (element rest).length = tl := by
    have hleft : (element rest ++ tl).drop (element rest).length = tl := List.drop_left
    rwa [← hrest] at hleft
  rw [hdrop]
  conv_lhs => rw [hrest]
  rcases htl with rfl | ⟨tl', rfl⟩
  · simp [List.splitOn_eq_singleton (slash_notMem_element rest), hf]
  · rw [List.splitOn_append_cons_self_of_not_mem (slash_notMem_element rest)]
    simp [List.splitOn_cons_eq_if_modifyHead, hf]

/-! ## The loops -/

theorem getD_of_drop_eq_cons {p path : List UInt8} {length r i : ℕ} {c : UInt8}
    {rest : List UInt8} (hp : p = path.take length) (h : p.drop (r + i) = c :: rest) :
    path.getD (r + i) 0 = c := by
  have hc : p[r + i]? = some c := by
    rw [← List.head?_drop, h, List.head?_cons]
  rw [hp, List.getElem?_take] at hc
  split_ifs at hc
  rw [List.getD_eq_getElem?_getD, hc, Option.getD_some]

/-- The element is copied to the output, whatever stands there. -/
theorem copyElement_eq {p path : List UInt8} {length : ℕ} (hp : p = path.take length)
    (hl : p.length = length) :
    ∀ n (st : CleanState), length - st.r ≤ n → st.r ≤ length →
      st.output + (element (p.drop st.r)).length ≤ st.buf.length →
      copyElement path length n st =
        { st with
          buf := blit st.buf st.output (element (p.drop st.r))
          output := st.output + (element (p.drop st.r)).length
          r := st.r + (element (p.drop st.r)).length } := by
  intro n
  induction n with
  | zero =>
    intro st hn hr _
    have : p.drop st.r = [] := List.drop_eq_nil_of_le (by omega)
    simp [copyElement, this, element]
  | succ n ih =>
    intro st hn hr hroom
    cases hrest : p.drop st.r with
    | nil =>
      have : length ≤ st.r := by
        rw [← hl]
        exact List.drop_eq_nil_iff.mp hrest
      rw [copyElement, if_neg (by omega)]
      simp [element]
    | cons c rest =>
      have hc := getD_of_drop_eq_cons (i := 0) hp hrest
      have hlt : st.r < length := by
        have := congrArg List.length hrest
        simp only [List.length_drop, List.length_cons] at this
        omega
      have hrest' : p.drop (st.r + 1) = rest := by
        rw [← List.drop_drop, hrest, List.drop_one, List.tail_cons]
      simp only [Nat.add_zero] at hc
      rw [copyElement, hc]
      by_cases hs : c = slash
      · rw [if_neg (by simp [hs])]
        simp [element, hs]
      · rw [if_pos ⟨hlt, hs⟩, ih _ (by simp only; omega) (by simp only; omega)]
        · rw [hrest, element_cons_of_ne hs, List.length_cons] at hroom
          simp only [CleanState.emit, hrest', element_cons_of_ne hs, List.length_cons]
          rw [blit_cons (by omega)]
          congr 1 <;> omega
        · rw [hrest, element_cons_of_ne hs, List.length_cons] at hroom
          simp only [CleanState.emit, hrest', List.length_set]
          omega

/-- The scan stops at the first index from above that is the barrier or holds a
`/`. -/
theorem backtrack_eq {buf : List UInt8} {dotdot t : ℕ} (ht : dotdot ≤ t)
    (hstop : t = dotdot ∨ buf.getD t 0 = slash) :
    ∀ output, t ≤ output → (∀ i, t < i → i ≤ output → buf.getD i 0 ≠ slash) →
      backtrack buf dotdot output = t := by
  intro output
  induction output with
  | zero => intro h _; rw [backtrack]; omega
  | succ output ih =>
    intro h hno
    rw [backtrack]
    rcases Nat.eq_or_lt_of_le h with rfl | h
    · rw [if_neg]
      rintro ⟨h1, h2⟩
      rcases hstop with rfl | hstop
      · omega
      · exact h2 hstop
    · rw [if_pos ⟨by omega, hno _ h le_rfl⟩]
      exact ih (by omega) fun i h1 h2 => hno i h1 (by omega)

/-! ## The loop computes the trail -/

/-- The state of the loop at an element boundary: the stack of the components
read so far is rendered in front of `output`, over the trail of those
components and the previous content `out` of the buffer, and the barrier
`dotdot` stands behind the leading `..` components. -/
structure Rel (p out : List UInt8) (rooted : Bool) (st : CleanState) (stack : List (List UInt8))
    (wet : List UInt8) : Prop where
  buf : st.buf = overlay wet out
  output : st.output = (render slash rooted stack).length
  front : ∃ s, wet = render slash rooted stack ++ s
  barrier : ∃ names k, stack = names ++ List.replicate k [dot, dot] ∧
    (∀ n ∈ names, IsName slash dot n) ∧ (rooted = true → k = 0) ∧
    st.dotdot = (render slash rooted (List.replicate k [dot, dot])).length
  /-- The output never overtakes the input, and there is room for a `/` in front
  of the next element. -/
  room : st.output ≤ st.r ∧ (stack ≠ [] → element (p.drop st.r) ≠ [] → st.output < st.r)
  r_le : st.r ≤ p.length
  fits : p.length ≤ out.length

theorem Rel.isStack {p out : List UInt8} {rooted : Bool} {st : CleanState}
    {stack : List (List UInt8)} {wet : List UInt8} (h : Rel p out rooted st stack wet) :
    IsStack slash dot rooted stack := by
  obtain ⟨names, k, h1, h2, h3, -⟩ := h.barrier
  exact ⟨names, k, h1, h2, h3⟩

theorem Rel.take_output {p out : List UInt8} {rooted : Bool} {st : CleanState}
    {stack : List (List UInt8)} {wet : List UInt8} (h : Rel p out rooted st stack wet) :
    st.buf.take (render slash rooted stack).length = render slash rooted stack := by
  obtain ⟨s, hs⟩ := h.front
  rw [h.buf, hs, overlay, List.append_assoc, List.take_left' rfl]

theorem length_render_le_append (rooted : Bool) (names base : List (List UInt8)) :
    (render slash rooted base).length ≤ (render slash rooted (names ++ base)).length := by
  induction names with
  | nil => simp
  | cons n names ih =>
    rw [List.cons_append, render_cons, List.length_append]
    omega

/-- The output is at its start exactly for the empty stack. -/
theorem length_render_eq_base_iff {rooted : Bool} {stack : List (List UInt8)}
    (hs : IsStack slash dot rooted stack) :
    (render slash rooted stack).length = (if rooted then 1 else 0) ↔ stack = [] := by
  constructor
  · intro h
    cases stack with
    | nil => rfl
    | cons c stack =>
      have hc : c ≠ [] := by
        obtain ⟨names, k, hn, hnames, -⟩ := hs
        have hmem : c ∈ names ++ List.replicate k [dot, dot] := by rw [← hn]; simp
        rcases List.mem_append.mp hmem with hm | hm
        · exact (hnames c hm).ne_nil
        · rw [List.eq_of_mem_replicate hm]; simp
      have hpos := List.length_pos_of_ne_nil hc
      have hbase : (if rooted then 1 else 0) ≤ (render slash rooted stack).length := by
        have := length_render_le_append rooted stack []
        cases rooted <;> simp at this ⊢; omega
      rw [render_cons, List.length_append, link, List.length_append] at h
      omega
  · rintro rfl
    cases rooted <;> simp

/-- A push as the loop does it: the new element, behind a `/` unless it is the
first one, is written at `output`. -/
theorem Rel.write_push {p out : List UInt8} {rooted : Bool} {st : CleanState}
    {stack : List (List UInt8)} {wet c : List UInt8} (h : Rel p out rooted st stack wet)
    (hpush : push dot rooted stack c = c :: stack) (hc : element (p.drop st.r) = c)
    (hne : c ≠ []) :
    (render slash rooted (c :: stack)).length ≤ st.r + c.length ∧
    blit st.buf st.output (link slash stack c) =
      overlay (trailStep slash dot rooted (stack, wet) c).2 out ∧
    ∃ s, (trailStep slash dot rooted (stack, wet) c).2 = render slash rooted (c :: stack) ++ s := by
  have hlen := h.output
  have hwet : (trailStep slash dot rooted (stack, wet) c).2 =
      overlay (render slash rooted (c :: stack)) wet := by
    simp [trailStep, hpush]
  refine ⟨?_, ?_, ?_⟩
  · rw [render_cons, List.length_append, ← hlen, link, List.length_append]
    obtain ⟨h1, h2⟩ := h.room
    split_ifs with hs
    · simp; omega
    · have := h2 hs (by rw [hc]; exact hne)
      simp; omega
  · rw [hlen, blit_eq_overlay h.take_output, hwet, ← render_cons, h.buf, overlay_assoc]
  · exact ⟨_, hwet⟩

/-- `..` behind a name: the scan stops where the rendering of the stack below
ends. -/
theorem Rel.backtrack_output {p out : List UInt8} {rooted : Bool} {st : CleanState}
    {below : List (List UInt8)} {wet n : List UInt8}
    (h : Rel p out rooted st (n :: below) wet) (hn : IsName slash dot n) :
    st.dotdot < st.output ∧
    backtrack st.buf st.dotdot (st.output - 1) = (render slash rooted below).length := by
  obtain ⟨names, k, hstack, hnames, hk, hdd⟩ := h.barrier
  cases names with
  | nil =>
    -- the top of a stack without names is a `..`
    exfalso
    rw [List.nil_append] at hstack
    have : n ∈ List.replicate k [dot, dot] := by rw [← hstack]; simp
    exact hn.ne_up (List.eq_of_mem_replicate this)
  | cons n' names =>
    simp only [List.cons_append, List.cons.injEq] at hstack
    obtain ⟨-, hbelow⟩ := hstack
    have hle : st.dotdot ≤ (render slash rooted below).length := by
      rw [hdd, hbelow]
      exact length_render_le_append rooted names _
    have hout := h.output
    rw [render_cons, List.length_append] at hout
    have hlink : 0 < (link slash below n).length := by
      rw [link, List.length_append]
      have := List.length_pos_of_ne_nil hn.ne_nil
      omega
    -- the elements above the stack below are the separator and the name
    have hbuf : ∀ i, i < (link slash below n).length →
        st.buf.getD ((render slash rooted below).length + i) 0 = (link slash below n).getD i 0 := by
      intro i hi
      have htake := h.take_output
      rw [render_cons] at htake
      have := congrArg (·[(render slash rooted below).length + i]?) htake
      simp only [List.getElem?_take, List.length_append] at this
      rw [if_pos (by omega), List.getElem?_append_right (by omega), Nat.add_sub_cancel_left] at this
      rw [List.getD_eq_getElem?_getD, List.getD_eq_getElem?_getD, this]
    refine ⟨by omega, backtrack_eq hle ?_ _ (by omega) fun i h1 h2 => ?_⟩
    · by_cases hb : below = []
      · left
        rw [hb] at hbelow
        rw [hdd, hb, (List.append_eq_nil_iff.mp hbelow.symm).2]
      · right
        have := hbuf 0 hlink
        simpa [link, hb] using this
    · obtain ⟨j, rfl⟩ := Nat.exists_eq_add_of_lt h1
      rw [Nat.add_assoc, hbuf (j + 1) (by omega)]
      have hmem : (link slash below n).getD (j + 1) 0 ∈ n := by
        rw [List.getD_eq_getElem _ _ (by omega)]
        by_cases hb : below = []
        · simp [link, hb]
        · simp [link, hb]
      exact fun he => hn.sep_notMem (he ▸ hmem)

/-- The tests of the loop body recognise `.` and `..` elements. -/
theorem element_cases {p path : List UInt8} {length r : ℕ} (hp : p = path.take length)
    (hl : p.length = length) (hr : r < length) :
    (path.getD r 0 = slash ∧ element (p.drop r) = []) ∨
    (path.getD r 0 ≠ slash ∧ element (p.drop r) ≠ [] ∧
      ((path.getD r 0 = dot ∧ (r + 1 = length ∨ path.getD (r + 1) 0 = slash)) ↔
        element (p.drop r) = [dot]) ∧
      (element (p.drop r) ≠ [dot] →
        ((path.getD r 0 = dot ∧ path.getD (r + 1) 0 = dot ∧
          (r + 2 = length ∨ path.getD (r + 2) 0 = slash)) ↔ element (p.drop r) = [dot, dot]))) := by
  have hlen : (p.drop r).length = length - r := by rw [List.length_drop, hl]
  have hd0 := fun c rest => @getD_of_drop_eq_cons p path length r 0 c rest hp
  have hd1 := fun c rest => @getD_of_drop_eq_cons p path length r 1 c rest hp
  have hd2 := fun c rest => @getD_of_drop_eq_cons p path length r 2 c rest hp
  simp only [Nat.add_zero] at hd0
  rw [← List.drop_drop] at hd1 hd2
  match hrest : p.drop r with
  | [] => rw [hrest] at hlen; simp at hlen; omega
  | [c] =>
    rw [hrest] at hlen
    have h1 : r + 1 = length := by simp at hlen; omega
    rw [hd0 c [] hrest]
    by_cases hc : c = slash
    · left; simp [hc, element]
    · right
      simp [hc, element, h1]
      exact fun h h' => absurd h' h
  | [c, d] =>
    rw [hrest] at hlen hd1
    have h2 : r + 2 = length := by simp at hlen; omega
    rw [hd0 c [d] hrest, hd1 d [] rfl]
    by_cases hc : c = slash
    · left; simp [hc, element]
    · right
      have : r + 1 ≠ length := by omega
      by_cases hd : d = slash
      · simp [hc, hd, element, h2, this]
        exact fun h h' => absurd h' h
      · simp [hc, hd, element, h2, this]
  | c :: d :: e :: rest =>
    rw [hrest] at hlen hd1 hd2
    rw [hd0 c (d :: e :: rest) hrest, hd1 d (e :: rest) rfl, hd2 e rest rfl]
    have h1 : r + 1 ≠ length := by simp at hlen; omega
    have h2 : r + 2 ≠ length := by simp at hlen; omega
    by_cases hc : c = slash
    · left; simp [hc, element]
    · right
      by_cases hd : d = slash
      · simp [hc, hd, element, h1, h2]
        exact fun h h' => absurd h' h
      · by_cases he : e = slash <;> simp [hc, hd, he, element, h1, h2]

/-- The rest of the path behind an element. -/
theorem drop_element {p : List UInt8} (r : ℕ) :
    (p.drop r).drop (element (p.drop r)).length = p.drop (r + (element (p.drop r)).length) := by
  rw [List.drop_drop]

theorem length_element_le {p : List UInt8} {r : ℕ} (hr : r ≤ p.length) :
    r + (element (p.drop r)).length ≤ p.length := by
  have := (List.takeWhile_prefix (l := p.drop r) (· ≠ slash)).length_le
  rw [List.length_drop] at this
  rw [element]
  omega

/-- No element starts where an element ends. -/
theorem element_drop_element {p : List UInt8} (r : ℕ) :
    element (p.drop (r + (element (p.drop r)).length)) = [] := by
  obtain ⟨tl, h, htl⟩ := element_append (p.drop r)
  have : p.drop (r + (element (p.drop r)).length) = tl := by
    rw [← drop_element]
    have hleft : (element (p.drop r) ++ tl).drop (element (p.drop r)).length = tl := List.drop_left
    rwa [← h] at hleft
  rw [this, element_eq_nil_iff]
  exact htl

theorem trailStep_nil (rooted : Bool) (s : List (List UInt8) × List UInt8) :
    trailStep slash dot rooted s [] = s := by
  simp [trailStep, push_skip]

/-- A state whose output has moved to the rendering of a new stack, with the
read index behind the element. -/
theorem Rel.after_element {p out : List UInt8} {rooted : Bool} {st st' : CleanState}
    {stack stack' : List (List UInt8)} {wet wet' c : List UInt8}
    (h : Rel p out rooted st stack wet) (hc : element (p.drop st.r) = c)
    (hr : st'.r = st.r + c.length) (hbuf : st'.buf = overlay wet' out)
    (hout : st'.output = (render slash rooted stack').length) (hroom : st'.output ≤ st'.r)
    (hfront : ∃ s, wet' = render slash rooted stack' ++ s)
    (hbar : ∃ names k, stack' = names ++ List.replicate k [dot, dot] ∧
      (∀ n ∈ names, IsName slash dot n) ∧ (rooted = true → k = 0) ∧
      st'.dotdot = (render slash rooted (List.replicate k [dot, dot])).length) :
    Rel p out rooted st' stack' wet' := by
  subst hc
  refine ⟨hbuf, hout, hfront, hbar, ⟨hroom, fun _ hne => ?_⟩, ?_, h.fits⟩
  · rw [hr] at hne
    exact absurd (element_drop_element st.r) hne
  · rw [hr]
    exact length_element_le h.r_le

/-- Writing a separator, when the stack is not empty, and then the bytes of a
component. -/
theorem emit_link_buf {st : CleanState} {stack : List (List UInt8)} {c : List UInt8}
    (hfit : st.output + (link slash stack c).length ≤ st.buf.length) :
    let st' := if stack = [] then st else st.emit slash
    blit st'.buf st'.output c = blit st.buf st.output (link slash stack c) ∧
      st'.output + c.length = st.output + (link slash stack c).length ∧
      st'.buf.length = st.buf.length := by
  unfold link at hfit ⊢
  split_ifs at hfit ⊢ with hs
  · simp
  · rw [List.length_append, List.length_singleton] at hfit
    refine ⟨?_, ?_, ?_⟩
    · rw [blit_append (by simp; omega)]
      simp only [CleanState.emit]
      rw [set_eq_blit (by omega)]
      rfl
    · simp only [CleanState.emit, List.length_append, List.length_singleton]
      omega
    · simp [CleanState.emit]

theorem Rel.fits_link {p out : List UInt8} {rooted : Bool} {st : CleanState}
    {stack : List (List UInt8)} {wet c : List UInt8} (h : Rel p out rooted st stack wet)
    (hpush : push dot rooted stack c = c :: stack) (hc : element (p.drop st.r) = c)
    (hne : c ≠ []) :
    st.output + (link slash stack c).length ≤ st.r + c.length ∧
      st.r + c.length ≤ st.buf.length := by
  obtain ⟨h1, -, -⟩ := h.write_push hpush hc hne
  rw [render_cons, List.length_append, ← h.output] at h1
  refine ⟨h1, ?_⟩
  have h2 := length_element_le (p := p) h.r_le
  have h3 := h.fits
  rw [hc] at h2
  rw [h.buf, length_overlay]
  omega

/-- Where a separator is written: behind every stack but the empty one. -/
theorem Rel.needs_slash_iff {p out : List UInt8} {rooted : Bool} {st : CleanState}
    {stack : List (List UInt8)} {wet : List UInt8} (h : Rel p out rooted st stack wet) :
    (rooted && st.output != 1 || !rooted && st.output != 0) = true ↔ stack ≠ [] := by
  have := length_render_eq_base_iff h.isStack
  rw [h.output, ne_eq, ← this]
  cases rooted <;> simp

/-- Another `..` on a stack of nothing else. -/
theorem Rel.after_emitUp {p out : List UInt8} {st : CleanState} {stack : List (List UInt8)}
    {wet : List UInt8} {k : ℕ} (h : Rel p out false st stack wet)
    (hc : element (p.drop st.r) = [dot, dot]) (hk : stack = List.replicate k [dot, dot]) :
    Rel p out false (emitUp { st with r := st.r + 2 })
      (trailStep slash dot false (stack, wet) [dot, dot]).1
      (trailStep slash dot false (stack, wet) [dot, dot]).2 := by
  have hpush : push dot false stack [dot, dot] = [dot, dot] :: stack := by
    rw [hk, push_up_bottom, List.replicate_succ]
  obtain ⟨hfit1, hfit2⟩ := h.fits_link hpush hc (by simp)
  obtain ⟨hlen, hblit, hfront⟩ := h.write_push hpush hc (by simp)
  have hiff : st.output > 0 ↔ stack ≠ [] := by
    have := length_render_eq_base_iff h.isStack
    rw [h.output]
    simp only [Bool.false_eq_true, if_false] at this
    rw [ne_eq, ← this]
    omega
  obtain ⟨hb1, hb2, hb3⟩ := @emit_link_buf { st with r := st.r + 2 } stack [dot, dot]
    (by simp only; omega)
  have htrail : (trailStep slash dot false (stack, wet) [dot, dot]).1 = [dot, dot] :: stack := by
    simp [trailStep, hpush]
  set st1 : CleanState := if stack = [] then { st with r := st.r + 2 }
    else ({ st with r := st.r + 2 } : CleanState).emit slash with hst1
  have hst : emitUp { st with r := st.r + 2 } =
      { (st1.emit dot).emit dot with dotdot := ((st1.emit dot).emit dot).output } := by
    rw [emitUp, hst1]
    by_cases hs : stack = [] <;> simp [hiff, hs]
  have hr1 : st1.r = st.r + 2 := by rw [hst1]; split_ifs <;> rfl
  have htwo : ([dot, dot] : List UInt8).length = 2 := rfl
  have hb3' : st1.buf.length = st.buf.length := hb3
  have hb2' : st1.output + 2 = st.output + (link slash stack [dot, dot]).length := hb2
  have hout : st1.output + 2 = (render slash false ([dot, dot] :: stack)).length := by
    rw [render_cons, List.length_append, ← h.output]
    exact hb2'
  rw [hst]
  refine h.after_element hc hr1 ?_ (by rw [htrail]; exact hout) ?_ (by rw [htrail]; exact hfront) ?_
  · rw [← hblit]
    show (st1.buf.set st1.output dot).set (st1.output + 1) dot = _
    rw [set_eq_blit (by rw [List.length_set]; omega), ← blit_cons (by omega)]
    exact hb1
  · show st1.output + 2 ≤ st1.r
    omega
  · refine ⟨[], k + 1, by rw [htrail, hk]; rfl, by simp, by simp, ?_⟩
    show st1.output + 2 = _
    rw [hout, hk]
    rfl

/-- The branch for a `..` element (lines 121–136). -/
theorem cleanUp_rel {p out : List UInt8} {rooted : Bool} {st : CleanState}
    {stack : List (List UInt8)} {wet : List UInt8} (h : Rel p out rooted st stack wet)
    (hc : element (p.drop st.r) = [dot, dot]) :
    Rel p out rooted
      (let st := { st with r := st.r + 2 }
       if st.output > st.dotdot then
         { st with output := backtrack st.buf st.dotdot (st.output - 1) }
       else if !rooted then emitUp st
       else st)
      (trailStep slash dot rooted (stack, wet) [dot, dot]).1
      (trailStep slash dot rooted (stack, wet) [dot, dot]).2 := by
  have hroom := h.room.1
  have hnil : ∀ k, stack = List.replicate k [dot, dot] → st.dotdot = st.output := by
    rintro k rfl
    obtain ⟨names, k', hstack, hnames, -, hdd⟩ := h.barrier
    cases names with
    | nil =>
      rw [List.nil_append] at hstack
      rw [hdd, h.output, hstack]
    | cons n names =>
      -- a name among `..` components
      have hmem : n ∈ List.replicate k [dot, dot] := by rw [hstack]; simp
      exact absurd (List.eq_of_mem_replicate hmem) (hnames n (by simp)).ne_up
  obtain ⟨hc', -⟩ | ⟨-, n, below, rfl, hn, hbelow, hpush⟩ | ⟨-, rfl, rfl, hpush⟩ |
    ⟨-, rfl, k, hk, hpush⟩ | ⟨hn, -⟩ := push_cases h.isStack (c := [dot, dot]) (by decide)
  · simp at hc'
  · -- the topmost name is taken away
    obtain ⟨hlt, hback⟩ := h.backtrack_output hn
    have htrail : trailStep slash dot rooted (n :: below, wet) [dot, dot] = (below, wet) := by
      simp [trailStep, hpush]
    obtain ⟨s, hs⟩ := h.front
    simp only [htrail, gt_iff_lt, hlt, if_true]
    refine h.after_element hc rfl h.buf hback ?_ ?_ ?_
    · have := h.output
      rw [render_cons, List.length_append] at this
      simp only
      omega
    · exact ⟨link slash below n ++ s, by rw [hs, render_cons, List.append_assoc]⟩
    · obtain ⟨names, k, hstack, hnames, hk, hdd⟩ := h.barrier
      cases names with
      | nil =>
        rw [List.nil_append] at hstack
        have hmem : n ∈ List.replicate k [dot, dot] := by rw [← hstack]; simp
        exact absurd (List.eq_of_mem_replicate hmem) hn.ne_up
      | cons n' names =>
        simp only [List.cons_append, List.cons.injEq] at hstack
        exact ⟨names, k, hstack.2, fun m hm => hnames m (by simp [hm]), hk, hdd⟩
  · -- at the root nothing happens
    have htrail : trailStep slash dot true ([], wet) [dot, dot] = ([], wet) := by
      simp [trailStep, hpush]
    have hdd := hnil 0 rfl
    simp only [htrail, gt_iff_lt, hdd, lt_irrefl, if_false, Bool.not_true, Bool.false_eq_true]
    refine h.after_element hc rfl h.buf h.output ?_ h.front ?_
    · simp only; omega
    · simpa [hdd] using h.barrier
  · -- below the start one more `..` is written
    have hdd := hnil k hk
    have hlt : ¬ st.dotdot < st.output := by omega
    simp only [gt_iff_lt, hlt, if_false, Bool.not_false, if_true]
    exact h.after_emitUp hc hk
  · exact absurd rfl hn.ne_up

/-- The branch for a name (lines 137–145). -/
theorem cleanName_rel {p path out : List UInt8} {length : ℕ} {rooted : Bool} {st : CleanState}
    {stack : List (List UInt8)} {wet c : List UInt8} (hp : p = path.take length)
    (hl : p.length = length) (h : Rel p out rooted st stack wet)
    (hc : element (p.drop st.r) = c) (hn : IsName slash dot c) :
    let st0 := if rooted && st.output != 1 || !rooted && st.output != 0 then st.emit slash else st
    let st' := copyElement path length (length - st0.r) st0
    Rel p out rooted st' (trailStep slash dot rooted (stack, wet) c).1
      (trailStep slash dot rooted (stack, wet) c).2 ∧ st'.r = st.r + c.length := by
  have hpush : push dot rooted stack c = c :: stack := push_name hn
  obtain ⟨hfit1, hfit2⟩ := h.fits_link hpush hc hn.ne_nil
  obtain ⟨hlen, hblit, hfront⟩ := h.write_push hpush hc hn.ne_nil
  obtain ⟨hb1, hb2, hb3⟩ := @emit_link_buf st stack c (by omega)
  have htrail : (trailStep slash dot rooted (stack, wet) c).1 = c :: stack := by
    simp [trailStep, hpush]
  have hst : (if rooted && st.output != 1 || !rooted && st.output != 0 then st.emit slash
      else st) = if stack = [] then st else st.emit slash := by
    have := h.needs_slash_iff
    by_cases hs : stack = []
    · rw [if_neg (by rw [this]; simp [hs]), if_pos hs]
    · rw [if_pos (this.mpr hs), if_neg hs]
  intro st0 st'
  set st1 : CleanState := if stack = [] then st else st.emit slash with hst1
  have hr1 : st1.r = st.r := by rw [hst1]; split_ifs <;> rfl
  have hcopy := copyElement_eq hp hl (length - st.r) st1 (by rw [hr1])
    (by rw [hr1, ← hl]; exact h.r_le) (by rw [hr1, hc, hb2, hb3]; omega)
  rw [hr1, hc] at hcopy
  have hst' : st' = { st1 with
      buf := blit st1.buf st1.output c
      output := st1.output + c.length
      r := st.r + c.length } := by
    rw [← hcopy, ← hr1, ← hst]
  rw [hst']
  refine ⟨h.after_element hc rfl ?_ ?_ ?_ (by rw [htrail]; exact hfront) ?_, rfl⟩
  · rw [← hblit, ← hb1]
  · rw [htrail, render_cons, List.length_append, ← h.output]
    exact hb2
  · simp only
    omega
  · obtain ⟨names, k, hstack, hnames, hk, hdd⟩ := h.barrier
    refine ⟨c :: names, k, by rw [htrail, hstack]; rfl, fun m hm => ?_, hk, ?_⟩
    · rcases List.mem_cons.mp hm with rfl | hm
      · exact hn
      · exact hnames m hm
    · rw [← hdd, hst1]
      split_ifs <;> rfl

/-- One round of the loop takes the element at the read index, or the `/`
there. -/
theorem cleanStep_rel {p path out : List UInt8} {length : ℕ} {rooted : Bool} {st : CleanState}
    {stack : List (List UInt8)} {wet : List UInt8} (hp : p = path.take length)
    (hl : p.length = length) (h : Rel p out rooted st stack wet) (hr : st.r < length) :
    ∃ c, (c = element (p.drop st.r)) ∧
      Rel p out rooted (cleanStep path length rooted st)
        (trailStep slash dot rooted (stack, wet) c).1
        (trailStep slash dot rooted (stack, wet) c).2 ∧
      st.r < (cleanStep path length rooted st).r ∧
      ((cleanStep path length rooted st).r = st.r + c.length ∨
        c = [] ∧ path.getD st.r 0 = slash ∧ (cleanStep path length rooted st).r = st.r + 1) := by
  refine ⟨_, rfl, ?_⟩
  obtain ⟨hs, he⟩ | ⟨hs, hne, hdot, hup⟩ := element_cases hp hl hr
  · -- a `/`
    have hstep : cleanStep path length rooted st = { st with r := st.r + 1 } := by
      rw [cleanStep, if_pos hs]
    rw [he, trailStep_nil, hstep]
    refine ⟨⟨h.buf, h.output, h.front, h.barrier, ⟨?_, fun _ _ => ?_⟩, ?_, h.fits⟩, ?_,
      Or.inr ⟨rfl, hs, rfl⟩⟩
    · have := h.room.1; simp only; omega
    · have := h.room.1; simp only; omega
    · simp only; omega
    · simp only; omega
  by_cases he1 : element (p.drop st.r) = [dot]
  · -- a `.` element
    have hstep : cleanStep path length rooted st = { st with r := st.r + 1 } := by
      rw [cleanStep, if_neg hs, if_pos (hdot.mpr he1)]
    have htrail : trailStep slash dot rooted (stack, wet) [dot] = (stack, wet) := by
      simp [trailStep, push_skip]
    rw [he1, htrail, hstep]
    refine ⟨h.after_element he1 rfl h.buf h.output ?_ h.front h.barrier, ?_, Or.inl rfl⟩
    · have := h.room.1; simp only; omega
    · simp only; omega
  by_cases he2 : element (p.drop st.r) = [dot, dot]
  · rw [he2, cleanStep, if_neg hs, if_neg (mt hdot.mp he1), if_pos ((hup he1).mpr he2)]
    have hr2 : ∀ st1 : CleanState, st1.r = st.r + 2 → st.r < st1.r := fun _ h => by omega
    refine ⟨cleanUp_rel h he2, hr2 _ ?_, Or.inl ?_⟩ <;>
      simp only <;> split_ifs <;> first | rfl | exact emitUp_r _
  · have hn : IsName slash dot (element (p.drop st.r)) :=
      ⟨hne, he1, he2, slash_notMem_element _⟩
    obtain ⟨hrel, hr'⟩ := cleanName_rel hp hl h rfl hn
    rw [cleanStep, if_neg hs, if_neg (mt hdot.mp he1), if_neg (mt (hup he1).mp he2)]
    dsimp only at hrel hr' ⊢
    have := List.length_pos_of_ne_nil hne
    exact ⟨hrel, by rw [hr']; omega, Or.inl hr'⟩

/-- The fold over the components that are still to be read is not changed by a
round of the loop. -/
theorem foldl_trailStep_cleanStep {p path out : List UInt8} {length : ℕ} {rooted : Bool}
    {st : CleanState} {stack : List (List UInt8)} {wet : List UInt8} (hp : p = path.take length)
    (hl : p.length = length) (h : Rel p out rooted st stack wet) (hr : st.r < length) :
    ∃ stack' wet', Rel p out rooted (cleanStep path length rooted st) stack' wet' ∧
      st.r < (cleanStep path length rooted st).r ∧
      ((p.drop (cleanStep path length rooted st).r).splitOn slash).foldl
        (trailStep slash dot rooted) (stack', wet') =
      ((p.drop st.r).splitOn slash).foldl (trailStep slash dot rooted) (stack, wet) := by
  obtain ⟨c, hc, hrel, hlt, hr'⟩ := cleanStep_rel hp hl h hr
  refine ⟨_, _, hrel, hlt, ?_⟩
  rcases hr' with hr' | ⟨rfl, hs, hr'⟩
  · rw [hr', foldl_splitOn_element _ (trailStep_nil rooted) _ (p.drop st.r), ← hc, List.drop_drop]
  · -- a `/` in front splits off an empty component
    have hdrop : p.drop st.r = slash :: p.drop (st.r + 1) := by
      have hlt' : st.r < p.length := by omega
      rw [List.drop_eq_getElem_cons hlt']
      congr 1
      have := getD_of_drop_eq_cons (i := 0) hp (List.drop_eq_getElem_cons hlt')
      rw [Nat.add_zero, hs] at this
      exact this.symm
    rw [hr', hdrop, List.splitOn_cons_eq_if_modifyHead]
    simp [trailStep_nil]

theorem cleanLoop_rel {p path out : List UInt8} {length : ℕ} {rooted : Bool}
    (hp : p = path.take length) (hl : p.length = length) :
    ∀ n (st : CleanState) stack wet, Rel p out rooted st stack wet → length - st.r ≤ n →
      Rel p out rooted (cleanLoop path length rooted n st)
        (((p.drop st.r).splitOn slash).foldl (trailStep slash dot rooted) (stack, wet)).1
        (((p.drop st.r).splitOn slash).foldl (trailStep slash dot rooted) (stack, wet)).2 := by
  have hend : ∀ (st : CleanState) stack wet, Rel p out rooted st stack wet → length ≤ st.r →
      Rel p out rooted st
        (((p.drop st.r).splitOn slash).foldl (trailStep slash dot rooted) (stack, wet)).1
        (((p.drop st.r).splitOn slash).foldl (trailStep slash dot rooted) (stack, wet)).2 := by
    intro st stack wet h hr
    have : p.drop st.r = [] := List.drop_eq_nil_of_le (by omega)
    simpa [this, trailStep_nil] using h
  intro n
  induction n with
  | zero =>
    intro st stack wet h hn
    exact hend st stack wet h (by omega)
  | succ n ih =>
    intro st stack wet h hn
    rw [cleanLoop]
    split_ifs with hr
    · obtain ⟨stack', wet', h', hlt, hfold⟩ := foldl_trailStep_cleanStep hp hl h hr
      rw [← hfold]
      exact ih _ _ _ h' (by omega)
    · exact hend st stack wet h (by omega)

theorem set_zero_eq_overlay {out : List UInt8} (h : 1 ≤ out.length) (c : UInt8) :
    out.set 0 c = overlay [c] out := by
  cases out with
  | nil => simp at h
  | cons d out => simp [overlay]

/-- The state in which the loop is entered (lines 101–113). -/
theorem rel_start {p path out : List UInt8} {length : ℕ} (hp : p = path.take length)
    (hl : p.length = length) (hpos : 0 < length) (hout : length ≤ out.length) :
    let rooted := path.getD 0 0 == slash
    let st : CleanState := { buf := out, output := 0, r := 0, dotdot := 0 }
    let st := if rooted then { st.emit slash with r := 1, dotdot := 1 } else st
    rooted = isRooted slash p ∧ Rel p out rooted st [] (render slash rooted []) ∧
      ((p.drop st.r).splitOn slash).foldl (trailStep slash dot rooted)
        ([], render slash rooted []) =
        trail slash dot rooted (p.splitOn slash) := by
  intro rooted st0 st
  obtain ⟨c, p', hcons⟩ := List.exists_cons_of_length_pos (l := p) (by omega)
  have hc : path.getD 0 0 = c := by
    have := @getD_of_drop_eq_cons p path length 0 0 c p' hp (by simpa using hcons)
    simpa using this
  have hroot : rooted = isRooted slash p := by
    simp only [rooted, isRooted, hcons, List.head?_cons, hc]
    by_cases h : c = slash <;> simp [h]
  refine ⟨hroot, ?_, ?_⟩
  · by_cases h : c = slash
    · have hr : rooted = true := by simp only [rooted, hc, h, beq_self_eq_true]
      simp only [st, st0, hr, if_true]
      refine ⟨?_, by simp [CleanState.emit], ⟨[], by simp⟩, ⟨[], 0, by simp⟩, ?_, by simp; omega,
        by omega⟩
      · simp only [CleanState.emit]
        rw [set_zero_eq_overlay (by omega)]
        simp
      · simp [CleanState.emit]
    · have hr : rooted = false := by simp only [rooted, hc, beq_eq_false_iff_ne]; exact h
      simp only [st, st0, hr, Bool.false_eq_true, if_false]
      exact ⟨by simp, by simp, ⟨[], by simp⟩, ⟨[], 0, by simp⟩, by simp, by simp, by omega⟩
  · by_cases h : c = slash
    · have hr : rooted = true := by simp only [rooted, hc, h, beq_self_eq_true]
      simp only [st, hr, if_true, hcons, h]
      rw [trail, List.splitOn_cons_eq_if_modifyHead]
      simp [trailStep_nil]
    · have hr : rooted = false := by simp only [rooted, hc, beq_eq_false_iff_ne]; exact h
      simp only [st, st0, hr, Bool.false_eq_true, if_false, List.drop_zero]
      rfl

/-- **`clean_path` in closed form.** The returned length is that of the lexical
normal form, and the buffer holds the residue of the path over what was there
before. -/
theorem cleanPath_eq {path : List UInt8} {length : ℕ} (out : List UInt8)
    (hlen : length ≤ path.length) (hout : max length 1 ≤ out.length) :
    cleanPath path length out =
      ((normalForm slash dot (path.take length)).length,
        overlay (residue slash dot (path.take length)) out) := by
  by_cases h0 : length = 0
  · subst h0
    simp [cleanPath, set_zero_eq_overlay (show 1 ≤ out.length by omega), normalForm, residue,
      isRooted, trail, resolve, push_skip, trailStep_nil]
  generalize hp : path.take length = p
  have hl : p.length = length := by rw [← hp, List.length_take]; omega
  have hout' : length ≤ out.length := by omega
  obtain ⟨hroot, hrel, hfold⟩ := rel_start hp.symm hl (by omega) hout'
  have hend := cleanLoop_rel hp.symm hl length _ _ _ hrel (by omega)
  rw [hfold] at hend
  rw [cleanPath, if_neg h0]
  dsimp only at hrel hfold hend ⊢
  rw [hroot] at hend ⊢
  generalize cleanLoop path length (isRooted slash p) length _ = st at hend ⊢
  have hfst := @trail_fst _ _ slash dot (isRooted slash p) (p.splitOn slash)
  have hzero : st.output = 0 ↔
      render slash (isRooted slash p) (resolve dot (isRooted slash p) (p.splitOn slash)) = [] := by
    rw [hend.output, hfst, List.length_eq_zero_iff]
  rw [residue, normalForm, hfst]
  split_ifs with h1 h2 h2
  · refine Prod.ext ?_ ?_
    · simp [CleanState.emit, h1]
    · simp only [CleanState.emit, h1]
      rw [hend.buf, set_zero_eq_overlay (by rw [length_overlay]; omega), overlay_assoc]
  · exact absurd (hzero.mp h1) h2
  · exact absurd (hzero.mpr h2) h1
  · exact Prod.ext (by rw [← hfst]; exact hend.output) hend.buf

/-- The first bytes of the residue are the normal form. -/
theorem residue_eq (p : List UInt8) :
    ∃ s, residue slash dot p = normalForm slash dot p ++ s ∧ TailFree slash dot s := by
  obtain ⟨s, hs, htf⟩ := trail_spec dot (isRooted slash p)
    fun c hc => sep_notMem_of_mem_splitOn hc
  rw [residue, normalForm, trail_fst]
  split_ifs with h
  · refine ⟨s.drop 1, ?_, htf.drop 1⟩
    rw [hs, h, List.nil_append]
    rfl
  · exact ⟨s, hs, htf⟩

/-- The first `length` bytes `clean_path` leaves are the lexical normal form. -/
theorem cleanPath_take {path : List UInt8} {length : ℕ} (out : List UInt8)
    (hlen : length ≤ path.length) (hout : max length 1 ≤ out.length) :
    (cleanPath path length out).2.take (cleanPath path length out).1 =
      normalForm slash dot (path.take length) := by
  obtain ⟨s, hs, -⟩ := residue_eq (path.take length)
  rw [cleanPath_eq out hlen hout, hs]
  simp only [overlay, List.append_assoc]
  rw [List.take_left' rfl]

/-- The bytes that `clean_path` says it has written. -/
def cleaned (path : List UInt8) (length : ℕ) (out : List UInt8) : List UInt8 :=
  (cleanPath path length out).2.take (cleanPath path length out).1

theorem cleaned_eq (p out : List UInt8) (hout : max p.length 1 ≤ out.length) :
    (cleanPath p p.length out).1 = (normalForm slash dot p).length ∧
    cleaned p p.length out = normalForm slash dot p := by
  have htake := cleanPath_take out (Nat.le_refl p.length) hout
  rw [List.take_length] at htake
  refine ⟨?_, htake⟩
  rw [cleanPath_eq out (Nat.le_refl _) hout, List.take_length]

/-- **`clean_path` computes the lexical normal form**, whatever stands behind the path and
in the buffer. -/
theorem cleanPath_normalForm (p tail out : List UInt8)
    (hout : max p.length 1 ≤ out.length) :
    (cleanPath (p ++ tail) p.length out).1 = (normalForm slash dot p).length ∧
    cleaned (p ++ tail) p.length out = normalForm slash dot p := by
  have hlen : p.length ≤ (p ++ tail).length := by
    rw [List.length_append]
    exact Nat.le_add_right _ _
  have htake := cleanPath_take out hlen hout
  rw [List.take_left] at htake
  refine ⟨?_, htake⟩
  rw [cleanPath_eq out hlen hout, List.take_left]

/-- `a/../../b` leads up. -/
theorem cleanPath_normalForm_up :
    (cleanPath (ascii "a/../../b?c") 9 (List.replicate 16 0)).1 = 4 ∧
    cleaned (ascii "a/../../b?c") 9 (List.replicate 16 0) = ascii "../b" := by
  have h := cleanPath_normalForm (ascii "a/../../b") (ascii "?c") (List.replicate 16 0)
    (by decide)
  have hnormal : normalForm slash dot (ascii "a/../../b") = ascii "../b" := by decide
  rw [hnormal] at h
  exact h

/-! ## Lengths and contents -/

theorem length_copyElement (path : List UInt8) (length : ℕ) :
    ∀ n (st : CleanState), (copyElement path length n st).buf.length = st.buf.length := by
  intro n
  induction n with
  | zero => intro st; rfl
  | succ n ih =>
    intro st
    rw [copyElement]
    split_ifs
    · rw [ih]
      simp [CleanState.emit]
    · rfl

theorem length_emitUp (st : CleanState) : (emitUp st).buf.length = st.buf.length := by
  unfold emitUp
  split_ifs <;> simp [CleanState.emit]

theorem length_cleanStep (path : List UInt8) (length : ℕ) (rooted : Bool) (st : CleanState) :
    (cleanStep path length rooted st).buf.length = st.buf.length := by
  unfold cleanStep
  dsimp only
  split_ifs <;> simp [length_copyElement, length_emitUp, CleanState.emit]

theorem length_cleanLoop (path : List UInt8) (length : ℕ) (rooted : Bool) :
    ∀ n (st : CleanState), (cleanLoop path length rooted n st).buf.length = st.buf.length := by
  intro n
  induction n with
  | zero => intro st; rfl
  | succ n ih =>
    intro st
    rw [cleanLoop]
    split_ifs
    · rw [ih, length_cleanStep]
    · rfl

theorem length_cleanPath (path : List UInt8) (length : ℕ) (out : List UInt8) :
    (cleanPath path length out).2.length = out.length := by
  unfold cleanPath
  dsimp only
  split_ifs <;> simp [length_cleanLoop, CleanState.emit]

/-- `clean_path` writes no further than the length of its path, and one byte for
the empty one. -/
theorem length_residue_le (p : List UInt8) : (residue slash dot p).length ≤ max p.length 1 := by
  have h := length_cleanPath p p.length (List.replicate (max p.length 1) 0)
  rw [cleanPath_eq _ le_rfl (by simp), List.take_length, length_overlay, List.length_replicate] at h
  omega

theorem length_normalForm_le (p : List UInt8) :
    (normalForm slash dot p).length ≤ max p.length 1 := by
  obtain ⟨s, hs, -⟩ := residue_eq p
  have h := length_residue_le p
  rw [hs, List.length_append] at h
  omega

/-- **Cleaning composes.** A path that follows another one gives the same bytes behind what
`clean_path` makes of the first one, and cleaning twice is cleaning once, whatever is in the
buffers. -/
theorem cleanPath_append {p : List UInt8} (hp : p ≠ []) (q out out₁ out₂ out₃ : List UInt8)
    (h : (p ++ slash :: q).length ≤ out.length)
    (h₁ : (p ++ slash :: q).length ≤ out₁.length) (h₂ : (p ++ slash :: q).length ≤ out₂.length)
    (h₃ : (p ++ slash :: q).length ≤ out₃.length) :
    let c := cleaned p p.length out
    (cleanPath (p ++ slash :: q) (p ++ slash :: q).length out₁).1 =
      (cleanPath (c ++ slash :: q) (c ++ slash :: q).length out₂).1 ∧
    cleaned (p ++ slash :: q) (p ++ slash :: q).length out₁ =
      cleaned (c ++ slash :: q) (c ++ slash :: q).length out₂ ∧
    (cleanPath c c.length out₃).1 = (cleanPath p p.length out).1 ∧
    cleaned c c.length out₃ = c := by
  intro c
  have hpos := List.length_pos_of_ne_nil hp
  simp only [List.length_append, List.length_cons] at h h₁ h₂ h₃
  obtain ⟨hlen, hc⟩ := cleaned_eq p out (by omega)
  have hshort : c.length ≤ p.length := by
    have := length_normalForm_le p
    show (cleaned p p.length out).length ≤ p.length
    rw [hc]
    omega
  obtain ⟨hlen₁, heq₁⟩ := cleaned_eq (p ++ slash :: q) out₁
    (by simp only [List.length_append, List.length_cons]; omega)
  obtain ⟨hlen₂, heq₂⟩ := cleaned_eq (c ++ slash :: q) out₂
    (by simp only [List.length_append, List.length_cons]; omega)
  obtain ⟨hlen₃, heq₃⟩ := cleaned_eq c out₃ (by omega)
  have happend : normalForm slash dot (c ++ slash :: q) =
      normalForm slash dot (p ++ slash :: q) := by
    show normalForm slash dot (cleaned p p.length out ++ slash :: q) = _
    rw [hc]
    exact normalForm_append (by decide) hp q
  have htwice : normalForm slash dot c = c := by
    show normalForm slash dot (cleaned p p.length out) = cleaned p p.length out
    rw [hc]
    exact normalForm_normalForm (by decide) p
  refine ⟨?_, ?_, ?_, ?_⟩
  · rw [hlen₁, hlen₂, happend]
  · rw [heq₁, heq₂, happend]
  · rw [hlen₃, hlen, htwice, ← hc]
  · rw [heq₃, htwice]

/-- `..` behind the seam undoes an element in front of it. -/
theorem cleanPath_append_up :
    cleaned (ascii "../a/b/../..") 12 (List.replicate 16 0) =
      cleaned (ascii "../a/..") 7 (List.replicate 16 1) ∧
    cleaned (ascii "../a") 4 (List.replicate 16 1) = ascii "../a" := by
  have hc : cleaned (ascii "../a/b/..") 9 (List.replicate 16 0) = ascii "../a" := by
    decide
  have h := cleanPath_append (p := ascii "../a/b/..") (by decide) (ascii "..")
    (List.replicate 16 0) (List.replicate 16 0) (List.replicate 16 1) (List.replicate 16 1)
    (by decide) (by decide) (by decide) (by decide)
  have hjoin : ascii "../a/b/.." ++ slash :: ascii ".." = ascii "../a/b/../.." := by
    decide
  have hjoin' : ascii "../a" ++ slash :: ascii ".." = ascii "../a/.." := by decide
  have hlen : (ascii "../a/b/..").length = 9 ∧ (ascii "../a/b/../..").length = 12 ∧
      (ascii "../a/..").length = 7 ∧ (ascii "../a").length = 4 := by decide
  dsimp only at h
  rw [hlen.1, hc, hjoin, hjoin', hlen.2.1, hlen.2.2.1, hlen.2.2.2] at h
  exact ⟨h.2.1, h.2.2.2⟩

/-- Every byte `clean_path` writes is a `/`, a `.` or a byte of its path. -/
theorem mem_residue {p : List UInt8} {x : UInt8} (hx : x ∈ residue slash dot p) :
    x = slash ∨ x = dot ∨ x ∈ p := by
  have htrail : ∀ y, y ∈ (trail slash dot (isRooted slash p) (p.splitOn slash)).2 →
      y = slash ∨ y ∈ p := by
    intro y hy
    rcases mem_trail hy with h | ⟨c, hc, h⟩
    · exact Or.inl h
    · exact Or.inr (mem_of_mem_splitOn hc y h)
  rw [residue] at hx
  split_ifs at hx
  · rcases mem_of_mem_overlay hx with h | h
    · exact Or.inr (Or.inl (by simpa using h))
    · rcases htrail x h with h | h
      · exact Or.inl h
      · exact Or.inr (Or.inr h)
  · rcases htrail x hx with h | h
    · exact Or.inl h
    · exact Or.inr (Or.inr h)

/-- A normal form other than `/` does not end in `/`. -/
theorem getLast?_normalForm {p : List UInt8} (h : normalForm slash dot p ≠ [slash]) :
    ∃ c, (normalForm slash dot p).getLast? = some c ∧ c ≠ slash := by
  rw [normalForm] at h ⊢
  have hstack : IsStack slash dot (isRooted slash p)
      (resolve dot (isRooted slash p) (p.splitOn slash)) :=
    isStack_resolve fun c hc => sep_notMem_of_mem_splitOn hc
  generalize resolve dot (isRooted slash p) (p.splitOn slash) = stack at h hstack
  cases stack with
  | nil =>
    rw [render_nil] at h ⊢
    split_ifs at h ⊢ <;> simp_all
  | cons c below =>
    -- the last component is a name or `..`, so it is not empty
    have hsep : slash ∉ c := hstack.sep_notMem (by decide) c (by simp)
    have hne : c ≠ [] := hstack.ne_nil c (by simp)
    rw [if_neg (hstack.render_ne_nil (by simp)), render_cons, link]
    refine ⟨c.getLast hne, ?_, fun hlast => hsep (hlast ▸ List.getLast_mem hne)⟩
    rw [List.getLast?_append_of_ne_nil _ (by simp [hne]), List.getLast?_append_of_ne_nil _ hne,
      List.getLast?_eq_some_getLast hne]

end Yotta.Http
