import Mathlib.Data.List.Infix
import Yotta.Lib.Bytes

/-!
# Lexical normal forms of paths

A path is a list over an alphabet with a separator and a dot. Its components
are folded over a stack (top first): the empty component and `.` are skipped,
`..` takes the topmost component away, everything else is pushed.

* `normalForm`: the rendered stack, with `.` for an empty outcome.
* `trail`: what is left in a buffer into which the stack is rendered again
  after each push, and which is never cleared. `trail_spec` says that the
  rendering of the final stack is a front of the trail and that no component
  that begins behind it is `..`; `trail_getElem?` says which rendering each
  leftover element comes from.
* `normalForm_append`: a path behind another one may be resolved behind its normal form.
* `staysInside`: read from the left, a path never goes above its start.
-/

namespace Yotta.Lexical

open Yotta.Bytes

variable {α : Type*}

/-- The stack joined by the separator, behind a separator for a rooted path. -/
def render (sep : α) (rooted : Bool) (stack : List (List α)) : List α :=
  (if rooted then [sep] else []) ++ [sep].intercalate stack.reverse

section Definitions

variable [DecidableEq α] (sep dot : α) (rooted : Bool)

/-- One component on the stack. -/
def push (stack : List (List α)) (c : List α) : List (List α) :=
  if c = [] ∨ c = [dot] then stack
  else if c = [dot, dot] then
    match stack with
    | [] => if rooted then [] else [c]
    | top :: below => if top = [dot, dot] then c :: stack else below
  else c :: stack

/-- The stack after the components `cs`. -/
def resolve (cs : List (List α)) : List (List α) := cs.foldl (push dot rooted) []

/-- `p` starts with the separator. -/
def isRooted (p : List α) : Bool := p.head? = some sep

/-- The lexical normal form of `p`. -/
def normalForm (p : List α) : List α :=
  let out := render sep (isRooted sep p) (resolve dot (isRooted sep p) (p.splitOn sep))
  if out = [] then [dot] else out

/-- One component on the stack, and the text in the buffer after it. -/
def trailStep (s : List (List α) × List α) (c : List α) : List (List α) × List α :=
  let stack := push dot rooted s.1 c
  (stack, if s.1.length < stack.length then overlay (render sep rooted stack) s.2 else s.2)

/-- The stack and the text in the buffer after the components `cs`. -/
def trail (cs : List (List α)) : List (List α) × List α :=
  cs.foldl (trailStep sep dot rooted) ([], render sep rooted [])

/-- The text in the buffer once `p` has been resolved in it and an empty outcome
replaced by `.`. -/
def residue (p : List α) : List α :=
  let s := trail sep dot (isRooted sep p) (p.splitOn sep)
  if render sep (isRooted sep p) s.1 = [] then overlay [dot] s.2 else s.2

/-- Element `i` of the normal form of the longest run of leading components of
`cs` whose normal form has one. -/
def lastAt (cs : List (List α)) (i : ℕ) : Option α :=
  cs.inits.reverse.findSome? fun a => (render sep rooted (resolve dot rooted a))[i]?

/-- The depth reached by reading components from the left, starting at depth
`d`; `none` when it goes below zero on the way. -/
def walk : ℕ → List (List α) → Option ℕ
  | d, [] => some d
  | d, c :: cs =>
    if c = [] ∨ c = [dot] then walk d cs
    else if c = [dot, dot] then
      match d with
      | 0 => none
      | d + 1 => walk d cs
    else walk (d + 1) cs

/-- Reading `p` from the left never leaves the directory it starts in. -/
def staysInside (p : List α) : Bool := (walk dot 0 (p.splitOn sep)).isSome

end Definitions

/-! ## Components of a concatenation -/

section Split

variable [DecidableEq α] {sep : α}

/-- The last component of the left part and the first one of the right part
become one. -/
theorem splitOn_append {a b last h : List α} {init t : List (List α)}
    (ha : a.splitOn sep = init ++ [last]) (hb : b.splitOn sep = h :: t) :
    (a ++ b).splitOn sep = init ++ (last ++ h) :: t := by
  induction a generalizing init last with
  | nil =>
    have hnil : ([[]] : List (List α)) = init ++ [last] := by simpa using ha
    obtain ⟨rfl, hlast⟩ := List.append_eq_singleton_iff.mp hnil.symm |>.resolve_right (by simp)
    obtain rfl : last = [] := by simpa using hlast
    simpa using hb
  | cons x a ih =>
    rw [List.splitOn_cons_eq_if_modifyHead] at ha
    rw [List.cons_append, List.splitOn_cons_eq_if_modifyHead]
    by_cases hx : x = sep
    · simp only [hx, beq_self_eq_true, if_true] at ha ⊢
      cases init with
      | nil => simp at ha
      | cons i init =>
        simp only [List.cons_append, List.cons.injEq] at ha
        rw [ih ha.2, List.cons_append, ← ha.1]
    · simp only [beq_iff_eq, hx, if_false] at ha ⊢
      cases hs : a.splitOn sep with
      | nil => simp at hs
      | cons c cs =>
        rw [hs, List.modifyHead_cons] at ha
        cases init with
        | nil =>
          simp only [List.nil_append, List.cons.injEq] at ha
          obtain ⟨rfl, rfl⟩ := ha
          rw [@ih _ [] hs, List.nil_append, List.modifyHead_cons]
          rfl
        | cons i init =>
          simp only [List.cons_append, List.cons.injEq] at ha
          obtain ⟨rfl, rfl⟩ := ha
          rw [@ih _ (c :: init) hs]
          rfl

variable (sep) in
theorem exists_splitOn_eq_cons (p : List α) : ∃ h t, p.splitOn sep = h :: t :=
  List.exists_cons_of_ne_nil (List.splitOn_ne_nil sep p)

variable (sep) in
theorem exists_splitOn_eq_concat (p : List α) : ∃ init last, p.splitOn sep = init ++ [last] := by
  have h := List.splitOn_ne_nil sep p
  exact ⟨_, _, (List.dropLast_append_getLast h).symm⟩

theorem sep_notMem_of_mem_splitOn {p c : List α} (hc : c ∈ p.splitOn sep) : sep ∉ c := by
  induction p generalizing c with
  | nil => simp at hc; simp [hc]
  | cons x p ih =>
    rw [List.splitOn_cons_eq_if_modifyHead] at hc
    obtain ⟨h, t, hs⟩ := exists_splitOn_eq_cons sep p
    by_cases hx : x = sep
    · simp only [hx, beq_self_eq_true, if_true, List.mem_cons] at hc
      rcases hc with rfl | hc
      · simp
      · exact ih hc
    · simp only [beq_iff_eq, hx, if_false, hs, List.modifyHead_cons, List.mem_cons] at hc
      rcases hc with rfl | hc
      · have := ih (c := h) (by simp [hs])
        simp [this, Ne.symm hx]
      · exact ih (by simp [hs, hc])

theorem mem_of_mem_splitOn {p c : List α} (hc : c ∈ p.splitOn sep) : ∀ x ∈ c, x ∈ p := by
  intro x hx
  have hjoin : [sep].intercalate (p.splitOn sep) = p := List.intercalate_splitOn sep
  rw [← hjoin]
  generalize p.splitOn sep = cs at hc
  induction cs with
  | nil => simp at hc
  | cons d cs ih =>
    cases cs with
    | nil => simp at hc; simpa [← hc] using hx
    | cons e cs =>
      rw [List.intercalate_cons_cons]
      rcases List.mem_cons.mp hc with rfl | hc
      · simp [hx]
      · simp [ih hc]

end Split

/-! ## Rendering -/

section Render

variable {sep dot : α} {rooted : Bool}

theorem intercalate_concat (l : List (List α)) (c : List α) :
    [sep].intercalate (l ++ [c]) = [sep].intercalate l ++ (if l = [] then [] else [sep]) ++ c := by
  induction l with
  | nil => simp
  | cons d l ih =>
    cases l with
    | nil => simp
    | cons e l =>
      rw [List.cons_append, List.cons_append, List.intercalate_cons_cons,
        List.intercalate_cons_cons, ← List.cons_append, ih]
      simp [List.append_assoc]

/-- What rendering one more component appends. -/
def link (sep : α) (stack : List (List α)) (c : List α) : List α :=
  (if stack = [] then [] else [sep]) ++ c

theorem render_cons (c : List α) (stack : List (List α)) :
    render sep rooted (c :: stack) = render sep rooted stack ++ link sep stack c := by
  simp [render, link, intercalate_concat, List.append_assoc]

@[simp] theorem render_nil : render sep rooted [] = if rooted then [sep] else [] := by
  simp [render]

theorem mem_render {stack : List (List α)} {x : α} (hx : x ∈ render sep rooted stack) :
    x = sep ∨ ∃ c ∈ stack, x ∈ c := by
  induction stack with
  | nil =>
    rw [render_nil] at hx
    split_ifs at hx <;> simp_all
  | cons c stack ih =>
    rw [render_cons, link, List.mem_append, List.mem_append] at hx
    rcases hx with hx | hx | hx
    · rcases ih hx with h | ⟨d, hd, h⟩
      · exact Or.inl h
      · exact Or.inr ⟨d, by simp [hd], h⟩
    · split_ifs at hx <;> simp_all
    · exact Or.inr ⟨c, by simp, hx⟩

variable [DecidableEq α]

theorem splitOn_link (stack : List (List α)) {c : List α} (hc : sep ∉ c) :
    (link sep stack c).splitOn sep = (if stack = [] then [] else [[]]) ++ [c] := by
  unfold link
  split_ifs with h
  · simp [List.splitOn_eq_singleton hc]
  · simp [List.splitOn_cons_eq_if_modifyHead, List.splitOn_eq_singleton hc]

/-- The components of a rendered stack: its members from the bottom, behind an
empty one for a rooted path. -/
theorem splitOn_render {stack : List (List α)} (hne : stack ≠ [])
    (hs : ∀ c ∈ stack, sep ∉ c) :
    (render sep rooted stack).splitOn sep = (if rooted then [[]] else []) ++ stack.reverse := by
  have hjoin : ([sep].intercalate stack.reverse).splitOn sep = stack.reverse :=
    List.splitOn_intercalate sep (by simpa using hs) (by simpa using hne)
  cases rooted with
  | true => simp [render, List.splitOn_cons_eq_if_modifyHead, hjoin]
  | false => simpa [render] using hjoin

end Render

/-! ## The stack -/

section Stack

variable {sep dot : α} {rooted : Bool}

/-- A component that names an entry of a directory. -/
structure IsName (sep dot : α) (c : List α) : Prop where
  ne_nil : c ≠ []
  ne_dot : c ≠ [dot]
  ne_up : c ≠ [dot, dot]
  sep_notMem : sep ∉ c

/-- A name stays different from `..` whatever is glued to it. -/
theorem IsName.append_ne_up {n : List α} (hn : IsName sep dot n) (f : List α) :
    n ++ f ≠ [dot, dot] := by
  intro h
  obtain ⟨h0, h1, h2, -⟩ := hn
  match n, f, h with
  | [], _, _ => exact h0 rfl
  | [a], _, h => exact h1 (by simp at h; simp [h.1])
  | [a, b], f, h => exact h2 (by simp at h; simp [h.1, h.2.1])
  | a :: b :: c :: n, f, h => simp at h

/-- Names on top of leading `..` components, of which a rooted path has none. -/
def IsStack (sep dot : α) (rooted : Bool) (stack : List (List α)) : Prop :=
  ∃ names k, stack = names ++ List.replicate k [dot, dot] ∧ (∀ n ∈ names, IsName sep dot n) ∧
    (rooted = true → k = 0)

theorem isStack_nil : IsStack sep dot rooted [] := ⟨[], 0, rfl, by simp, fun _ => rfl⟩

theorem IsStack.sep_notMem (hsd : sep ≠ dot) {stack : List (List α)}
    (hs : IsStack sep dot rooted stack) : ∀ c ∈ stack, sep ∉ c := by
  obtain ⟨names, k, rfl, hnames, -⟩ := hs
  intro c hc
  rcases List.mem_append.mp hc with hc | hc
  · exact (hnames c hc).sep_notMem
  · rw [List.eq_of_mem_replicate hc]
    simp [hsd]

theorem IsStack.ne_nil {stack : List (List α)} (hs : IsStack sep dot rooted stack) :
    ∀ c ∈ stack, c ≠ [] := by
  obtain ⟨names, k, rfl, hnames, -⟩ := hs
  intro c hc
  rcases List.mem_append.mp hc with hc | hc
  · exact (hnames c hc).ne_nil
  · rw [List.eq_of_mem_replicate hc]
    simp

theorem IsStack.render_ne_nil {stack : List (List α)} (hs : IsStack sep dot rooted stack)
    (hne : stack ≠ []) : render sep rooted stack ≠ [] := by
  cases stack with
  | nil => exact absurd rfl hne
  | cons c below =>
    rw [render_cons, link]
    simp [hs.ne_nil c (by simp)]

variable [DecidableEq α]

theorem push_skip {stack : List (List α)} {c : List α} (hc : c = [] ∨ c = [dot]) :
    push dot rooted stack c = stack := by simp [push, hc]

theorem push_name {stack : List (List α)} {c : List α} (hc : IsName sep dot c) :
    push dot rooted stack c = c :: stack := by
  simp [push, hc.ne_nil, hc.ne_dot, hc.ne_up]

theorem push_up_name {below : List (List α)} {n : List α} (hn : IsName sep dot n) :
    push dot rooted (n :: below) [dot, dot] = below := by
  simp [push, hn.ne_up]

theorem push_up_rooted : push dot true [] [dot, dot] = [] := by simp [push]

theorem push_up_bottom (k : ℕ) :
    push dot false (List.replicate k [dot, dot]) [dot, dot] =
      List.replicate (k + 1) [dot, dot] := by
  cases k <;> simp [push, List.replicate_succ]

/-- Everything one component can do to a stack. -/
theorem push_cases {stack : List (List α)} {c : List α} (hs : IsStack sep dot rooted stack)
    (hc : sep ∉ c) :
    ((c = [] ∨ c = [dot]) ∧ push dot rooted stack c = stack) ∨
    (c = [dot, dot] ∧ ∃ n below, stack = n :: below ∧ IsName sep dot n ∧
      IsStack sep dot rooted below ∧ push dot rooted stack c = below) ∨
    (c = [dot, dot] ∧ rooted = true ∧ stack = [] ∧ push dot rooted stack c = []) ∨
    (c = [dot, dot] ∧ rooted = false ∧ ∃ k, stack = List.replicate k [dot, dot] ∧
      push dot rooted stack c = c :: stack) ∨
    (IsName sep dot c ∧ push dot rooted stack c = c :: stack) := by
  by_cases h1 : c = [] ∨ c = [dot]
  · exact Or.inl ⟨h1, push_skip h1⟩
  by_cases h2 : c = [dot, dot]
  · subst h2
    obtain ⟨names, k, rfl, hnames, hk⟩ := hs
    cases names with
    | cons n names =>
      have hn := hnames n (by simp)
      exact Or.inr (Or.inl ⟨rfl, n, _, rfl, hn,
        ⟨names, k, rfl, fun m hm => hnames m (by simp [hm]), hk⟩, push_up_name hn⟩)
    | nil =>
      cases rooted with
      | true =>
        obtain rfl := hk rfl
        exact Or.inr (Or.inr (Or.inl ⟨rfl, rfl, rfl, push_up_rooted⟩))
      | false =>
        refine Or.inr (Or.inr (Or.inr (Or.inl ⟨rfl, rfl, k, rfl, ?_⟩)))
        rw [List.nil_append, push_up_bottom, List.replicate_succ]
  · have hn : IsName sep dot c := ⟨fun h => h1 (Or.inl h), fun h => h1 (Or.inr h), h2, hc⟩
    exact Or.inr (Or.inr (Or.inr (Or.inr ⟨hn, push_name hn⟩)))

theorem isStack_push {stack : List (List α)} {c : List α} (hs : IsStack sep dot rooted stack)
    (hc : sep ∉ c) : IsStack sep dot rooted (push dot rooted stack c) := by
  obtain ⟨-, h⟩ | ⟨-, n, below, -, -, hb, h⟩ | ⟨-, -, -, h⟩ | ⟨rfl, hr, k, rfl, h⟩ | ⟨hn, h⟩ :=
    push_cases hs hc
  · rwa [h]
  · rwa [h]
  · rw [h]; exact isStack_nil
  · rw [h]
    exact ⟨[], k + 1, by rw [List.replicate_succ]; rfl, by simp, by simp [hr]⟩
  · obtain ⟨names, k, rfl, hnames, hk⟩ := hs
    rw [h]
    refine ⟨c :: names, k, rfl, fun m hm => ?_, hk⟩
    rcases List.mem_cons.mp hm with rfl | hm
    · exact hn
    · exact hnames m hm

theorem isStack_resolve {cs : List (List α)} (hcs : ∀ c ∈ cs, sep ∉ c) :
    IsStack sep dot rooted (resolve dot rooted cs) := by
  induction cs using List.reverseRecOn with
  | nil => exact isStack_nil
  | append_singleton cs c ih =>
    rw [resolve, List.foldl_append]
    exact isStack_push (ih fun d hd => hcs d (by simp [hd])) (hcs c (by simp))

theorem mem_push {stack : List (List α)} {c d : List α} (hd : d ∈ push dot rooted stack c) :
    d ∈ stack ∨ d = c := by
  unfold push at hd
  split at hd
  · exact Or.inl hd
  split at hd
  · cases stack with
    | nil =>
      cases rooted
      · simpa using hd
      · simp at hd
    | cons top below =>
      simp only at hd
      split at hd
      · exact (List.mem_cons.mp hd).symm
      · exact Or.inl (by simp [hd])
  · exact (List.mem_cons.mp hd).symm

theorem mem_resolve {cs : List (List α)} {d : List α} (hd : d ∈ resolve dot rooted cs) :
    d ∈ cs := by
  induction cs using List.reverseRecOn with
  | nil => simp [resolve] at hd
  | append_singleton cs c ih =>
    rw [resolve, List.foldl_append] at hd
    rcases mem_push hd with h | rfl
    · simp [ih h]
    · simp

end Stack

/-! ## The trail -/

section Trail

variable [DecidableEq α] {sep dot : α} {rooted : Bool}

/-- No component that begins inside `s` is `..`. -/
def TailFree (sep dot : α) (s : List α) : Prop := ∀ c ∈ (s.splitOn sep).tail, c ≠ [dot, dot]

theorem TailFree.of_append {a b : List α} (h : TailFree sep dot (a ++ b)) :
    TailFree sep dot b := by
  obtain ⟨init, last, ha⟩ := exists_splitOn_eq_concat sep a
  obtain ⟨f, t, hb⟩ := exists_splitOn_eq_cons sep b
  intro c hc
  rw [hb, List.tail_cons] at hc
  apply h c
  rw [splitOn_append ha hb]
  cases init <;> simp [hc]

theorem TailFree.drop {s : List α} (h : TailFree sep dot s) (n : ℕ) :
    TailFree sep dot (s.drop n) := by
  rw [← List.take_append_drop n s] at h
  exact h.of_append

/-- A rendered name in front of a tail-free text. -/
theorem TailFree.link_append {n s : List α} (hn : IsName sep dot n) (h : TailFree sep dot s)
    (stack : List (List α)) : TailFree sep dot (link sep stack n ++ s) := by
  obtain ⟨f, t, hb⟩ := exists_splitOn_eq_cons sep s
  have hl := splitOn_link stack hn.sep_notMem
  intro c hc
  rw [splitOn_append hl hb] at hc
  have ht : ∀ d ∈ t, d ≠ [dot, dot] := fun d hd => h d (by rw [hb]; exact hd)
  split_ifs at hc
  · exact ht c (by simpa using hc)
  · rcases List.mem_cons.mp (by simpa using hc) with rfl | hc
    · exact hn.append_ne_up f
    · exact ht c hc

theorem trail_concat (cs : List (List α)) (c : List α) :
    trail sep dot rooted (cs ++ [c]) = trailStep sep dot rooted (trail sep dot rooted cs) c := by
  simp [trail, List.foldl_append]

theorem resolve_concat (cs : List (List α)) (c : List α) :
    resolve dot rooted (cs ++ [c]) = push dot rooted (resolve dot rooted cs) c := by
  simp [resolve, List.foldl_append]

theorem trail_fst (cs : List (List α)) :
    (trail sep dot rooted cs).1 = resolve dot rooted cs := by
  induction cs using List.reverseRecOn with
  | nil => rfl
  | append_singleton cs c ih => rw [trail_concat, resolve_concat, trailStep, ih]

/-- The text after a step, as the rendered stack and what is left behind it. -/
theorem trailStep_spec {stack : List (List α)} {s c : List α}
    (hs : IsStack sep dot rooted stack) (hc : sep ∉ c) (htf : TailFree sep dot s) :
    ∃ s', (trailStep sep dot rooted (stack, render sep rooted stack ++ s) c).2 =
      render sep rooted (push dot rooted stack c) ++ s' ∧ TailFree sep dot s' := by
  have hpush : push dot rooted stack c = c :: stack →
      ∃ s', (trailStep sep dot rooted (stack, render sep rooted stack ++ s) c).2 =
        render sep rooted (push dot rooted stack c) ++ s' ∧ TailFree sep dot s' := by
    intro h
    refine ⟨s.drop (link sep stack c).length, ?_, htf.drop _⟩
    simp [trailStep, h, overlay, render_cons, List.drop_append]
  obtain ⟨-, h⟩ | ⟨-, n, below, rfl, hn, -, h⟩ | ⟨-, rfl, rfl, h⟩ | ⟨-, -, -, -, h⟩ | ⟨-, h⟩ :=
    push_cases hs hc
  · exact ⟨s, by simp [trailStep, h], htf⟩
  · refine ⟨link sep below n ++ s, ?_, htf.link_append hn below⟩
    rw [trailStep, h, if_neg (by simp), render_cons, List.append_assoc]
  · exact ⟨s, by simp [trailStep, h], htf⟩
  · exact hpush h
  · exact hpush h

variable (dot rooted) in
/-- The rendering of the final stack is a front of the trail, and no component
that begins behind it is `..`. -/
theorem trail_spec {cs : List (List α)} (hcs : ∀ c ∈ cs, sep ∉ c) :
    ∃ s, (trail sep dot rooted cs).2 = render sep rooted (resolve dot rooted cs) ++ s ∧
      TailFree sep dot s := by
  induction cs using List.reverseRecOn with
  | nil => exact ⟨[], by simp [trail, resolve], by simp [TailFree]⟩
  | append_singleton cs c ih =>
    have hcs' : ∀ d ∈ cs, sep ∉ d := fun d hd => hcs d (by simp [hd])
    obtain ⟨s, hs, htf⟩ := ih hcs'
    obtain ⟨s', hs', htf'⟩ :=
      trailStep_spec (isStack_resolve hcs') (hcs c (by simp)) htf
    refine ⟨s', ?_, htf'⟩
    have hpair : trail sep dot rooted cs =
        (resolve dot rooted cs, render sep rooted (resolve dot rooted cs) ++ s) :=
      Prod.ext (trail_fst cs) hs
    rw [trail_concat, hpair, hs', resolve_concat]

/-- Every element of the trail is a separator or part of a component. -/
theorem mem_trail {cs : List (List α)} {x : α} (hx : x ∈ (trail sep dot rooted cs).2) :
    x = sep ∨ ∃ c ∈ cs, x ∈ c := by
  induction cs using List.reverseRecOn with
  | nil =>
    rcases mem_render hx with h | ⟨c, hc, -⟩
    · exact Or.inl h
    · simp at hc
  | append_singleton cs c ih =>
    have hold : x ∈ (trail sep dot rooted cs).2 → x = sep ∨ ∃ d ∈ cs ++ [c], x ∈ d := by
      intro h
      rcases ih h with h | ⟨d, hd, h⟩
      · exact Or.inl h
      · exact Or.inr ⟨d, by simp [hd], h⟩
    rw [trail_concat, trailStep] at hx
    simp only at hx
    split_ifs at hx
    · rcases mem_of_mem_overlay hx with h | h
      · rw [trail_fst, ← resolve_concat] at h
        rcases mem_render h with h | ⟨d, hd, h⟩
        · exact Or.inl h
        · exact Or.inr ⟨d, mem_resolve hd, h⟩
      · exact hold h
    · exact hold hx

theorem lastAt_concat (cs : List (List α)) (c : List α) (i : ℕ) :
    lastAt sep dot rooted (cs ++ [c]) i =
      ((render sep rooted (resolve dot rooted (cs ++ [c])))[i]?).or
        (lastAt sep dot rooted cs i) := by
  have hinits : (cs ++ [c]).inits = cs.inits ++ [cs ++ [c]] := by simp [List.inits_append]
  rw [lastAt, hinits, List.reverse_append, List.reverse_singleton, List.singleton_append,
    List.findSome?_cons]
  cases (render sep rooted (resolve dot rooted (cs ++ [c])))[i]? <;> rfl

/-- **Leftovers.** Element `i` of the trail comes from the longest run of
leading components whose normal form has an element `i`. -/
theorem trail_getElem? {cs : List (List α)} (hcs : ∀ c ∈ cs, sep ∉ c) (i : ℕ) :
    (trail sep dot rooted cs).2[i]? = lastAt sep dot rooted cs i := by
  induction cs using List.reverseRecOn with
  | nil => simp [trail, lastAt, resolve]
  | append_singleton cs c ih =>
    have hcs' : ∀ d ∈ cs, sep ∉ d := fun d hd => hcs d (by simp [hd])
    obtain ⟨s, hs, -⟩ := trail_spec dot rooted hcs
    rw [lastAt_concat, ← ih hcs']
    by_cases hi : i < (render sep rooted (resolve dot rooted (cs ++ [c]))).length
    · rw [hs, List.getElem?_append_left hi, List.getElem?_eq_getElem hi, Option.some_or]
    · rw [not_lt] at hi
      rw [List.getElem?_eq_none hi, Option.none_or, trail_concat, trailStep]
      simp only
      split_ifs
      · rw [getElem?_overlay_right]
        rwa [trail_fst, ← resolve_concat]
      · rfl

/-- The trail is as long as the longest normal form of a run of leading
components. -/
theorem length_trail_le_iff {cs : List (List α)} (hcs : ∀ c ∈ cs, sep ∉ c) (n : ℕ) :
    (trail sep dot rooted cs).2.length ≤ n ↔
      ∀ a, a <+: cs → (render sep rooted (resolve dot rooted a)).length ≤ n := by
  rw [← List.getElem?_eq_none_iff, trail_getElem? hcs, lastAt, List.findSome?_eq_none_iff]
  simp [List.mem_inits]

end Trail

/-! ## Normal forms compose -/

section Compose

variable [DecidableEq α] {sep dot : α} {rooted : Bool}

theorem resolve_append (cs ds : List (List α)) :
    resolve dot rooted (cs ++ ds) = ds.foldl (push dot rooted) (resolve dot rooted cs) :=
  List.foldl_append

theorem resolve_replicate_up (k : ℕ) :
    resolve dot false (List.replicate k [dot, dot]) = List.replicate k [dot, dot] := by
  induction k with
  | zero => rfl
  | succ k ih =>
    rw [List.replicate_succ', resolve_concat, ih, push_up_bottom, List.replicate_succ']

/-- The members of a stack, from the bottom, are pushed to the same stack. -/
theorem resolve_reverse {stack : List (List α)} (hs : IsStack sep dot rooted stack) :
    resolve dot rooted stack.reverse = stack := by
  obtain ⟨names, k, rfl, hnames, hk⟩ := hs
  induction names with
  | nil =>
    rw [List.nil_append, List.reverse_replicate]
    cases rooted with
    | true =>
      obtain rfl := hk rfl
      rfl
    | false => exact resolve_replicate_up k
  | cons n names ih =>
    rw [List.cons_append, List.reverse_cons, resolve_concat,
      ih fun m hm => hnames m (List.mem_cons_of_mem _ hm),
      push_name (hnames n List.mem_cons_self)]

theorem resolve_nil_cons (cs : List (List α)) :
    resolve dot rooted ([] :: cs) = resolve dot rooted cs := by
  rw [resolve, List.foldl_cons, push_skip (Or.inl rfl)]
  rfl

theorem splitOn_append_sep (p q : List α) :
    (p ++ sep :: q).splitOn sep = p.splitOn sep ++ q.splitOn sep := by
  obtain ⟨init, last, hp⟩ := exists_splitOn_eq_concat sep p
  have hq : (sep :: q).splitOn sep = [] :: q.splitOn sep := by
    simp [List.splitOn_cons_eq_if_modifyHead]
  rw [splitOn_append hp hq, hp]
  simp

theorem isRooted_append {p : List α} (hp : p ≠ []) (q : List α) :
    isRooted sep (p ++ q) = isRooted sep p := by
  obtain ⟨c, p, rfl⟩ := List.exists_cons_of_ne_nil hp
  rfl

/-- Only a rooted rendering begins with the separator. -/
theorem isRooted_render {stack : List (List α)} (hsd : sep ≠ dot)
    (hs : IsStack sep dot rooted stack) (hne : render sep rooted stack ≠ []) :
    isRooted sep (render sep rooted stack) = rooted := by
  cases rooted with
  | true => simp [isRooted, render]
  | false =>
    have hstack : stack ≠ [] := by
      rintro rfl
      exact hne (by simp)
    have hsplit : (render sep false stack).splitOn sep = [] ++ stack.reverse :=
      splitOn_render hstack (hs.sep_notMem hsd)
    rw [List.nil_append] at hsplit
    obtain ⟨c, cs, hcs⟩ := List.exists_cons_of_ne_nil (List.reverse_ne_nil_iff.mpr hstack)
    have hc : c ≠ [] := hs.ne_nil c (List.mem_reverse.mp (by rw [hcs]; exact List.mem_cons_self))
    rw [hcs] at hsplit
    cases hrender : render sep false stack with
    | nil => exact absurd hrender hne
    | cons x p =>
      -- a separator in front would make the first component empty
      unfold isRooted
      rw [List.head?_cons, decide_eq_false_iff_not]
      intro hx
      obtain rfl := Option.some.inj hx
      rw [hrender, List.splitOn_cons_eq_if_modifyHead] at hsplit
      simp only [beq_self_eq_true, if_true] at hsplit
      exact hc (List.cons.inj hsplit).1.symm

/-- The normal form of a path is rooted like the path and has its stack. -/
theorem resolve_normalForm (hsd : sep ≠ dot) (p : List α) :
    isRooted sep (normalForm sep dot p) = isRooted sep p ∧
    resolve dot (isRooted sep p) ((normalForm sep dot p).splitOn sep) =
      resolve dot (isRooted sep p) (p.splitOn sep) := by
  have hs : IsStack sep dot (isRooted sep p) (resolve dot (isRooted sep p) (p.splitOn sep)) :=
    isStack_resolve fun c hc => sep_notMem_of_mem_splitOn hc
  unfold normalForm
  dsimp only
  generalize isRooted sep p = rooted at hs ⊢
  generalize resolve dot rooted (p.splitOn sep) = stack at hs ⊢
  split_ifs with hnil
  · -- the stack is empty and the path is not rooted
    obtain rfl : stack = [] := by
      by_contra hne
      exact hs.render_ne_nil hne hnil
    obtain rfl : rooted = false := by simpa using hnil
    refine ⟨by simp [isRooted, hsd.symm], ?_⟩
    rw [List.splitOn_eq_singleton (by simp [hsd])]
    exact push_skip (Or.inr rfl)
  · refine ⟨isRooted_render hsd hs hnil, ?_⟩
    by_cases hne : stack = []
    · subst hne
      obtain rfl : rooted = true := by simpa using hnil
      simp [resolve, List.splitOn_cons_eq_if_modifyHead, push_skip]
    · rw [splitOn_render hne (hs.sep_notMem hsd)]
      cases rooted with
      | true =>
        rw [if_pos rfl, List.singleton_append, resolve_nil_cons]
        exact resolve_reverse hs
      | false => exact resolve_reverse hs

theorem normalForm_ne_nil (p : List α) : normalForm sep dot p ≠ [] := by
  unfold normalForm
  dsimp only
  split_ifs with h
  · exact List.cons_ne_nil _ _
  · exact h

/-- The normal form depends on the root and on the stack only. -/
theorem normalForm_congr {p q : List α} (hroot : isRooted sep p = isRooted sep q)
    (hstack : resolve dot (isRooted sep q) (p.splitOn sep) =
      resolve dot (isRooted sep q) (q.splitOn sep)) :
    normalForm sep dot p = normalForm sep dot q := by
  unfold normalForm
  rw [hroot, hstack]

/-- **Normal forms compose.** A path behind another one may be resolved behind its normal
form. -/
theorem normalForm_append (hsd : sep ≠ dot) {p : List α} (hp : p ≠ []) (q : List α) :
    normalForm sep dot (normalForm sep dot p ++ sep :: q) = normalForm sep dot (p ++ sep :: q) := by
  obtain ⟨hroot, hstack⟩ := resolve_normalForm hsd p
  apply normalForm_congr
  · rw [isRooted_append (normalForm_ne_nil p), isRooted_append hp, hroot]
  · rw [isRooted_append hp, splitOn_append_sep, splitOn_append_sep, resolve_append,
      resolve_append, hstack]

/-- Normal forms are normal. -/
theorem normalForm_normalForm (hsd : sep ≠ dot) (p : List α) :
    normalForm sep dot (normalForm sep dot p) = normalForm sep dot p :=
  normalForm_congr (resolve_normalForm hsd p).1 (resolve_normalForm hsd p).2

end Compose

/-! ## Walks -/

section Walk

variable {sep dot : α}

/-- A list of components whose last one is continued by `h`, and `t` behind it. -/
def glue : List (List α) → List α → List (List α) → List (List α)
  | [], h, t => h :: t
  | [c], h, t => (c ++ h) :: t
  | c :: d :: cs, h, t => c :: glue (d :: cs) h t

theorem glue_concat (init : List (List α)) (last h : List α) (t : List (List α)) :
    glue (init ++ [last]) h t = init ++ (last ++ h) :: t := by
  induction init with
  | nil => rfl
  | cons c init ih =>
    cases init with
    | nil => rfl
    | cons d init => rw [List.cons_append, List.cons_append, glue, ← List.cons_append, ih]; rfl

/-- Names stay names when the last one is continued. -/
theorem up_notMem_glue {names : List (List α)} (hn : ∀ n ∈ names, IsName sep dot n)
    (hne : names ≠ []) (h : List α) {t : List (List α)} (ht : [dot, dot] ∉ t) :
    [dot, dot] ∉ glue names h t := by
  induction names with
  | nil => exact absurd rfl hne
  | cons c names ih =>
    cases names with
    | nil =>
      rw [glue, List.mem_cons, not_or]
      exact ⟨((hn c (by simp)).append_ne_up h).symm, ht⟩
    | cons d names =>
      rw [glue, List.mem_cons, not_or]
      exact ⟨(hn c (by simp)).ne_up.symm, ih (fun n hn' => hn n (by simp [hn'])) (by simp)⟩

variable [DecidableEq α]

/-- The components of a concatenation, without naming the last one of the left
part. -/
theorem splitOn_append_glue {a b h : List α} {t : List (List α)} (hb : b.splitOn sep = h :: t) :
    (a ++ b).splitOn sep = glue (a.splitOn sep) h t := by
  obtain ⟨init, last, ha⟩ := exists_splitOn_eq_concat sep a
  rw [ha, glue_concat, splitOn_append ha hb]

/-- Without `..` a walk never goes up. -/
theorem isSome_walk {cs : List (List α)} (h : [dot, dot] ∉ cs) (d : ℕ) :
    (walk dot d cs).isSome := by
  induction cs generalizing d with
  | nil => rfl
  | cons c cs ih =>
    rw [List.mem_cons, not_or] at h
    rw [walk.eq_def]
    dsimp only
    split_ifs with h1 h2
    · exact ih h.2 d
    · exact absurd h2.symm h.1
    · exact ih h.2 (d + 1)

theorem walk_up_zero (cs : List (List α)) : walk dot 0 ([dot, dot] :: cs) = none := by
  simp [walk]

theorem walk_up_succ (d : ℕ) (cs : List (List α)) :
    walk dot (d + 1) ([dot, dot] :: cs) = walk dot d cs := by
  simp [walk]

theorem walk_down {c : List α} (h0 : c ≠ []) (h1 : c ≠ [dot]) (h2 : c ≠ [dot, dot]) (d : ℕ)
    (cs : List (List α)) : walk dot d (c :: cs) = walk dot (d + 1) cs := by
  rw [walk.eq_def]
  dsimp only
  rw [if_neg (by simp [h0, h1]), if_neg h2]

end Walk

end Yotta.Lexical
