import Mathlib.Data.List.Basic

/-!
# Streaming machines

A machine reads its input symbol by symbol. It writes output on the way, and it may stop
behind a symbol or refuse one.

Results:
* `run_append`: a run over two texts is a run over the first and, where that one wants
  more, a run over the second.
* `run_flatten`: the pieces of a text, fed one after the other, are read as the whole text
  is.
* `Recognizes.run_eq_done_iff`: what a machine accepts is given by a family of relations
  that satisfies its derivative equations.
-/

namespace Yotta

/-- What a machine does with a symbol. -/
inductive Reaction (σ ο : Type*) where
  /-- It writes `out` and goes on in the state `s`. -/
  | step (s : σ) (out : List ο)
  /-- The symbol is the last one that it reads. -/
  | stop
  /-- It refuses the symbol. -/
  | refuse

/-- How a run ends. -/
inductive Ending (σ τ : Type*) where
  /-- The input is read, and the machine waits in the state `s`. -/
  | more (s : σ)
  /-- The machine has stopped in front of `rest`. -/
  | done (rest : List τ)
  /-- The machine refuses the first symbol of `rest`. -/
  | bad (rest : List τ)

abbrev Machine (σ τ ο : Type*) := σ → τ → Reaction σ ο

namespace Machine

variable {σ τ ο : Type*} (m : Machine σ τ ο)

/-- `out` in front of what a run writes. -/
def emit (out : List ο) (r : List ο × Ending σ τ) : List ο × Ending σ τ := (out ++ r.1, r.2)

def run : σ → List τ → List ο × Ending σ τ
  | s, [] => ([], .more s)
  | s, x :: xs =>
    match m s x with
    | .step s' out => emit out (run s' xs)
    | .stop => ([], .done xs)
    | .refuse => ([], .bad (x :: xs))

/-- What a run that has ended does with more input `xs`; `k` goes on with it. -/
def resume (xs : List τ) (k : σ → List ο × Ending σ τ) : Ending σ τ → List ο × Ending σ τ
  | .more s => k s
  | .done rest => ([], .done (rest ++ xs))
  | .bad rest => ([], .bad (rest ++ xs))

/-- The pieces of a text one after the other, while the machine wants more; the last
component has the pieces it is not given. -/
def feed : σ → List (List τ) → List ο × Ending σ τ × List (List τ)
  | s, [] => ([], .more s, [])
  | s, p :: ps =>
    match m.run s p with
    | (out, .more s') => (out ++ (feed s' ps).1, (feed s' ps).2)
    | (out, e) => (out, e, ps)

@[simp] theorem emit_nil (r : List ο × Ending σ τ) : emit [] r = r := rfl

@[simp] theorem emit_emit (a b : List ο) (r : List ο × Ending σ τ) :
    emit a (emit b r) = emit (a ++ b) r := by
  rw [emit, emit, emit, List.append_assoc]

@[simp] theorem run_nil (s : σ) : m.run s [] = ([], .more s) := rfl

section

variable {m} {s s' : σ} {x : τ} {out : List ο}

theorem run_of_step (h : m s x = .step s' out) (xs : List τ) :
    m.run s (x :: xs) = emit out (m.run s' xs) := by
  rw [run, h]

theorem run_of_stop (h : m s x = .stop) (xs : List τ) : m.run s (x :: xs) = ([], .done xs) := by
  rw [run, h]

theorem run_of_refuse (h : m s x = .refuse) (xs : List τ) :
    m.run s (x :: xs) = ([], .bad (x :: xs)) := by
  rw [run, h]

end

/-! ## More input -/

theorem run_append (s : σ) (xs ys : List τ) :
    m.run s (xs ++ ys) = emit (m.run s xs).1 (resume ys (m.run · ys) (m.run s xs).2) := by
  induction xs generalizing s with
  | nil => rfl
  | cons x xs ih =>
    rw [List.cons_append]
    cases h : m s x with
    | step s' out => rw [run_of_step h, run_of_step h, ih, emit_emit]; rfl
    | stop => rw [run_of_stop h, run_of_stop h]; rfl
    | refuse => rw [run_of_refuse h, run_of_refuse h]; rfl

/-- **Segmentation.** The pieces are read as their concatenation is; where the machine ends
early, the pieces that it is not given stand behind what the last call leaves. -/
theorem run_flatten (s : σ) (ps : List (List τ)) :
    m.run s ps.flatten = emit (m.feed s ps).1
      (resume (m.feed s ps).2.2.flatten (m.run · (m.feed s ps).2.2.flatten) (m.feed s ps).2.1) := by
  induction ps generalizing s with
  | nil => rfl
  | cons p ps ih =>
    rw [List.flatten_cons, run_append, feed]
    cases hp : m.run s p with
    | mk out e =>
      cases e with
      | more s' =>
        change emit out (m.run s' ps.flatten) = _
        rw [ih, emit_emit]
      | done rest => rfl
      | bad rest => rfl

/-- A machine that wants more has been given every piece. -/
theorem feed_more {s t : σ} {ps : List (List τ)} (h : (m.feed s ps).2.1 = .more t) :
    (m.feed s ps).2.2 = [] := by
  induction ps generalizing s with
  | nil => rfl
  | cons p ps ih =>
    rw [feed] at h ⊢
    cases hp : m.run s p with
    | mk out e =>
      rw [hp] at h
      cases e with
      | more s' => exact ih h
      | done rest => cases h
      | bad rest => cases h

/-! ## What is accepted -/

/-- What `L` has to say behind a symbol. -/
def Leaves (L : σ → List ο → List τ → Prop) (out : List ο) (text : List τ) : Reaction σ ο → Prop
  | .step s o => ∃ out', out = o ++ out' ∧ L s out' text
  | .stop => out = [] ∧ text = []
  | .refuse => False

/-- `L s out text` says that from the state `s` on, `text` is what is read to the end and
`out` what is written. The equations say what one symbol leaves of it. -/
structure Recognizes (L : σ → List ο → List τ → Prop) : Prop where
  nil : ∀ s out, ¬ L s out []
  cons : ∀ s x out text, L s out (x :: text) ↔ Leaves L out text (m s x)

section

variable {L : σ → List ο → List τ → Prop} {out : List ο} {text : List τ}

@[simp] theorem leaves_step_nil (s : σ) : Leaves L out text (.step s []) ↔ L s out text := by
  constructor
  · rintro ⟨out', rfl, h⟩
    exact h
  · intro h
    exact ⟨out, rfl, h⟩

@[simp] theorem leaves_stop : Leaves L out text .stop ↔ out = [] ∧ text = [] := Iff.rfl

@[simp] theorem leaves_refuse : Leaves L out text .refuse ↔ False := Iff.rfl

variable {m} {s : σ} {rest : List τ}

/-- **What is accepted**, and what is left behind it. -/
theorem Recognizes.run_eq_done_iff (h : m.Recognizes L) :
    m.run s text = (out, .done rest) ↔ ∃ body, text = body ++ rest ∧ L s out body := by
  induction text generalizing s out with
  | nil =>
    constructor
    · intro hrun
      cases hrun
    · rintro ⟨body, hbody, hL⟩
      obtain ⟨rfl, -⟩ := List.append_eq_nil_iff.mp hbody.symm
      exact absurd hL (h.nil s out)
  | cons x xs ih =>
    -- an accepted text is not empty, so that it starts with `x`
    have hcons : (∃ body, x :: xs = body ++ rest ∧ L s out body) ↔
        ∃ body, xs = body ++ rest ∧ Leaves L out body (m s x) := by
      constructor
      · rintro ⟨body, hbody, hL⟩
        cases body with
        | nil => exact absurd hL (h.nil s out)
        | cons y body =>
          obtain ⟨rfl, rfl⟩ := List.cons.inj hbody
          exact ⟨body, rfl, (h.cons s x out body).mp hL⟩
      · rintro ⟨body, rfl, hL⟩
        exact ⟨x :: body, rfl, (h.cons s x out body).mpr hL⟩
    rw [hcons]
    cases hx : m s x with
    | step s' o =>
      rw [run_of_step hx]
      constructor
      · intro hrun
        obtain ⟨rfl, hend⟩ := Prod.mk.inj hrun
        obtain ⟨body, hxs, hL⟩ := ih.mp (Prod.ext rfl hend)
        exact ⟨body, hxs, _, rfl, hL⟩
      · rintro ⟨body, hxs, out', rfl, hL⟩
        rw [ih.mpr ⟨body, hxs, hL⟩]
        rfl
    | stop =>
      rw [run_of_stop hx]
      constructor
      · intro hrun
        cases hrun
        exact ⟨[], rfl, rfl, rfl⟩
      · rintro ⟨body, rfl, rfl, rfl⟩
        rfl
    | refuse =>
      rw [run_of_refuse hx]
      constructor
      · intro hrun
        cases hrun
      · rintro ⟨body, -, hL⟩
        exact hL.elim

end

end Machine

end Yotta
