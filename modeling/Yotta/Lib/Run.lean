import Mathlib.Logic.Relation

/-!
# Runs of a step function

`step : σ → α → Option σ` takes a state and a label and is `none` where the
label is not possible. `Run step ok s t` says that `t` is reached from `s` by
steps that all meet `ok`, a condition on the state before the step and the
label.

* `Run.invariant`: what the start has and every such step keeps holds at the
  end.
* `exec` runs a list of labels, and `run_of_exec` turns its outcome into a run.
-/

namespace Yotta

variable {σ α : Type*} {step : σ → α → Option σ} {ok : σ → α → Prop}

/-- `t` is reached from `s` by steps that meet `ok`. -/
inductive Run (step : σ → α → Option σ) (ok : σ → α → Prop) (s : σ) : σ → Prop
  | refl : Run step ok s s
  | tail {t u : σ} {a : α} : Run step ok s t → ok t a → step t a = some u → Run step ok s u

/-- `t` is reached from `s`. -/
abbrev Reaches (step : σ → α → Option σ) : σ → σ → Prop := Run step fun _ _ => True

namespace Run

/-- **Invariant rule.** -/
theorem invariant {Inv : σ → Prop} {s t : σ} (h0 : Inv s)
    (hstep : ∀ t a u, Inv t → ok t a → step t a = some u → Inv u) (h : Run step ok s t) :
    Inv t := by
  induction h with
  | refl => exact h0
  | tail _ hok hs ih => exact hstep _ _ _ ih hok hs

theorem trans {s t u : σ} (h : Run step ok s t) (h' : Run step ok t u) : Run step ok s u := by
  induction h' with
  | refl => exact h
  | tail _ hok hs ih => exact ih.tail hok hs

/-- A map of states under which every step is a step of the image or changes
nothing carries runs over. -/
theorem map {τ β : Type*} {step' : τ → β → Option τ} {ok' : τ → β → Prop} {f : σ → τ}
    (hstep : ∀ s a u, ok s a → step s a = some u →
      f u = f s ∨ ∃ b, ok' (f s) b ∧ step' (f s) b = some (f u))
    {s t : σ} (h : Run step ok s t) : Run step' ok' (f s) (f t) := by
  induction h with
  | refl => exact .refl
  | tail _ hok hs ih =>
    rcases hstep _ _ _ hok hs with heq | ⟨b, hb, hs'⟩
    · rwa [heq]
    · exact ih.tail hb hs'

end Run

/-- The labels of a list one after the other. -/
def exec (step : σ → α → Option σ) : σ → List α → Option σ
  | s, [] => some s
  | s, a :: as => (step s a).bind (exec step · as)

theorem exec_append (s : σ) (as bs : List α) :
    exec step s (as ++ bs) = (exec step s as).bind (exec step · bs) := by
  induction as generalizing s with
  | nil => rfl
  | cons a as ih =>
    rw [List.cons_append, exec, exec, Option.bind_assoc]
    simp only [ih]

theorem run_of_exec {s t : σ} {as : List α} (h : exec step s as = some t) : Reaches step s t := by
  induction as generalizing s with
  | nil =>
    obtain rfl : s = t := by simpa [exec] using h
    exact .refl
  | cons a as ih =>
    obtain ⟨u, hu, h⟩ := Option.bind_eq_some_iff.mp h
    exact Run.trans (Run.refl.tail trivial hu) (ih h)

/-- The labels of a list one after the other, which meet `ok` in every state. -/
theorem run_of_exec_of_forall {s t : σ} {as : List α} (hok : ∀ a ∈ as, ∀ s, ok s a)
    (h : exec step s as = some t) : Run step ok s t := by
  induction as generalizing s with
  | nil =>
    obtain rfl : s = t := by simpa [exec] using h
    exact .refl
  | cons a as ih =>
    obtain ⟨u, hu, h⟩ := Option.bind_eq_some_iff.mp h
    obtain ⟨ha, has⟩ := List.forall_mem_cons.mp hok
    exact Run.trans (Run.refl.tail (ha s) hu) (ih has h)

/-- The labels of a list one after the other, where each of them meets `ok`. -/
theorem run_of_exec_ite [∀ s a, Decidable (ok s a)] {s t : σ} {as : List α}
    (h : exec (fun s a => if ok s a then step s a else none) s as = some t) :
    Run step ok s t := by
  induction as generalizing s with
  | nil =>
    obtain rfl : s = t := by simpa [exec] using h
    exact .refl
  | cons a as ih =>
    obtain ⟨u, hu, h⟩ := Option.bind_eq_some_iff.mp h
    dsimp only at hu
    split at hu
    case isTrue hok => exact Run.trans (Run.refl.tail hok hu) (ih h)
    case isFalse => cases hu

end Yotta
