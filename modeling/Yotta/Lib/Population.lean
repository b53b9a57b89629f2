import Mathlib.Logic.Function.Basic

/-!
# Populations

Members with names, each in a state of its own. A member that acts goes on in another state or
leaves, and a new member may come out of it.

Results:
* `Everyone.act`: everyone satisfies what the member that acts, and the one that comes out of
  it, satisfy.
* `Alone.act`: a member that is alone and goes on, or is replaced, is alone.
-/

namespace Yotta

abbrev Population (ι σ : Type*) := ι → Option σ

/-- What comes of an act. -/
structure Effect (σ : Type*) where
  /-- The member, `none` where it leaves. -/
  self : Option σ
  /-- A new member. -/
  child : Option σ

namespace Population

variable {ι σ : Type*} [DecidableEq ι]

/-- One member. -/
def single (id : ι) (x : σ) : Population ι σ := Function.update (fun _ => none) id (some x)

/-- The member `id` has acted; a new member gets the name `id'`. -/
def act (s : Population ι σ) (id id' : ι) (e : Effect σ) : Population ι σ :=
  match e.child with
  | none => Function.update s id e.self
  | some y => Function.update (Function.update s id e.self) id' (some y)

variable {s : Population ι σ} {id id' i : ι} {e : Effect σ} {x : σ}

theorem single_eq_some {y : σ} (h : single id x i = some y) : i = id ∧ y = x := by
  unfold single at h
  by_cases hi : i = id
  · subst hi
    rw [Function.update_self] at h
    exact ⟨rfl, (Option.some.inj h).symm⟩
  · rw [Function.update_of_ne hi] at h
    cases h

theorem single_of_ne (h : i ≠ id) : single id x i = none := Function.update_of_ne h ..

/-- A member that is there was there before, or has acted, or is new. -/
theorem act_eq_some (h : s.act id id' e i = some x) :
    s i = some x ∧ i ≠ id ∨ i = id ∧ e.self = some x ∨ i = id' ∧ e.child = some x := by
  unfold act at h
  cases hchild : e.child with
  | none =>
    rw [hchild] at h
    dsimp only at h
    by_cases hi : i = id
    · subst hi
      rw [Function.update_self] at h
      exact Or.inr (Or.inl ⟨rfl, h⟩)
    · rw [Function.update_of_ne hi] at h
      exact Or.inl ⟨h, hi⟩
  | some y =>
    rw [hchild] at h
    dsimp only at h
    by_cases hi' : i = id'
    · subst hi'
      rw [Function.update_self] at h
      exact Or.inr (Or.inr ⟨rfl, h⟩)
    · rw [Function.update_of_ne hi'] at h
      by_cases hi : i = id
      · subst hi
        rw [Function.update_self] at h
        exact Or.inr (Or.inl ⟨rfl, h⟩)
      · rw [Function.update_of_ne hi] at h
        exact Or.inl ⟨h, hi⟩

theorem act_child {y : σ} (h : e.child = some y) : s.act id id' e id' = some y := by
  unfold act
  rw [h]
  exact Function.update_self ..

theorem act_self (h : e.child.isSome → id ≠ id') : s.act id id' e id = e.self := by
  unfold act
  cases hchild : e.child with
  | none => exact Function.update_self ..
  | some y =>
    dsimp only
    rw [Function.update_of_ne (h (by rw [hchild]; rfl)), Function.update_self]

/-- The others stay as they are. -/
theorem act_of_ne (hi : i ≠ id) (hi' : e.child.isSome → i ≠ id') : s.act id id' e i = s i := by
  unfold act
  cases hchild : e.child with
  | none => exact Function.update_of_ne hi ..
  | some y =>
    dsimp only
    rw [Function.update_of_ne (hi' (by rw [hchild]; rfl)), Function.update_of_ne hi]

/-! ## Everyone -/

def Everyone (P : σ → Prop) (s : Population ι σ) : Prop := ∀ ⦃id x⦄, s id = some x → P x

variable {P : σ → Prop}

theorem everyone_single (h : P x) : Everyone P (single id x) := by
  intro i y hy
  rw [(single_eq_some hy).2]
  exact h

theorem Everyone.act (h : s.Everyone P) (hself : ∀ x ∈ e.self, P x)
    (hchild : ∀ x ∈ e.child, P x) : (s.act id id' e).Everyone P := by
  intro i x hx
  rcases act_eq_some hx with ⟨hx, -⟩ | ⟨-, hx⟩ | ⟨-, hx⟩
  · exact h hx
  · exact hself x hx
  · exact hchild x hx

/-! ## One member -/

/-- There are no two members. -/
def Alone (s : Population ι σ) : Prop := ∀ ⦃i j x y⦄, s i = some x → s j = some y → i = j

theorem alone_single : (single id x).Alone := fun _ _ _ _ hi hj =>
  (single_eq_some hi).1.trans (single_eq_some hj).1.symm

theorem Alone.act (h : s.Alone) (hid : s id = some x) (he : e.self = none ∨ e.child = none) :
    (s.act id id' e).Alone := by
  -- whoever is there is what comes of `id`
  have hplace {j : ι} {y : σ} (hy : s.act id id' e j = some y) :
      j = id ∧ e.self.isSome ∨ j = id' ∧ e.child.isSome := by
    rcases act_eq_some hy with ⟨hy, hj⟩ | ⟨hj, hy⟩ | ⟨hj, hy⟩
    · exact absurd (h hy hid) hj
    · exact Or.inl ⟨hj, by rw [hy]; rfl⟩
    · exact Or.inr ⟨hj, by rw [hy]; rfl⟩
  intro i j y z hy hz
  rcases he with he | he <;> rcases hplace hy with ⟨rfl, hi⟩ | ⟨rfl, hi⟩ <;>
    rcases hplace hz with ⟨rfl, hj⟩ | ⟨rfl, hj⟩ <;> simp_all

/-- Where a member is alone, everyone is what comes of it. -/
theorem Alone.everyone_act (h : s.Alone) (hid : s id = some x) (hself : ∀ x ∈ e.self, P x)
    (hchild : ∀ x ∈ e.child, P x) : (s.act id id' e).Everyone P := by
  intro i y hy
  rcases act_eq_some hy with ⟨hy, hi⟩ | ⟨-, hy⟩ | ⟨-, hy⟩
  · exact absurd (h hy hid) hi
  · exact hself y hy
  · exact hchild y hy

end Population

end Yotta
