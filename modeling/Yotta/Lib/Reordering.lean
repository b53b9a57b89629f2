import Mathlib.Data.List.Basic

/-!
# Reordered lists

Two lists with the same elements, in which the elements of one key stand in the same order.

Results:
* `Reordered.findSome?_eq`: the first answer of a list does not depend on the order of the
  keys, if the first answers of any two keys are the same.
* `exists_reordered`: the elements of any key may come first.
-/

namespace Yotta

variable {α β κ : Type*} [DecidableEq κ]

/-- The elements with a key. -/
def ofKey (key : α → κ) (k : κ) (l : List α) : List α := l.filter (key · = k)

/-- `l'` is a permutation of `l` that keeps the order of the elements with the same key. -/
structure Reordered (key : α → κ) (l l' : List α) : Prop where
  perm : l.Perm l'
  ofKey_eq : ∀ k, ofKey key k l' = ofKey key k l

theorem mem_ofKey {key : α → κ} {k : κ} {l : List α} {x : α} :
    x ∈ ofKey key k l ↔ x ∈ l ∧ key x = k := by
  simp [ofKey]

theorem Reordered.swap {key : α → κ} {x y : α} (h : key x ≠ key y) :
    Reordered key [x, y] [y, x] := by
  refine ⟨List.Perm.swap y x [], fun k => ?_⟩
  unfold ofKey
  by_cases hx : key x = k
  · have hy : key y ≠ k := fun hy => h (hx.trans hy.symm)
    simp [hx, hy]
  · by_cases hy : key y = k <;> simp [hx, hy]

/-- The first answer of a list is the first answer of some key. -/
theorem exists_ofKey_findSome? {key : α → κ} {f : α → Option β} {l : List α} {b : β}
    (h : l.findSome? f = some b) : ∃ k, (ofKey key k l).findSome? f = some b := by
  obtain ⟨before, x, after, rfl, hx, hbefore⟩ := List.findSome?_eq_some_iff.mp h
  refine ⟨key x, List.findSome?_eq_some_iff.mpr
    ⟨ofKey key (key x) before, x, ofKey key (key x) after, ?_, hx, ?_⟩⟩
  · unfold ofKey
    rw [List.filter_append, List.filter_cons_of_pos (by simp)]
  · intro y hy
    exact hbefore y (List.mem_of_mem_filter hy)

/-- **Order of the keys.** If the first answers of any two keys are the same, the first
answer is the same in every reordered list. -/
theorem Reordered.findSome?_eq {key : α → κ} {f : α → Option β} {l l' : List α}
    (h : Reordered key l l')
    (hsame : ∀ k k' b b', (ofKey key k l).findSome? f = some b →
      (ofKey key k' l).findSome? f = some b' → b = b') :
    l'.findSome? f = l.findSome? f := by
  cases hfirst : l.findSome? f with
  | none =>
    rw [List.findSome?_eq_none_iff] at hfirst ⊢
    intro x hx
    exact hfirst x (h.perm.mem_iff.mpr hx)
  | some b =>
    cases hfirst' : l'.findSome? f with
    | none =>
      rw [List.findSome?_eq_none_iff] at hfirst'
      obtain ⟨x, hx, hb⟩ := List.exists_of_findSome?_eq_some hfirst
      rw [hfirst' x (h.perm.mem_iff.mp hx)] at hb
      cases hb
    | some b' =>
      obtain ⟨k, hk⟩ : ∃ k, (ofKey key k l).findSome? f = some b :=
        exists_ofKey_findSome? hfirst
      obtain ⟨k', hk'⟩ : ∃ k, (ofKey key k l').findSome? f = some b' :=
        exists_ofKey_findSome? hfirst'
      rw [h.ofKey_eq] at hk'
      rw [hsame k k' b b' hk hk']

/-- **The elements of any key may come first.** -/
theorem exists_reordered (key : α → κ) (k : κ) (l : List α) :
    ∃ rest, Reordered key l (ofKey key k l ++ rest) := by
  refine ⟨l.filter fun x => !decide (key x = k), (List.filter_append_perm _ l).symm, ?_⟩
  intro j
  unfold ofKey
  rw [List.filter_append, List.filter_filter, List.filter_filter]
  by_cases hj : j = k
  · subst hj
    simp
  · have hfront : l.filter (fun x => decide (key x = j) && decide (key x = k)) = [] := by
      rw [List.filter_eq_nil_iff]
      intro x _
      simp only [Bool.and_eq_true, decide_eq_true_eq]
      rintro ⟨rfl, hk⟩
      exact hj hk
    have hrest : l.filter (fun x => decide (key x = j) && !decide (key x = k)) =
        l.filter (fun x => decide (key x = j)) := by
      apply List.filter_congr
      intro x _
      by_cases hx : key x = j
      · have hne : key x ≠ k := hx ▸ hj
        simp [hx, hj]
      · simp [hx]
    rw [hfront, hrest, List.nil_append]

end Yotta
