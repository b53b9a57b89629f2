import Mathlib.Data.Nat.Notation
import Mathlib.Logic.Function.Basic

/-!
# A directory

Names, the files they name, and what the files hold. A file is a number that is not
given out again, so that a stream that is open on it stays on it when its name changes.

* `Sound`: no file has two names.
* `write`, `openTruncate`, `rename`, `remove`: each keeps `Sound`, and leaves the files of
  other names alone.
-/

namespace Yotta

variable {ν γ : Type*}

structure Directory (ν γ : Type*) where
  inode : ν → Option ℕ
  content : ℕ → γ
  /-- The next file. -/
  next : ℕ
  /-- All names that there have been. -/
  names : List ν

namespace Directory

/-- There is no file yet. -/
def empty (blank : γ) : Directory ν γ where
  inode _ := none
  content _ := blank
  next := 0
  names := []

/-- What the file of a name holds. -/
def file (d : Directory ν γ) (n : ν) : Option γ := (d.inode n).map d.content

/-- No file has two names, and the next file has none. -/
structure Sound (d : Directory ν γ) : Prop where
  inj : ∀ {n n' i}, d.inode n = some i → d.inode n' = some i → n = n'
  lt_next : ∀ {n i}, d.inode n = some i → i < d.next
  mem_names : ∀ {n i}, d.inode n = some i → n ∈ d.names

theorem file_eq_some_iff {d : Directory ν γ} {n : ν} {c : γ} :
    d.file n = some c ↔ ∃ i, d.inode n = some i ∧ d.content i = c :=
  Option.map_eq_some_iff

theorem file_eq_of_inode {d : Directory ν γ} {n : ν} {i : ℕ} (h : d.inode n = some i) :
    d.file n = some (d.content i) :=
  congrArg (Option.map d.content) h

theorem sound_empty (blank : γ) : (empty blank : Directory ν γ).Sound where
  inj h := by cases h
  lt_next h := by cases h
  mem_names h := by cases h

/-- What is written to a stream. -/
def write (d : Directory ν γ) (i : ℕ) (c : γ) : Directory ν γ :=
  { d with content := Function.update d.content i c }

theorem Sound.write {d : Directory ν γ} (h : d.Sound) (i : ℕ) (c : γ) : (d.write i c).Sound where
  inj := h.inj
  lt_next := h.lt_next
  mem_names := h.mem_names

@[simp] theorem content_write_self {d : Directory ν γ} {i : ℕ} {c : γ} :
    (d.write i c).content i = c :=
  Function.update_self ..

theorem content_write_of_ne {d : Directory ν γ} {i j : ℕ} (hne : j ≠ i) (c : γ) :
    (d.write i c).content j = d.content j :=
  Function.update_of_ne hne ..

variable [DecidableEq ν]

/-- `fopen(n, "w")`: the file is there and is blank. -/
def openTruncate (d : Directory ν γ) (blank : γ) (n : ν) : Directory ν γ × ℕ :=
  match d.inode n with
  | some i => (d.write i blank, i)
  | none =>
    ({ inode := Function.update d.inode n (some d.next)
       content := Function.update d.content d.next blank
       next := d.next + 1
       names := n :: d.names }, d.next)

/-- `rename(old, new)`, where the file is there. -/
def rename (d : Directory ν γ) (old new : ν) : Directory ν γ :=
  { d with
    inode := Function.update (Function.update d.inode old none) new (d.inode old)
    names := new :: d.names }

/-- `remove(n)` -/
def remove (d : Directory ν γ) (n : ν) : Directory ν γ :=
  { d with inode := Function.update d.inode n none }

section

variable {d : Directory ν γ} (blank : γ) {n n' : ν}

theorem inode_openTruncate_self :
    (d.openTruncate blank n).1.inode n = some (d.openTruncate blank n).2 := by
  unfold openTruncate
  split
  · assumption
  · exact Function.update_self ..

theorem inode_openTruncate_of_ne (hne : n' ≠ n) :
    (d.openTruncate blank n).1.inode n' = d.inode n' := by
  unfold openTruncate
  split
  · rfl
  · exact Function.update_of_ne hne ..

theorem Sound.openTruncate (h : d.Sound) : (d.openTruncate blank n).1.Sound := by
  unfold Directory.openTruncate
  split
  · exact h.write _ _
  · -- the next file is new
    have hnew : ∀ {m i}, Function.update d.inode n (some d.next) m = some i →
        m = n ∧ i = d.next ∨ d.inode m = some i := by
      intro m i hm
      by_cases hmn : m = n
      · subst hmn
        rw [Function.update_self] at hm
        exact Or.inl ⟨rfl, (Option.some.inj hm).symm⟩
      · rw [Function.update_of_ne hmn] at hm
        exact Or.inr hm
    refine ⟨fun {m m' i} hm hm' => ?_, fun {m i} hm => ?_, fun {m i} hm => ?_⟩
    · rcases hnew hm with ⟨rfl, hi⟩ | hold <;> rcases hnew hm' with ⟨rfl, hi'⟩ | hold'
      · rfl
      · exact absurd (h.lt_next hold') (hi ▸ Nat.lt_irrefl _)
      · exact absurd (h.lt_next hold) (hi' ▸ Nat.lt_irrefl _)
      · exact h.inj hold hold'
    · show i < d.next + 1
      rcases hnew hm with ⟨-, rfl⟩ | hold
      · exact Nat.lt_succ_self _
      · exact Nat.lt_succ_of_lt (h.lt_next hold)
    · show m ∈ n :: d.names
      rcases hnew hm with ⟨rfl, -⟩ | hold
      · exact List.mem_cons_self
      · exact List.mem_cons_of_mem _ (h.mem_names hold)

theorem next_le_openTruncate : d.next ≤ (d.openTruncate blank n).1.next := by
  unfold openTruncate
  split
  · exact Nat.le_refl _
  · exact Nat.le_succ _

/-- The file of the name is the one it had, or a new one. -/
theorem openTruncate_snd :
    d.inode n = some (d.openTruncate blank n).2 ∨ (d.openTruncate blank n).2 = d.next := by
  unfold openTruncate
  split
  · exact Or.inl ‹_›
  · exact Or.inr rfl

/-- Another name has the file and the content it had. -/
theorem Sound.file_openTruncate_of_ne (h : d.Sound) (hne : n' ≠ n) :
    (d.openTruncate blank n).1.file n' = d.file n' := by
  unfold file
  rw [inode_openTruncate_of_ne blank hne]
  cases hn' : d.inode n' with
  | none => rfl
  | some j =>
    show some ((d.openTruncate blank n).1.content j) = some (d.content j)
    unfold Directory.openTruncate
    split
    · have hji : j ≠ _ := fun heq => hne (h.inj hn' (heq ▸ ‹d.inode n = some _›))
      rw [content_write_of_ne hji]
    · have hj : j ≠ d.next := Nat.ne_of_lt (h.lt_next hn')
      dsimp only
      rw [Function.update_of_ne hj]

theorem content_openTruncate_self :
    (d.openTruncate blank n).1.content (d.openTruncate blank n).2 = blank := by
  unfold openTruncate
  split
  · exact content_write_self
  · exact Function.update_self ..

end

section

variable {d : Directory ν γ} {old new n : ν}

theorem inode_rename_new : (d.rename old new).inode new = d.inode old :=
  Function.update_self ..

theorem inode_rename_of_ne (hold : n ≠ old) (hnew : n ≠ new) :
    (d.rename old new).inode n = d.inode n := by
  unfold rename
  dsimp only
  rw [Function.update_of_ne hnew, Function.update_of_ne hold]

/-- The new name takes the place of the old one. -/
theorem inode_rename_eq_some {i : ℕ} (h : (d.rename old new).inode n = some i) :
    n = new ∧ d.inode old = some i ∨ n ≠ new ∧ n ≠ old ∧ d.inode n = some i := by
  by_cases hnew : n = new
  · subst hnew
    rw [inode_rename_new] at h
    exact Or.inl ⟨rfl, h⟩
  · by_cases hold : n = old
    · subst hold
      unfold rename at h
      dsimp only at h
      rw [Function.update_of_ne hnew, Function.update_self] at h
      cases h
    · rw [inode_rename_of_ne hold hnew] at h
      exact Or.inr ⟨hnew, hold, h⟩

theorem Sound.rename (h : d.Sound) : (d.rename old new).Sound := by
  refine ⟨fun {m m' i} hm hm' => ?_, fun {m i} hm => ?_, fun {m i} hm => ?_⟩
  · rcases inode_rename_eq_some hm with ⟨rfl, hi⟩ | ⟨-, hne, hi⟩ <;>
      rcases inode_rename_eq_some hm' with ⟨rfl, hi'⟩ | ⟨-, hne', hi'⟩
    · rfl
    · exact absurd (h.inj hi' hi) hne'
    · exact absurd (h.inj hi hi') hne
    · exact h.inj hi hi'
  · rcases inode_rename_eq_some hm with ⟨-, hi⟩ | ⟨-, -, hi⟩
    · exact h.lt_next hi
    · exact h.lt_next hi
  · show m ∈ new :: d.names
    rcases inode_rename_eq_some hm with ⟨rfl, -⟩ | ⟨-, -, hi⟩
    · exact List.mem_cons_self
    · exact List.mem_cons_of_mem _ (h.mem_names hi)

theorem inode_remove_self : (d.remove n).inode n = none := Function.update_self ..

theorem inode_remove_of_ne {n' : ν} (hne : n' ≠ n) : (d.remove n).inode n' = d.inode n' :=
  Function.update_of_ne hne ..

theorem inode_remove_eq_some {n' : ν} {i : ℕ} (h : (d.remove n).inode n' = some i) :
    n' ≠ n ∧ d.inode n' = some i := by
  have hne : n' ≠ n := by
    rintro rfl
    rw [inode_remove_self] at h
    cases h
  exact ⟨hne, inode_remove_of_ne hne ▸ h⟩

theorem Sound.remove (h : d.Sound) : (d.remove n).Sound where
  inj hm hm' := h.inj (inode_remove_eq_some hm).2 (inode_remove_eq_some hm').2
  lt_next hm := h.lt_next (inode_remove_eq_some hm).2
  mem_names hm := h.mem_names (inode_remove_eq_some hm).2

end

end Directory

end Yotta
