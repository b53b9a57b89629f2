import Mathlib.Data.List.GetD
import Mathlib.Data.List.TakeWhile
import Mathlib.Tactic

/-!
# Byte strings and fixed-size buffers

C memory is modelled as lists of bytes. `overlay` and `blit` are `memcpy` into
a region, `cstr` is the C string that starts at a pointer, and `Buffer n` is an
array of `n` bytes: every operation on it keeps its size.
-/

namespace Yotta.Bytes

/-- The bytes of a string literal; only used on ASCII literals. -/
def ascii (s : String) : List UInt8 := s.toList.map fun c => UInt8.ofNat c.toNat

theorem ascii_ne_nil {s : String} (h : s ≠ "") : ascii s ≠ [] := by
  unfold ascii
  simp [h]

/-! ## ASCII -/

abbrev cr : UInt8 := 13
abbrev lf : UInt8 := 10
abbrev ht : UInt8 := 9
abbrev space : UInt8 := 32
abbrev dot : UInt8 := 46
abbrev slash : UInt8 := 47

/-! ## `memcpy` -/

section Overlay

variable {α : Type*}

/-- `memcpy(old, new, |new|)`: `new` is written over the front of `old`. -/
def overlay (new old : List α) : List α := new ++ old.drop new.length

/-- `memcpy(mem + i, xs, |xs|)`. -/
def blit (mem : List α) (i : ℕ) (xs : List α) : List α :=
  mem.take i ++ xs ++ mem.drop (i + xs.length)

@[simp] theorem overlay_nil (old : List α) : overlay [] old = old := by simp [overlay]

@[simp] theorem overlay_nil_right (new : List α) : overlay new [] = new := by simp [overlay]

theorem length_overlay (new old : List α) :
    (overlay new old).length = max new.length old.length := by
  simp [overlay]; omega

/-- Two writes to the front are one write of the first text overlaid by the
second. -/
theorem overlay_assoc (a b c : List α) : overlay a (overlay b c) = overlay (overlay a b) c := by
  simp only [overlay, List.drop_append, List.drop_drop, List.append_assoc, List.length_append,
    List.length_drop]
  congr 3
  omega

/-- A write behind an already written front extends that front. -/
theorem blit_eq_overlay {mem p xs : List α} (h : mem.take p.length = p) :
    blit mem p.length xs = overlay (p ++ xs) mem := by
  simp [blit, overlay, h]

theorem length_blit {mem : List α} {i : ℕ} {xs : List α} (h : i + xs.length ≤ mem.length) :
    (blit mem i xs).length = mem.length := by
  simp [blit]; omega

@[simp] theorem blit_nil (mem : List α) (i : ℕ) : blit mem i [] = mem := by simp [blit]

/-- A write of several elements writes the first one and goes on behind it. -/
theorem blit_cons {mem : List α} {i : ℕ} (h : i < mem.length) (x : α) (xs : List α) :
    blit mem i (x :: xs) = blit (mem.set i x) (i + 1) xs := by
  have hset : mem.set i x = (mem.take i ++ [x]) ++ mem.drop (i + 1) := by
    rw [List.set_eq_take_append_cons_drop, if_pos h, List.append_assoc, List.singleton_append]
  have hlen : (mem.take i ++ [x]).length = i + 1 := by simp; omega
  have htail : (mem.set i x).drop (i + 1 + xs.length) = mem.drop (i + (xs.length + 1)) := by
    rw [List.drop_set_of_lt (by omega)]
    congr 1
    omega
  rw [blit, blit, htail, hset, List.take_left' hlen]
  simp [List.append_assoc]

theorem set_eq_blit {mem : List α} {i : ℕ} (h : i < mem.length) (x : α) :
    mem.set i x = blit mem i [x] := by
  rw [blit_cons h, blit_nil]

/-- Two adjacent writes are one. -/
theorem blit_append {mem : List α} {i : ℕ} {xs : List α} (h : i + xs.length ≤ mem.length)
    (ys : List α) : blit mem i (xs ++ ys) = blit (blit mem i xs) (i + xs.length) ys := by
  induction xs generalizing mem i with
  | nil => simp
  | cons x xs ih =>
    rw [List.length_cons] at h ⊢
    rw [List.cons_append, blit_cons (by omega), blit_cons (by omega),
      ih (by rw [List.length_set]; omega)]
    congr 1
    omega

theorem getElem?_overlay_right {new old : List α} {i : ℕ} (h : new.length ≤ i) :
    (overlay new old)[i]? = old[i]? := by
  rw [overlay, List.getElem?_append_right h, List.getElem?_drop]
  congr 1
  omega

theorem mem_of_mem_overlay {new old : List α} {x : α} (h : x ∈ overlay new old) :
    x ∈ new ∨ x ∈ old := by
  rcases List.mem_append.mp h with h | h
  · exact Or.inl h
  · exact Or.inr (List.mem_of_mem_drop h)

end Overlay

/-! ## C strings -/

/-- The C string at a pointer to `mem`: the bytes before the first NUL. -/
def cstr (mem : List UInt8) : List UInt8 := mem.takeWhile (· ≠ 0)

theorem cstr_append {s : List UInt8} (hs : (0 : UInt8) ∉ s) (rest : List UInt8) :
    cstr (s ++ rest) = s ++ cstr rest := by
  unfold cstr
  rw [List.takeWhile_append_of_pos]
  intro x hx
  have : x ≠ 0 := fun h => hs (h ▸ hx)
  simpa using this

theorem cstr_append_zero {s : List UInt8} (hs : (0 : UInt8) ∉ s) (rest : List UInt8) :
    cstr (s ++ 0 :: rest) = s := by
  rw [cstr_append hs]
  exact List.append_nil s

/-! ## Buffers -/

/-- An array of `n` bytes. -/
structure Buffer (n : ℕ) where
  bytes : List UInt8
  length_eq : bytes.length = n
deriving DecidableEq

namespace Buffer

variable {n : ℕ}

/-- The array with every byte zero. -/
def zero (n : ℕ) : Buffer n := ⟨List.replicate n 0, by simp⟩

/-- Writes `xs` at index `i`. What does not fit is dropped, and each use proves
that everything fits. -/
def write (b : Buffer n) (i : ℕ) (xs : List UInt8) : Buffer n :=
  ⟨(blit b.bytes i xs).take n, by
    have := b.length_eq
    simp only [blit, List.length_take, List.length_append, List.length_drop]
    omega⟩

theorem bytes_write {b : Buffer n} {i : ℕ} {xs : List UInt8} (h : i + xs.length ≤ n) :
    (b.write i xs).bytes = blit b.bytes i xs := by
  have hlen : (blit b.bytes i xs).length = n := by
    rw [length_blit (by rw [b.length_eq]; exact h), b.length_eq]
  exact List.take_of_length_le hlen.le

/-- The bytes up to the end of a write: what was there before it, then the
written ones. -/
theorem take_write {b : Buffer n} {i : ℕ} {xs : List UInt8} (h : i + xs.length ≤ n) :
    (b.write i xs).bytes.take (i + xs.length) = b.bytes.take i ++ xs := by
  have hi : (b.bytes.take i ++ xs).length = i + xs.length := by
    simp [b.length_eq]; omega
  rw [bytes_write h, blit, ← hi, List.take_left' rfl]

/-- Bytes behind a write are untouched. -/
theorem drop_write {b : Buffer n} {i : ℕ} {xs : List UInt8} (h : i + xs.length ≤ n) :
    (b.write i xs).bytes.drop (i + xs.length) = b.bytes.drop (i + xs.length) := by
  have hi : (b.bytes.take i ++ xs).length = i + xs.length := by
    simp [b.length_eq]; omega
  rw [bytes_write h, blit]
  exact List.drop_left' hi

theorem take_write_zero {b : Buffer n} {xs : List UInt8} (h : xs.length ≤ n) :
    (b.write 0 xs).bytes.take xs.length = xs := by
  have hfit : 0 + xs.length ≤ n := by omega
  simpa using take_write hfit

end Buffer

end Yotta.Bytes
