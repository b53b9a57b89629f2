import Yotta.Lib.Bytes

/-!
# Checked accesses

A region is a pointer with a number of bytes that belong to it; the list `mem` is the
memory from that pointer on. Every access is `none` outside the region, so that a program
made of these accesses returns `some` exactly when it stays inside. A pointer into a
region is its distance from the start, and `decrement` is `none` at the start.
-/

namespace Yotta.Region

open Bytes

variable {size : ℕ} {mem : List UInt8} {i : ℕ}

/-! ## Accesses -/

/-- `mem[i]` -/
def load (size : ℕ) (mem : List UInt8) (i : ℕ) : Option UInt8 :=
  if i < size then some (mem.getD i 0) else none

/-- `mem[i] = c` -/
def store (size : ℕ) (mem : List UInt8) (i : ℕ) (c : UInt8) : Option (List UInt8) :=
  if i < size then some (mem.set i c) else none

/-- `memcpy(mem + i, xs, |xs|)` -/
def copyTo (size : ℕ) (mem : List UInt8) (i : ℕ) (xs : List UInt8) : Option (List UInt8) :=
  if i + xs.length ≤ size then some (blit mem i xs) else none

/-- `memmove(mem + dst, mem + src, n)` -/
def move (size : ℕ) (mem : List UInt8) (dst src n : ℕ) : Option (List UInt8) :=
  if src + n ≤ size then copyTo size mem dst ((mem.drop src).take n) else none

/-- The C string at `mem`, which has to end inside the region. -/
def string (size : ℕ) (mem : List UInt8) : Option (List UInt8) :=
  if 0 ∈ mem.take size then some (cstr mem) else none

/-- The first `n` bytes, as a `string_view` has them. -/
def view (size : ℕ) (mem : List UInt8) (n : ℕ) : Option (List UInt8) :=
  if n ≤ size then some (mem.take n) else none

/-- `--p`, for the distance of `p` from the start of its region. -/
def decrement : ℕ → Option ℕ
  | 0 => none
  | p + 1 => some p

/-! ## Accesses inside the region -/

@[simp] theorem load_of_lt (h : i < size) : load size mem i = some (mem.getD i 0) := if_pos h

@[simp] theorem store_of_lt (h : i < size) (c : UInt8) :
    store size mem i c = some (mem.set i c) := if_pos h

@[simp] theorem copyTo_of_le {xs : List UInt8} (h : i + xs.length ≤ size) :
    copyTo size mem i xs = some (blit mem i xs) := if_pos h

theorem copyTo_of_lt {xs : List UInt8} (h : size < i + xs.length) :
    copyTo size mem i xs = none := if_neg (Nat.not_le_of_lt h)

/-- Moving `a` down to the end of `front` lets the gap between them wander behind it. -/
theorem move_down {front gap a rest : List UInt8}
    (hsize : (front ++ gap ++ (a ++ rest)).length ≤ size) :
    ∃ gap', gap'.length = gap.length ∧
      move size (front ++ gap ++ (a ++ rest)) front.length (front ++ gap).length a.length =
        some (front ++ a ++ gap' ++ rest) := by
  simp only [List.length_append] at hsize
  refine ⟨(gap ++ a).drop a.length, ?_, ?_⟩
  · rw [List.length_drop, List.length_append]
    omega
  · have hread : ((front ++ gap ++ (a ++ rest)).drop (front ++ gap).length).take a.length = a := by
      rw [List.drop_left, List.take_left]
    have hdrop : (front ++ gap ++ (a ++ rest)).drop (front.length + a.length) =
        (gap ++ a).drop a.length ++ rest := by
      rw [List.append_assoc, ← List.append_assoc gap, List.drop_append,
        List.drop_append_of_le_length (by rw [List.length_append]; omega),
        List.drop_eq_nil_of_le (by omega), List.nil_append]
      congr 2
      omega
    have hfrom : (front ++ gap).length + a.length ≤ size := by
      rw [List.length_append]
      omega
    rw [move, if_pos hfrom, hread, copyTo_of_le (by omega), blit, hdrop,
      List.append_assoc front gap, List.take_left, List.append_assoc _ _ rest]

@[simp] theorem view_of_le {n : ℕ} (h : n ≤ size) : view size mem n = some (mem.take n) := if_pos h

@[simp] theorem decrement_of_pos {p : ℕ} (h : 0 < p) : decrement p = some (p - 1) := by
  obtain ⟨q, rfl⟩ := Nat.exists_eq_succ_of_ne_zero (Nat.pos_iff_ne_zero.mp h)
  rfl

/-- A NUL at any index of the region ends the string. -/
theorem string_of_getElem? (h : i < size) (h0 : mem[i]? = some 0) :
    string size mem = some (cstr mem) := by
  apply if_pos
  apply List.mem_of_getElem? (i := i)
  rw [List.getElem?_take_of_lt h]
  exact h0

/-- A C string is no longer than the index of a NUL. -/
theorem length_cstr_le (h0 : mem[i]? = some 0) : (cstr mem).length ≤ i := by
  by_contra hnot
  have hlt : i < (cstr mem).length := Nat.lt_of_not_le hnot
  obtain ⟨_, hget⟩ := List.getElem?_eq_some_iff.mp h0
  have hmem : (0 : UInt8) ∈ cstr mem := by
    rw [← hget, ← (List.takeWhile_prefix (· ≠ 0)).getElem hlt]
    exact List.getElem_mem hlt
  simpa using List.mem_takeWhile_imp hmem

/-! ## Tests that read -/

/-- `mem[i] == c` -/
def loadsTo (size : ℕ) (mem : List UInt8) (i : ℕ) (c : UInt8) : Option Bool :=
  (load size mem i).map (· == c)

@[simp] theorem loadsTo_of_lt (h : i < size) (c : UInt8) :
    loadsTo size mem i c = some (mem.getD i 0 == c) := by
  rw [loadsTo, load_of_lt h, Option.map_some]

/-- `a && b`, where `b` is not evaluated behind a false `a`. -/
theorem andM_some (a : Bool) (b : Option Bool) :
    (some a <&&> b) = if a then b else some false := by
  cases a <;> rfl

/-- `a || b`, where `b` is not evaluated behind a true `a`. -/
theorem orM_some (a : Bool) (b : Option Bool) :
    (some a <||> b) = if a then some true else b := by
  cases a <;> rfl

end Yotta.Region
