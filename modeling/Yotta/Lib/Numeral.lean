import Yotta.Lib.Bytes

/-!
# Integers and their decimal text

The conversions between the integer types of C, `sprintf` with `%lu`, and
`std::stoi`.

Results:
* `leadingInt_eq_some_iff`: what `strtol` reads is given by a grammar (blanks, a
  sign, a longest run of digits), and so is the text that `std::stoi` accepts
  (`stoi_eq_ok_iff`).
-/

namespace Yotta.Numeral

open Yotta.Bytes

/-! ## Integer types -/

/-- A value stored in an `int`. -/
def toInt (x : ℤ) : ℤ := Int.bmod x (2 ^ 32)

/-- A value stored in a `size_t`. -/
def toSize (x : ℤ) : ℕ := (x % 2 ^ 64).toNat

theorem toInt_eq {x : ℤ} (h : -2 ^ 31 ≤ x ∧ x < 2 ^ 31) : toInt x = x :=
  Int.bmod_eq_of_le (by omega) (by omega)

theorem toInt_bounds (x : ℤ) : -2 ^ 31 ≤ toInt x ∧ toInt x < 2 ^ 31 := by
  have h1 := Int.le_bmod (x := x) (m := 2 ^ 32) (by omega)
  have h2 := Int.bmod_lt (x := x) (m := 2 ^ 32) (by omega)
  unfold toInt
  omega

/-- What an `int` makes of a count is the count exactly below `2 ^ 31`. -/
theorem toInt_natCast {n : ℕ} : toInt n = n ↔ n < 2 ^ 31 := by
  constructor
  · intro h
    have := (toInt_bounds n).2
    omega
  · intro h
    exact toInt_eq (by omega)

theorem toSize_eq {x : ℤ} (h : 0 ≤ x ∧ x < 2 ^ 64) : (toSize x : ℤ) = x := by
  unfold toSize
  omega

theorem toSize_lt (x : ℤ) : toSize x < 2 ^ 64 := by
  unfold toSize
  omega

/-- A value that fits an `int`, unchanged. -/
def asInt (x : ℤ) : Option ℤ := if -2 ^ 31 ≤ x ∧ x < 2 ^ 31 then some x else none

/-- A value that fits a `size_t`, unchanged. -/
def asSize (x : ℤ) : Option ℕ := if 0 ≤ x ∧ x < 2 ^ 64 then some x.toNat else none

theorem asInt_eq {x : ℤ} (h : -2 ^ 31 ≤ x ∧ x < 2 ^ 31) : asInt x = some x := if_pos h

theorem asSize_eq {x : ℤ} (h : 0 ≤ x ∧ x < 2 ^ 64) : asSize x = some x.toNat := if_pos h

/-! ## Decimal text -/

abbrev plus : UInt8 := 43
abbrev minus : UInt8 := 45

/-- `isspace` in the C locale. -/
def isSpace (c : UInt8) : Bool := c == space || 9 ≤ c && c ≤ 13

def isDigit (c : UInt8) : Bool := 48 ≤ c && c ≤ 57

def digitVal (c : UInt8) : ℕ := c.toNat - 48

/-- The number a run of digits stands for. -/
def value (digits : List UInt8) : ℕ := digits.foldl (fun v c => 10 * v + digitVal c) 0

/-- `sprintf(buf, "%lu", n)`. -/
def decimal (n : ℕ) : List UInt8 := (Nat.toDigits 10 n).map fun c => UInt8.ofNat c.toNat

/-- The byte of a digit. -/
def digitByte (d : ℕ) : UInt8 := UInt8.ofNat (Nat.digitChar d).toNat

theorem digitVal_digitByte : ∀ d, d < 10 → digitVal (digitByte d) = d := by decide

/-- The last digit comes off the end. -/
theorem decimal_eq (n : ℕ) :
    decimal n = (if n < 10 then [] else decimal (n / 10)) ++ [digitByte (n % 10)] := by
  unfold decimal
  rw [Nat.toDigits_eq_if (by omega)]
  split_ifs with h
  · rw [Nat.mod_eq_of_lt h]
    rfl
  · simp [digitByte]

theorem decimal_ne_nil (n : ℕ) : decimal n ≠ [] := by
  rw [decimal_eq]
  exact List.append_ne_nil_of_right_ne_nil _ (List.cons_ne_nil _ _)

theorem value_append_digit (s : List UInt8) {d : ℕ} (hd : d < 10) :
    value (s ++ [digitByte d]) = 10 * value s + d := by
  rw [value, List.foldl_append]
  simp [value, digitVal_digitByte d hd]

theorem value_decimal (n : ℕ) : value (decimal n) = n := by
  induction n using Nat.strong_induction_on with
  | _ n ih =>
    rw [decimal_eq, value_append_digit _ (Nat.mod_lt _ (by omega))]
    split_ifs with h
    · simp [value]
      omega
    · rw [ih (n / 10) (by omega)]
      omega

theorem decimal_injective : Function.Injective decimal :=
  Function.LeftInverse.injective value_decimal

theorem decimal_digits (n : ℕ) : ∀ c ∈ decimal n, isDigit c := by
  induction n using Nat.strong_induction_on with
  | _ n ih =>
    intro c hc
    rw [decimal_eq, List.mem_append, List.mem_singleton] at hc
    rcases hc with hc | rfl
    · split_ifs at hc with hlt
      · simp at hc
      · exact ih (n / 10) (by omega) c hc
    · have hall : ∀ d, d < 10 → isDigit (digitByte d) = true := by decide
      exact hall _ (Nat.mod_lt _ (by omega))

theorem length_decimal_of_lt {n : ℕ} (h : n < 10) : (decimal n).length = 1 := by
  rw [decimal_eq, if_pos h]
  rfl

theorem length_decimal_of_le {n : ℕ} (h : 10 ≤ n) :
    (decimal n).length = (decimal (n / 10)).length + 1 := by
  rw [decimal_eq, if_neg (Nat.not_lt.mpr h), List.length_append]
  rfl

theorem length_decimal_le {n k : ℕ} (hk : 0 < k) (h : n < 10 ^ k) : (decimal n).length ≤ k := by
  rw [decimal, List.length_map]
  exact Nat.toDigits_length 10 n k hk h

theorem length_decimal_le_of_lt {n : ℕ} (h : n < 2 ^ 64) : (decimal n).length ≤ 20 :=
  length_decimal_le (by omega) (by omega)

/-! ## Reading an integer -/

/-- An optional sign. -/
def readSign : List UInt8 → Bool × List UInt8
  | [] => (false, [])
  | c :: s => if c = minus then (true, s) else if c = plus then (false, s) else (false, c :: s)

/-- The integer at the front of a text, as `strtol` reads it in base 10. -/
def leadingInt (s : List UInt8) : Option ℤ :=
  let (negative, s) := readSign (s.dropWhile isSpace)
  let digits := s.takeWhile isDigit
  if digits = [] then none
  else some (if negative then -(value digits : ℤ) else value digits)

/-- The exceptions `std::stoi` throws. -/
inductive StdException
  | invalidArgument
  | outOfRange
deriving DecidableEq

/-- `std::stoi(s)`. -/
def stoi (s : List UInt8) : Except StdException ℤ :=
  match leadingInt s with
  | none => .error .invalidArgument
  | some v => if -2 ^ 31 ≤ v ∧ v < 2 ^ 31 then .ok v else .error .outOfRange

/-- `s` begins with blanks, a sign and a longest run of digits that stand for
`v`. -/
structure LeadsWith (s : List UInt8) (v : ℤ) : Prop where
  split : ∃ blanks sign digits rest : List UInt8, s = blanks ++ sign ++ digits ++ rest ∧
    (∀ c ∈ blanks, isSpace c) ∧ (sign = [] ∨ sign = [plus] ∨ sign = [minus]) ∧
    digits ≠ [] ∧ (∀ c ∈ digits, isDigit c) ∧ (∀ c ∈ rest.head?, ¬ isDigit c) ∧
    v = if sign = [minus] then -(value digits : ℤ) else value digits

theorem isSpace_iff (c : UInt8) : isSpace c ↔ c.toNat = 32 ∨ 9 ≤ c.toNat ∧ c.toNat ≤ 13 := by
  simp [isSpace, space, ← UInt8.toNat_inj, UInt8.le_iff_toNat_le]

theorem isDigit_iff (c : UInt8) : isDigit c ↔ 48 ≤ c.toNat ∧ c.toNat ≤ 57 := by
  simp [isDigit, UInt8.le_iff_toNat_le]

/-- Signs and digits are told apart by their first byte. -/
theorem readSign_append {sign : List UInt8} (hsign : sign = [] ∨ sign = [plus] ∨ sign = [minus])
    {c : UInt8} (hc : isDigit c) (s : List UInt8) :
    readSign (sign ++ c :: s) = (decide (sign = [minus]), c :: s) := by
  have h1 : c ≠ minus := by rintro rfl; exact absurd hc (by decide)
  have h2 : c ≠ plus := by rintro rfl; exact absurd hc (by decide)
  rcases hsign with rfl | rfl | rfl
  · simp [readSign, h1, h2]
  · simp [readSign, show plus ≠ minus by decide]
  · simp [readSign]

theorem not_isSpace_of_digit {c : UInt8} (hc : isDigit c) : ¬ isSpace c := by
  rw [isSpace_iff]
  rw [isDigit_iff] at hc
  omega

theorem takeWhile_append_of_head {p : UInt8 → Bool} {l rest : List UInt8} (hl : ∀ c ∈ l, p c)
    (hrest : ∀ c ∈ rest.head?, ¬ p c) : (l ++ rest).takeWhile p = l := by
  rw [List.takeWhile_append_of_pos (by simpa using hl)]
  cases rest with
  | nil => simp
  | cons c rest => simp [show p c = false by simpa using hrest c (by simp)]

theorem dropWhile_append_of_head {p : UInt8 → Bool} {l rest : List UInt8} (hl : ∀ c ∈ l, p c)
    (hrest : ∀ c ∈ rest.head?, ¬ p c) : (l ++ rest).dropWhile p = rest := by
  rw [List.dropWhile_append_of_pos (by simpa using hl)]
  cases rest with
  | nil => simp
  | cons c rest => simp [show p c = false by simpa using hrest c (by simp)]

theorem head?_dropWhile_not (p : UInt8 → Bool) (s : List UInt8) :
    ∀ c ∈ (s.dropWhile p).head?, ¬ p c := by
  intro c hc
  have h := List.head?_dropWhile_not p s
  rw [Option.mem_def.mp hc] at h
  simpa using h

theorem leadingInt_of_leadsWith {s : List UInt8} {v : ℤ} (h : LeadsWith s v) :
    leadingInt s = some v := by
  obtain ⟨blanks, sign, digits, rest, rfl, hb, hsign, hne, hd, hr, rfl⟩ := h.split
  obtain ⟨d, ds, rfl⟩ := List.exists_cons_of_ne_nil hne
  have hd0 : isDigit d := hd d (by simp)
  have hdrop : (blanks ++ sign ++ (d :: ds) ++ rest).dropWhile isSpace =
      sign ++ (d :: ds) ++ rest := by
    rw [List.append_assoc, List.append_assoc, dropWhile_append_of_head hb, List.append_assoc]
    rcases hsign with rfl | rfl | rfl
    · simpa using not_isSpace_of_digit hd0
    · simp [show isSpace plus = false by decide]
    · simp [show isSpace minus = false by decide]
  have hdigits := takeWhile_append_of_head hd hr
  rw [List.append_assoc sign, List.cons_append] at hdrop
  rw [List.cons_append] at hdigits
  rw [leadingInt, hdrop, readSign_append hsign hd0]
  simp only [hdigits, decide_eq_true_eq]
  rw [if_neg hne]

theorem leadingInt_decimal (n : ℕ) {rest : List UInt8} (hrest : ∀ c ∈ rest.head?, ¬ isDigit c) :
    leadingInt (decimal n ++ rest) = some (n : ℤ) := by
  apply leadingInt_of_leadsWith
  exact ⟨[], [], decimal n, rest, rfl, by simp, Or.inl rfl, decimal_ne_nil n,
    decimal_digits n, hrest, by simp [value_decimal]⟩

theorem readSign_spec (s : List UInt8) : ∃ sign, s = sign ++ (readSign s).2 ∧
    (sign = [] ∨ sign = [plus] ∨ sign = [minus]) ∧ ((readSign s).1 = true ↔ sign = [minus]) := by
  cases s with
  | nil => exact ⟨[], by simp [readSign]⟩
  | cons c s =>
    by_cases h1 : c = minus
    · exact ⟨[minus], by simp [readSign, h1]⟩
    by_cases h2 : c = plus
    · exact ⟨[plus], by simp [readSign, h2, show plus ≠ minus by decide]⟩
    · exact ⟨[], by simp [readSign, h1, h2]⟩

theorem leadingInt_eq_some_iff {s : List UInt8} {v : ℤ} :
    leadingInt s = some v ↔ LeadsWith s v := by
  refine ⟨fun h => ⟨?_⟩, leadingInt_of_leadsWith⟩
  obtain ⟨sign, hs, hsign, hneg⟩ := readSign_spec (s.dropWhile isSpace)
  rw [leadingInt] at h
  generalize readSign (s.dropWhile isSpace) = p at hs hneg h
  obtain ⟨negative, t⟩ := p
  simp only at hs hneg h
  by_cases hnil : t.takeWhile isDigit = []
  · simp [hnil] at h
  rw [if_neg hnil] at h
  refine ⟨s.takeWhile isSpace, sign, t.takeWhile isDigit, t.dropWhile isDigit, ?_,
    fun c hc => List.mem_takeWhile_imp hc, hsign, hnil, fun c hc => List.mem_takeWhile_imp hc,
    head?_dropWhile_not isDigit t, ?_⟩
  · rw [List.append_assoc, List.append_assoc, List.takeWhile_append_dropWhile, ← hs,
      List.takeWhile_append_dropWhile]
  · simp only [Option.some.injEq, hneg] at h
    exact h.symm

/-- `std::stoi` accepts exactly the texts that begin with an integer in the range
of `int`. -/
theorem stoi_eq_ok_iff {s : List UInt8} {v : ℤ} :
    stoi s = .ok v ↔ LeadsWith s v ∧ -2 ^ 31 ≤ v ∧ v < 2 ^ 31 := by
  rw [stoi, ← leadingInt_eq_some_iff]
  cases leadingInt s with
  | none => simp
  | some w =>
    simp only [Option.some.injEq]
    split_ifs with h
    · simp only [Except.ok.injEq]
      refine ⟨?_, And.left⟩
      rintro rfl
      exact ⟨rfl, h⟩
    · simp only [false_iff, not_and]
      rintro rfl h1 h2
      exact h ⟨h1, h2⟩

/-- Without a `-` in the text the value is not negative. -/
theorem LeadsWith.nonneg {s : List UInt8} {v : ℤ} (h : LeadsWith s v) (hs : minus ∉ s) :
    0 ≤ v := by
  obtain ⟨blanks, sign, digits, rest, rfl, -, -, -, -, -, rfl⟩ := h.split
  have : sign ≠ [minus] := by rintro rfl; simp at hs
  simp [this]

end Yotta.Numeral
