import Yotta.Http.Response
import Yotta.Lib.Calendar

/-!
# Dates in headers

`strptime` on what `strftime` writes with `http_time_format()` (`http/yta_http.hpp`, line
26).

Result:
* `strptime_httpDate`: the date of a time from 1970 through 9999 is read back, whatever
  follows it.
-/

namespace Yotta.Http

open Yotta.Bytes Yotta.Numeral Yotta.Time

theorem httpTimeFormat_eq : httpTimeFormat =
    [37, 97, 44, 32, 37, 100, 32, 37, 98, 32, 37, 89, 32, 37, 72, 58, 37, 77, 58, 37, 83, 32,
      37, 90] := by
  decide

/-! ## One field -/

theorem readField_weekday {i : ℕ} (h : i < 7) (rest : List UInt8) (tm : Tm) :
    readField 97 (abbreviation weekdayNames i ++ 44 :: rest) tm =
      some ({ tm with wday := i }, 44 :: rest) :=
  congrArg (Option.map _) (readNames_weekday h rest)

theorem readField_month {i : ℕ} (h : i < 12) (rest : List UInt8) (tm : Tm) :
    readField 98 (abbreviation monthNames i ++ space :: rest) tm =
      some ({ tm with mon := i }, space :: rest) :=
  congrArg (Option.map _) (readNames_month h rest)

theorem readField_mday {n : ℕ} (h : 1 ≤ n ∧ n ≤ 31) (rest : List UInt8) (tm : Tm) :
    readField 100 (twoDigits n ++ rest) tm = some ({ tm with mday := n }, rest) :=
  congrArg (Option.map _) (readNumber_twoDigits (by omega) h.1 h.2 rest)

theorem readField_hour {n : ℕ} (h : n ≤ 23) (rest : List UInt8) (tm : Tm) :
    readField 72 (twoDigits n ++ rest) tm = some ({ tm with hour := n }, rest) :=
  congrArg (Option.map _) (readNumber_twoDigits (by omega) (Nat.zero_le n) h rest)

theorem readField_min {n : ℕ} (h : n ≤ 59) (rest : List UInt8) (tm : Tm) :
    readField 77 (twoDigits n ++ rest) tm = some ({ tm with min := n }, rest) :=
  congrArg (Option.map _) (readNumber_twoDigits (by omega) (Nat.zero_le n) h rest)

theorem readField_sec {n : ℕ} (h : n ≤ 59) (rest : List UInt8) (tm : Tm) :
    readField 83 (twoDigits n ++ rest) tm = some ({ tm with sec := n }, rest) :=
  congrArg (Option.map _) (readNumber_twoDigits (by omega) (Nat.zero_le n) (by omega) rest)

theorem readField_year {y : ℤ} (h : 1970 ≤ y ∧ y ≤ 9999) (rest : List UInt8) (tm : Tm) :
    readField 89 (signedDecimal y ++ rest) tm = some ({ tm with year := y }, rest) := by
  have hread := congrArg (Option.map fun x : ℕ × List UInt8 =>
    ({ tm with year := (x.1 : ℤ) }, x.2)) (readNumber_year h rest)
  have habs : (y.natAbs : ℤ) = y := Int.natAbs_of_nonneg (by omega)
  rw [Option.map_some, habs] at hread
  exact hread

/-! ## The date -/

theorem dropWhile_blank_digits {digits : List UInt8} (hne : digits ≠ [])
    (hd : ∀ c ∈ digits, isDigit c) (rest : List UInt8) :
    (space :: (digits ++ rest)).dropWhile isSpace = digits ++ rest := by
  obtain ⟨c, digits', rfl⟩ := List.exists_cons_of_ne_nil hne
  have hc := not_isSpace_of_digit (hd c List.mem_cons_self)
  rw [List.dropWhile_cons_of_pos (by decide), List.cons_append, List.dropWhile_cons_of_neg hc]

theorem dropWhile_blank_month {i : ℕ} (h : i < 12) (rest : List UInt8) :
    (space :: (abbreviation monthNames i ++ rest)).dropWhile isSpace =
      abbreviation monthNames i ++ rest := by
  have hhead : ∀ i < 12, ∃ c ∈ (abbreviation monthNames i).head?, isSpace c = false := by
    decide
  obtain ⟨c, hc, hspace⟩ := hhead i h
  obtain ⟨t, ht⟩ := List.head?_eq_some_iff.mp hc
  rw [ht, List.dropWhile_cons_of_pos (by decide), List.cons_append,
    List.dropWhile_cons_of_neg (by simp [hspace])]

theorem twoDigits_ne_nil {n : ℕ} (h : n < 100) : twoDigits n ≠ [] := by
  intro hnil
  have hlen := (twoDigits_spec h).1
  rw [hnil] at hlen
  cases hlen

/-- **Dates.** The date of valid members is read back. -/
theorem strptime_httpDate {tm : Tm} (h : tm.Valid) (rest : List UInt8) (tm₀ : Tm) :
    strptime httpTimeFormat (strftime httpTimeFormat tm ++ rest) tm₀ = some tm := by
  have htext : strftime httpTimeFormat tm ++ rest =
      abbreviation weekdayNames tm.wday ++ 44 :: space :: (twoDigits tm.mday ++
        space :: (abbreviation monthNames tm.mon ++ space :: (signedDecimal tm.year ++
        space :: (twoDigits tm.hour ++ 58 :: (twoDigits tm.min ++ 58 :: (twoDigits tm.sec ++
        space :: (ascii "GMT" ++ rest))))))) := by
    rw [strftime_httpTimeFormat]
    simp [formatField, ascii]
  have hyear : signedDecimal tm.year ≠ [] ∧ ∀ c ∈ signedDecimal tm.year, isDigit c := by
    rw [signedDecimal_of_nonneg (by have := h.year; omega)]
    exact ⟨decimal_ne_nil _, decimal_digits _⟩
  have hmday100 : tm.mday < 100 := Nat.lt_of_le_of_lt h.mday.2 (by decide)
  have hhour100 : tm.hour < 100 := Nat.lt_of_le_of_lt h.hour (by decide)
  rw [htext, httpTimeFormat_eq]
  rw [strptime_field (readField_weekday h.wday _ _),
    strptime_literal (by decide) (by decide), strptime_blank rfl,
    dropWhile_blank_digits (twoDigits_ne_nil hmday100) (twoDigits_spec hmday100).2.1,
    strptime_field (readField_mday h.mday _ _),
    strptime_blank rfl, dropWhile_blank_month h.mon,
    strptime_field (readField_month h.mon _ _),
    strptime_blank rfl, dropWhile_blank_digits hyear.1 hyear.2,
    strptime_field (readField_year h.year _ _),
    strptime_blank rfl,
    dropWhile_blank_digits (twoDigits_ne_nil hhour100) (twoDigits_spec hhour100).2.1,
    strptime_field (readField_hour h.hour _ _),
    strptime_literal (by decide) (by decide),
    strptime_field (readField_min h.min _ _),
    strptime_literal (by decide) (by decide),
    strptime_field (readField_sec h.sec _ _),
    strptime_blank rfl, strptime_zone]

/-- The date of a time from 1970 through 9999 decodes to that time. -/
theorem timegm_strptime_httpDate {t : ℤ} (h : 0 ≤ t ∧ t < 253402300800) (rest : List UInt8)
    (tm : Tm) :
    (strptime httpTimeFormat (strftime httpTimeFormat (brokenDown t) ++ rest) tm).map timegm =
      some t := by
  rw [strptime_httpDate (brokenDown_valid h), Option.map_some, timegm_brokenDown]

end Yotta.Http
