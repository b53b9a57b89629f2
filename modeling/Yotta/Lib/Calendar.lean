import Yotta.Lib.Time

/-!
# Calendar time, there and back

Results:
* `timegm_brokenDown`: `timegm` takes a time back from its members, on all of the integers.
* `brokenDown_valid`: from 1970 through 9999, the members of a time are in their ranges.
* `readNumber_twoDigits`, `readNumber_year`, `readNames_weekday` and `readNames_month`: what
  `strftime` prints of a member, `strptime` reads, whatever follows.
* `strptime_field` and its companions: `strptime` on each kind of element of a format.
-/

namespace Yotta.Time

open Yotta.Bytes Yotta.Numeral

/-! ## Years of an era -/

/-- The days of an era in front of its year `yoe`. -/
def daysBefore (yoe : ℕ) : ℕ := 365 * yoe + yoe / 4 - yoe / 100

/-- The year of a day is in the century of the day. -/
theorem yoe_century {k doe yoe : ℕ} (hk : k < 4) (hlo : 36524 * k ≤ doe)
    (hhi : doe < 36524 * (k + 1))
    (hyoe : (doe - doe / 1460 + doe / 36524 - doe / 146096) / 365 = yoe) :
    (doe - doe / 1460 + k) / 365 = yoe ∧ yoe / 100 = k := by
  have hcentury : doe / 36524 = k := by omega
  have hera : doe / 146096 = 0 := by omega
  rw [hcentury, hera, Nat.sub_zero] at hyoe
  refine ⟨hyoe, ?_⟩
  interval_cases k <;> omega

/-- A day lies in its year. -/
theorem daysBefore_le {doe yoe : ℕ} (h : doe < 146097)
    (hyoe : (doe - doe / 1460 + doe / 36524 - doe / 146096) / 365 = yoe) :
    yoe < 400 ∧ daysBefore yoe ≤ doe ∧ doe - daysBefore yoe ≤ 365 := by
  unfold daysBefore
  by_cases hlast : doe = 146096
  · subst hlast
    obtain rfl : yoe = 399 := by omega
    omega
  obtain ⟨k, hk⟩ : ∃ k, doe / 36524 = k := ⟨_, rfl⟩
  have hk4 : k < 4 := by omega
  obtain ⟨hyoe, hcentury⟩ := yoe_century hk4 (by omega) (by omega) hyoe
  -- the leap days in front of the year, from those in front of the day
  obtain ⟨b, s, hs, rfl⟩ : ∃ b s, s < 4 ∧ yoe = 4 * b + s :=
    ⟨yoe / 4, yoe % 4, by omega, by omega⟩
  have hb : (4 * b + s) / 4 = b := by omega
  rw [hb, hcentury]
  have hlo : 36524 * k ≤ doe := by omega
  have hyear : 4 * b + s < 400 := by omega
  obtain ⟨q, hq⟩ : ∃ q, doe / 1460 = q := ⟨_, rfl⟩
  have hquot : 1460 * q ≤ doe ∧ doe < 1460 * q + 1460 := by omega
  have hdays : 365 * (4 * b + s) ≤ doe - q + k ∧ doe - q + k < 365 * (4 * b + s) + 365 := by
    omega
  clear hq hyoe hk hcentury
  have hleap : b ≤ q ∧ q ≤ b + 1 := by omega
  omega

/-! ## Dates -/

/-- The date of a day: its era, its year in the era, and its day in the year, which begins in
March. -/
theorem civil_eq (days : ℤ) : ∃ (era : ℤ) (yoe doy : ℕ), yoe < 400 ∧ doy ≤ 365 ∧
    days + 719468 = era * 146097 + (daysBefore yoe + doy : ℕ) ∧
    civil days =
      (yoe + era * 400 + (if (5 * doy + 2) / 153 < 10 then 0 else 1),
        if (5 * doy + 2) / 153 < 10 then (5 * doy + 2) / 153 + 2 else (5 * doy + 2) / 153 - 10,
        doy - (153 * ((5 * doy + 2) / 153) + 2) / 5 + 1) := by
  obtain ⟨doe, hdoe⟩ : ∃ doe : ℕ, ((days + 719468) % 146097).toNat = doe := ⟨_, rfl⟩
  obtain ⟨yoe, hyoe⟩ :
      ∃ yoe, (doe - doe / 1460 + doe / 36524 - doe / 146096) / 365 = yoe := ⟨_, rfl⟩
  obtain ⟨hlt, hbefore, hdoy⟩ := daysBefore_le (by omega) hyoe
  refine ⟨(days + 719468) / 146097, yoe, doe - daysBefore yoe, hlt, hdoy, ?_, ?_⟩
  · omega
  · have hmonth : ∀ mp : ℕ, mp ≤ 11 →
        (if (if mp < 10 then mp + 2 else mp - 10) < 2 then (1 : ℤ) else 0) =
          if mp < 10 then 0 else 1 := by
      intro mp hmp
      split_ifs <;> omega
    unfold civil
    simp only [hdoe, hyoe]
    rw [show doe - (365 * yoe + yoe / 4 - yoe / 100) = doe - daysBefore yoe from rfl,
      hmonth _ (by omega)]

/-- `daysFromCivil` is a left inverse of `civil`. -/
theorem daysFromCivil_civil (days : ℤ) :
    daysFromCivil (civil days).1 (civil days).2.1 (civil days).2.2 = days := by
  obtain ⟨era, yoe, doy, hyoe, hdoy, hdays, hcivil⟩ := civil_eq days
  rw [hcivil]
  obtain ⟨mp, hmp⟩ : ∃ mp, (5 * doy + 2) / 153 = mp := ⟨_, rfl⟩
  unfold daysFromCivil
  rw [hmp]
  dsimp only
  have hbefore : 365 * yoe + yoe / 4 - yoe / 100 = daysBefore yoe := rfl
  have hmul : yoe * 365 = 365 * yoe := Nat.mul_comm _ _
  by_cases hmarch : mp < 10
  · rw [if_pos hmarch, if_pos hmarch, if_neg (by omega), if_neg (by omega)]
    have hyear : (yoe + era * 400 + 0) / 400 = era ∧ ((yoe + era * 400 + 0) % 400).toNat = yoe := by
      omega
    rw [hyear.1, hyear.2, hmul, hbefore]
    omega
  · rw [if_neg hmarch, if_neg hmarch, if_pos (by omega), if_pos (by omega)]
    have hyear : (yoe + era * 400 + 1 - 1) / 400 = era ∧
        ((yoe + era * 400 + 1 - 1) % 400).toNat = yoe := by
      omega
    rw [hyear.1, hyear.2, hmul, hbefore]
    omega

/-- **Times.** `timegm` takes back what `gmtime` does. -/
theorem timegm_brokenDown (t : ℤ) : timegm (brokenDown t) = t := by
  unfold timegm brokenDown
  dsimp only
  rw [daysFromCivil_civil]
  omega

/-- The members of a date from 1970 through 9999 are in their ranges. -/
structure Tm.Valid (tm : Tm) : Prop where
  sec : tm.sec ≤ 59
  min : tm.min ≤ 59
  hour : tm.hour ≤ 23
  mday : 1 ≤ tm.mday ∧ tm.mday ≤ 31
  mon : tm.mon < 12
  year : 1970 ≤ tm.year ∧ tm.year ≤ 9999
  wday : tm.wday < 7

/-- A year that begins in March and a day of it, from 1970-01-01 through 9999-12-31. -/
theorem year_bounds {era : ℤ} {yoe doy : ℕ} (hyoe : yoe < 400) (hdoy : doy ≤ 365)
    (hlo : 719468 ≤ era * 146097 + (daysBefore yoe + doy : ℕ))
    (hhi : era * 146097 + (daysBefore yoe + doy : ℕ) ≤ 3652364) :
    1970 ≤ yoe + era * 400 + (if (5 * doy + 2) / 153 < 10 then (0 : ℤ) else 1) ∧
      yoe + era * 400 + (if (5 * doy + 2) / 153 < 10 then (0 : ℤ) else 1) ≤ 9999 := by
  have hbefore : daysBefore yoe + doy ≤ 146096 := by
    unfold daysBefore
    omega
  have hera : 4 ≤ era ∧ era ≤ 24 := by omega
  constructor
  · by_cases hfirst : era = 4 ∧ yoe = 369
    · obtain ⟨rfl, rfl⟩ := hfirst
      have hd : daysBefore 369 = 134774 := rfl
      rw [if_neg (by omega)]
      omega
    · have hlate : era = 4 → 370 ≤ yoe := by
        rintro rfl
        unfold daysBefore at hlo
        omega
      split_ifs <;> omega
  · by_cases hlast : era = 24 ∧ yoe = 399
    · obtain ⟨rfl, rfl⟩ := hlast
      have hd : daysBefore 399 = 145731 := rfl
      rw [if_pos (by omega)]
      omega
    · split_ifs <;> omega

theorem brokenDown_valid {t : ℤ} (h : 0 ≤ t ∧ t < 253402300800) : (brokenDown t).Valid := by
  obtain ⟨era, yoe, doy, hyoe, hdoy, hdays, hcivil⟩ := civil_eq (t / 86400)
  have hmday : 1 ≤ doy - (153 * ((5 * doy + 2) / 153) + 2) / 5 + 1 ∧
      doy - (153 * ((5 * doy + 2) / 153) + 2) / 5 + 1 ≤ 31 := by
    omega
  have hmon : (if (5 * doy + 2) / 153 < 10 then (5 * doy + 2) / 153 + 2
      else (5 * doy + 2) / 153 - 10) < 12 := by
    split_ifs <;> omega
  have hlo : 719468 ≤ era * 146097 + (daysBefore yoe + doy : ℕ) := by omega
  have hhi : era * 146097 + (daysBefore yoe + doy : ℕ) ≤ 3652364 := by omega
  have hyear := year_bounds hyoe hdoy hlo hhi
  unfold brokenDown
  dsimp only
  rw [hcivil]
  refine ⟨?_, ?_, ?_, hmday, hmon, hyear, ?_⟩ <;> dsimp only <;> omega

/-- `gmtime` does not fail before the year 10000. -/
theorem representable_of_fourDigits {t : ℤ} (h : 0 ≤ t ∧ t < 253402300800) :
    Representable t := by
  have hyear := (brokenDown_valid h).year
  exact ⟨by omega, by omega⟩

theorem representable_epoch : Representable 0 := representable_of_fourDigits (by decide)

theorem gmtime_of_fourDigits {t : ℤ} (h : 0 ≤ t ∧ t < 253402300800) :
    gmtime t = some (brokenDown t) :=
  gmtime_of_representable (representable_of_fourDigits h)

/-! ## Numbers -/

/-- A run of digits that stands for at most `hi` is read to its end. -/
theorem readDigits_append {hi : ℕ} {digits : List UInt8} (hd : ∀ c ∈ digits, isDigit c)
    (rest : List UInt8) (v : ℕ)
    (hv : digits.foldl (fun v c => 10 * v + digitVal c) v ≤ hi) :
    readDigits hi digits.length v (digits ++ rest) =
      (digits.foldl (fun v c => 10 * v + digitVal c) v, rest) := by
  induction digits generalizing v with
  | nil => rfl
  | cons c digits ih =>
    rw [List.foldl_cons] at hv
    have hgrow : ∀ (l : List UInt8) (w : ℕ),
        w ≤ l.foldl (fun v c => 10 * v + digitVal c) w := by
      intro l
      induction l with
      | nil => exact fun w => Nat.le_refl w
      | cons d l ihl =>
        intro w
        have := ihl (10 * w + digitVal d)
        rw [List.foldl_cons]
        omega
    have hle := hgrow digits (10 * v + digitVal c)
    rw [List.length_cons, List.cons_append, readDigits,
      if_pos ⟨hd c List.mem_cons_self, by omega⟩, Nat.mul_comm v 10,
      ih (fun d h => hd d (List.mem_cons_of_mem _ h)) _ hv, List.foldl_cons]

/-- A number of as many digits as the field takes. -/
theorem readNumber_append {lo hi : ℕ} {digits : List UInt8} (hne : digits ≠ [])
    (hd : ∀ c ∈ digits, isDigit c) (hlo : lo ≤ value digits) (hhi : value digits ≤ hi)
    (rest : List UInt8) :
    readNumber lo hi digits.length (digits ++ rest) = some (value digits, rest) := by
  obtain ⟨c, digits', rfl⟩ := List.exists_cons_of_ne_nil hne
  have hc := hd c List.mem_cons_self
  have hspace : isSpace c = false := by simpa using not_isSpace_of_digit hc
  have hread := readDigits_append hd rest 0 hhi
  unfold readNumber
  rw [List.cons_append, List.dropWhile_cons_of_neg (by simp [hspace]), ← List.cons_append]
  dsimp only
  rw [hread, if_pos (by simpa using hc)]
  dsimp only
  exact if_pos ⟨hlo, hhi⟩

theorem twoDigits_spec {n : ℕ} (h : n < 100) :
    (twoDigits n).length = 2 ∧ (∀ c ∈ twoDigits n, isDigit c) ∧ value (twoDigits n) = n := by
  unfold twoDigits
  split_ifs with hn
  · refine ⟨?_, ?_, ?_⟩
    · rw [List.length_append, length_decimal_of_lt hn]
      rfl
    · intro c hc
      rcases List.mem_append.mp hc with hc | hc
      · obtain rfl : c = 48 := by simpa [ascii] using hc
        decide
      · exact decimal_digits n c hc
    · have hzero : value (ascii "0" ++ decimal n) = value (decimal n) := rfl
      rw [hzero, value_decimal]
  · refine ⟨?_, decimal_digits n, value_decimal n⟩
    rw [length_decimal_of_le (by omega), length_decimal_of_lt (by omega)]

theorem readNumber_twoDigits {lo hi n : ℕ} (h : n < 100) (hlo : lo ≤ n) (hhi : n ≤ hi)
    (rest : List UInt8) : readNumber lo hi 2 (twoDigits n ++ rest) = some (n, rest) := by
  obtain ⟨hlen, hdigits, hvalue⟩ := twoDigits_spec h
  have hne : twoDigits n ≠ [] := by
    intro hnil
    rw [hnil] at hlen
    cases hlen
  have hread := readNumber_append hne hdigits (hvalue.symm ▸ hlo) (hvalue.symm ▸ hhi) rest
  rwa [hlen, hvalue] at hread

theorem readNumber_year {y : ℤ} (h : 1970 ≤ y ∧ y ≤ 9999) (rest : List UInt8) :
    readNumber 0 9999 4 (signedDecimal y ++ rest) = some (y.natAbs, rest) := by
  have hlen : (decimal y.natAbs).length = 4 := by
    rw [length_decimal_of_le (by omega), length_decimal_of_le (by omega),
      length_decimal_of_le (by omega), length_decimal_of_lt (by omega)]
  have hvalue := value_decimal y.natAbs
  have hread := readNumber_append (decimal_ne_nil y.natAbs) (decimal_digits _)
    (Nat.zero_le _) (show value (decimal y.natAbs) ≤ 9999 by omega) rest
  rw [hlen, hvalue] at hread
  rw [signedDecimal_of_nonneg (by omega), hread]

/-! ## Names -/

/-- Reading a name goes no further than a byte that is in no name. -/
theorem readName_append {name : List UInt8} {c : UInt8}
    (hc : ∀ d ∈ name, toLower c ≠ toLower d) (s rest : List UInt8) :
    readName name (s ++ c :: rest) = (readName name s).map (· ++ c :: rest) := by
  unfold readName
  by_cases hlen : name.length ≤ s.length
  · rw [List.take_append_of_le_length hlen, List.drop_append_of_le_length hlen]
    split_ifs <;> rfl
  · -- the name would have to go on with `c`
    rw [if_neg, if_neg]
    · rfl
    · intro h
      have := congrArg List.length h
      simp only [List.length_map, List.length_take] at this
      omega
    · intro h
      have hget := congrArg (·[s.length]?) h
      simp only [List.getElem?_map, List.getElem?_take] at hget
      rw [if_pos (by omega), List.getElem?_append_right (Nat.le_refl _), Nat.sub_self,
        List.getElem?_cons_zero, List.getElem?_eq_getElem (by omega)] at hget
      exact hc _ (List.getElem_mem _) (Option.some.inj hget)

theorem readNames_append {c : UInt8} (s rest : List UInt8) :
    ∀ (names : List (List UInt8)) (i : ℕ), (∀ name ∈ names, ∀ d ∈ name, toLower c ≠ toLower d) →
      readNames (s ++ c :: rest) i names =
        (readNames s i names).map fun (i, s) => (i, s ++ c :: rest) := by
  intro names
  induction names with
  | nil => exact fun _ _ => rfl
  | cons name names ih =>
    intro i hc
    have hname := hc name List.mem_cons_self
    rw [readNames, readNames, readName_append hname,
      readName_append (fun d hd => hname d (List.mem_of_mem_take hd))]
    cases readName name s with
    | some t => rfl
    | none =>
      cases readName (name.take 3) s with
      | some t => rfl
      | none => exact ih (i + 1) fun n hn => hc n (List.mem_cons_of_mem _ hn)

theorem readNames_weekday {i : ℕ} (h : i < 7) (rest : List UInt8) :
    readNames (abbreviation weekdayNames i ++ 44 :: rest) 0 weekdayNames =
      some (i, 44 :: rest) := by
  have hcomma : ∀ name ∈ weekdayNames, ∀ d ∈ name, toLower 44 ≠ toLower d := by decide +kernel
  have hread : ∀ i < 7, readNames (abbreviation weekdayNames i) 0 weekdayNames = some (i, []) := by
    decide
  rw [readNames_append _ _ _ _ hcomma, hread i h]
  rfl

theorem readNames_month {i : ℕ} (h : i < 12) (rest : List UInt8) :
    readNames (abbreviation monthNames i ++ space :: rest) 0 monthNames =
      some (i, space :: rest) := by
  have hspace : ∀ name ∈ monthNames, ∀ d ∈ name, toLower space ≠ toLower d := by decide +kernel
  have hread : ∀ i < 12, readNames (abbreviation monthNames i) 0 monthNames = some (i, []) := by
    decide
  rw [readNames_append _ _ _ _ hspace, hread i h]
  rfl

/-! ## One element of a format -/

theorem strptime_field {conversion : UInt8} {format s s' : List UInt8} {tm tm' : Tm}
    (h : readField conversion s tm = some (tm', s')) :
    strptime (37 :: conversion :: format) s tm = strptime format s' tm' := by
  rw [strptime.eq_def]
  dsimp only
  rw [if_pos rfl, h]

theorem strptime_field_none {conversion : UInt8} {s : List UInt8} {tm : Tm}
    (h : readField conversion s tm = none) (format : List UInt8) :
    strptime (37 :: conversion :: format) s tm = none := by
  rw [strptime.eq_def]
  dsimp only
  rw [if_pos rfl, h]

theorem strptime_blank {c : UInt8} (hc : isSpace c = true) (format s : List UInt8) (tm : Tm) :
    strptime (c :: format) s tm = strptime format (s.dropWhile isSpace) tm := by
  have hne : c ≠ 37 := by
    rintro rfl
    cases hc
  rw [strptime.eq_def]
  dsimp only
  rw [if_neg hne, if_pos hc]

theorem strptime_literal {c : UInt8} (hc : c ≠ 37) (hspace : isSpace c = false)
    (format s : List UInt8) (tm : Tm) :
    strptime (c :: format) (c :: s) tm = strptime format s tm := by
  rw [strptime.eq_def]
  dsimp only
  rw [if_neg hc, if_neg (by simp [hspace]), if_pos rfl]

/-- A literal is read only where it stands. -/
theorem strptime_literal_none {c : UInt8} (hc : c ≠ 37) (hspace : isSpace c = false)
    {s : List UInt8} (hs : c ∉ s.head?) (format : List UInt8) (tm : Tm) :
    strptime (c :: format) s tm = none := by
  rw [strptime.eq_def]
  dsimp only
  rw [if_neg hc, if_neg (by simp [hspace])]
  cases s with
  | nil => rfl
  | cons x s =>
    have hx : x ≠ c := by
      rintro rfl
      exact hs rfl
    exact if_neg hx

/-- A zone is a word, and is skipped. -/
theorem strptime_zone (s : List UInt8) (tm : Tm) : strptime [37, 90] s tm = some tm := by
  have hread : readField 90 s tm =
      some (tm, (s.dropWhile isSpace).dropWhile fun c => !isSpace c) := rfl
  rw [strptime_field hread]
  rfl

end Yotta.Time
