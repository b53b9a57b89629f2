import Yotta.Lib.Numeral

/-!
# Calendar time

`gmtime`, `timegm`, `strftime` and `strptime` in the C locale, for the
conversions `%a %b %d %Y %H %M %S %Z`.

A `time_t` is an integer number of seconds, and the calendar is the proleptic
Gregorian one. `strptime` reads a NUL-terminated string, given here as its
bytes: a blank in the format matches any run of white space, names match in any
case and in full or abbreviated, numbers may follow white space, and `%Z` skips a
word.
-/

namespace Yotta.Time

open Yotta.Bytes Yotta.Numeral

/-- `struct tm`; `year` is `tm_year + 1900`. -/
structure Tm where
  sec : ℕ
  min : ℕ
  hour : ℕ
  mday : ℕ
  /-- months since January -/
  mon : ℕ
  year : ℤ
  /-- days since Sunday -/
  wday : ℕ
deriving DecidableEq

/-! ## Dates -/

/-- Year, month since January and day of the month of a day counted from
1970-01-01. Years are taken to begin in March, so that the leap day comes last. -/
def civil (days : ℤ) : ℤ × ℕ × ℕ :=
  let z := days + 719468
  let era := z / 146097
  let doe := (z % 146097).toNat
  let yoe := (doe - doe / 1460 + doe / 36524 - doe / 146096) / 365
  let doy := doe - (365 * yoe + yoe / 4 - yoe / 100)
  let mp := (5 * doy + 2) / 153
  let mday := doy - (153 * mp + 2) / 5 + 1
  let mon := if mp < 10 then mp + 2 else mp - 10
  (yoe + era * 400 + (if mon < 2 then 1 else 0), mon, mday)

/-- The day, counted from 1970-01-01, of a date. -/
def daysFromCivil (year : ℤ) (mon mday : ℕ) : ℤ :=
  let y := if mon < 2 then year - 1 else year
  let era := y / 400
  let yoe := (y % 400).toNat
  let mp := if mon < 2 then mon + 10 else mon - 2
  let doy := (153 * mp + 2) / 5 + mday
  let doe := yoe * 365 + yoe / 4 - yoe / 100 + doy
  era * 146097 + doe - 719469

/-- The members of a time, in any year. -/
def brokenDown (t : ℤ) : Tm :=
  let days := t / 86400
  let secs := (t % 86400).toNat
  let (year, mon, mday) := civil days
  { sec := secs % 60, min := secs / 60 % 60, hour := secs / 3600, mday, mon, year
    wday := ((days + 4) % 7).toNat }

/-- `tm_year` is an `int`. -/
def Representable (t : ℤ) : Prop :=
  -2 ^ 31 ≤ (brokenDown t).year - 1900 ∧ (brokenDown t).year - 1900 < 2 ^ 31

instance : DecidablePred Representable := fun _ => inferInstanceAs (Decidable (_ ∧ _))

/-- `gmtime(&t)`, `none` for `NULL`. -/
def gmtime (t : ℤ) : Option Tm := if Representable t then some (brokenDown t) else none

theorem gmtime_of_representable {t : ℤ} (h : Representable t) : gmtime t = some (brokenDown t) :=
  if_pos h

/-- `timegm(&tm)`. -/
def timegm (tm : Tm) : ℤ :=
  daysFromCivil tm.year tm.mon tm.mday * 86400 + tm.hour * 3600 + tm.min * 60 + tm.sec

/-! ## Names -/

def weekdayNames : List (List UInt8) :=
  ["Sunday", "Monday", "Tuesday", "Wednesday", "Thursday", "Friday", "Saturday"].map ascii

def monthNames : List (List UInt8) :=
  ["January", "February", "March", "April", "May", "June", "July", "August", "September",
    "October", "November", "December"].map ascii

/-- The name at `i`, cut to three bytes; `?` outside the table. -/
def abbreviation (names : List (List UInt8)) (i : ℕ) : List UInt8 :=
  ((names[i]?).getD (ascii "?")).take 3

/-- A number in at least two digits. -/
def twoDigits (n : ℕ) : List UInt8 := if n < 10 then ascii "0" ++ decimal n else decimal n

/-- A signed number. -/
def signedDecimal (x : ℤ) : List UInt8 :=
  if x < 0 then minus :: decimal x.natAbs else decimal x.natAbs

theorem signedDecimal_of_nonneg {x : ℤ} (h : 0 ≤ x) : signedDecimal x = decimal x.natAbs :=
  if_neg (by omega)

theorem signedDecimal_ne_nil (x : ℤ) : signedDecimal x ≠ [] := by
  unfold signedDecimal
  split
  · exact List.cons_ne_nil _ _
  · exact decimal_ne_nil _

/-! ## `strftime` -/

/-- The text of a conversion. -/
def formatField (conversion : UInt8) (tm : Tm) : List UInt8 :=
  match Char.ofNat conversion.toNat with
  | 'a' => abbreviation weekdayNames tm.wday
  | 'b' => abbreviation monthNames tm.mon
  | 'd' => twoDigits tm.mday
  | 'Y' => signedDecimal tm.year
  | 'H' => twoDigits tm.hour
  | 'M' => twoDigits tm.min
  | 'S' => twoDigits tm.sec
  | 'Z' => ascii "GMT"
  | _ => []

/-- `strftime(buf, _, format, &tm)` for a `tm` that `gmtime` filled in. -/
def strftime : List UInt8 → Tm → List UInt8
  | [], _ => []
  | [c], _ => [c]
  | c :: d :: format, tm =>
    if c = 37 then formatField d tm ++ strftime format tm else c :: strftime (d :: format) tm

theorem civil_bounds {days : ℤ} (h : -2 ^ 63 ≤ days ∧ days < 2 ^ 63) :
    -2 ^ 63 ≤ (civil days).1 ∧ (civil days).1 < 2 ^ 63 ∧ (civil days).2.2 < 2 ^ 63 := by
  obtain ⟨doe, hdoe⟩ : ∃ doe : ℕ, ((days + 719468) % 146097).toNat = doe := ⟨_, rfl⟩
  have hlt : doe < 146097 := by omega
  simp only [civil, hdoe]
  have hyoe : (doe - doe / 1460 + doe / 36524 - doe / 146096) / 365 ≤ 800 := by omega
  refine ⟨?_, ?_, by omega⟩ <;> split_ifs <;> omega

/-- A field of a date takes at most 21 bytes. -/
theorem length_formatField_le {t : ℤ} (ht : -2 ^ 63 ≤ t ∧ t < 2 ^ 63) (conversion : UInt8) :
    (formatField conversion (brokenDown t)).length ≤ 21 := by
  have habbr : ∀ names i, (abbreviation names i).length ≤ 21 := by
    intro names i
    rw [abbreviation, List.length_take]
    omega
  have htwo : ∀ n, n < 2 ^ 64 → (twoDigits n).length ≤ 21 := by
    intro n hn
    have := length_decimal_le_of_lt hn
    rw [twoDigits]
    split_ifs
    · rw [List.length_append, show (ascii "0").length = 1 from rfl]
      omega
    · omega
  have hyear : ∀ x : ℤ, -2 ^ 63 ≤ x ∧ x < 2 ^ 63 → (signedDecimal x).length ≤ 21 := by
    intro x hx
    have := length_decimal_le_of_lt (n := x.natAbs) (by omega)
    rw [signedDecimal]
    split_ifs
    · rw [List.length_cons]
      omega
    · omega
  have hdays : -2 ^ 63 ≤ t / 86400 ∧ t / 86400 < 2 ^ 63 := by omega
  obtain ⟨hlo, hhi, hmday⟩ := civil_bounds hdays
  unfold formatField brokenDown
  dsimp only
  split
  · exact habbr _ _
  · exact habbr _ _
  · exact htwo _ (hmday.trans (by omega))
  · exact hyear _ ⟨hlo, hhi⟩
  · exact htwo _ (by omega)
  · exact htwo _ (by omega)
  · exact htwo _ (by omega)
  · exact (by decide : (ascii "GMT").length ≤ 21)
  · exact Nat.zero_le _

/-! ## `strptime` -/

def toLower (c : UInt8) : UInt8 := if 65 ≤ c && c ≤ 90 then c + 32 else c

/-- Reads a given name, in any case. -/
def readName (name s : List UInt8) : Option (List UInt8) :=
  if (s.take name.length).map toLower = name.map toLower then some (s.drop name.length) else none

/-- Reads one of the names, in full or abbreviated to three bytes; `i` is the
index of the first one. -/
def readNames (s : List UInt8) : ℕ → List (List UInt8) → Option (ℕ × List UInt8)
  | _, [] => none
  | i, name :: names =>
    match (readName name s).or (readName (name.take 3) s) with
    | some rest => some (i, rest)
    | none => readNames s (i + 1) names

/-- At most `n` digits behind the value `v`, as long as the value may still be at
most `hi`. -/
def readDigits (hi : ℕ) : ℕ → ℕ → List UInt8 → ℕ × List UInt8
  | 0, v, s => (v, s)
  | _ + 1, v, [] => (v, [])
  | n + 1, v, c :: s =>
    if isDigit c ∧ v * 10 ≤ hi then readDigits hi n (v * 10 + digitVal c) s else (v, c :: s)

/-- A number from `lo` to `hi` of at most `n` digits, behind white space. -/
def readNumber (lo hi n : ℕ) (s : List UInt8) : Option (ℕ × List UInt8) :=
  let s := s.dropWhile isSpace
  if s.head?.any isDigit then
    let (v, rest) := readDigits hi n 0 s
    if lo ≤ v ∧ v ≤ hi then some (v, rest) else none
  else none

/-- Reads a conversion into `tm`. -/
def readField (conversion : UInt8) (s : List UInt8) (tm : Tm) : Option (Tm × List UInt8) :=
  match Char.ofNat conversion.toNat with
  | 'a' => (readNames s 0 weekdayNames).map fun (i, s) => ({ tm with wday := i }, s)
  | 'b' => (readNames s 0 monthNames).map fun (i, s) => ({ tm with mon := i }, s)
  | 'd' => (readNumber 1 31 2 s).map fun (v, s) => ({ tm with mday := v }, s)
  | 'Y' => (readNumber 0 9999 4 s).map fun (v, s) => ({ tm with year := v }, s)
  | 'H' => (readNumber 0 23 2 s).map fun (v, s) => ({ tm with hour := v }, s)
  | 'M' => (readNumber 0 59 2 s).map fun (v, s) => ({ tm with min := v }, s)
  | 'S' => (readNumber 0 61 2 s).map fun (v, s) => ({ tm with sec := v }, s)
  | 'Z' => some (tm, (s.dropWhile isSpace).dropWhile fun c => !isSpace c)
  | _ => none

/-- `strptime(s, format, &tm)` for the C string `s`; the result is `tm`, or `none`
for `NULL`. -/
def strptime : List UInt8 → List UInt8 → Tm → Option Tm
  | [], _, tm => some tm
  | c :: format, s, tm =>
    if c = 37 then
      match format with
      | [] => none
      | d :: format =>
        match readField d s tm with
        | some (tm, s) => strptime format s tm
        | none => none
    else if isSpace c then strptime format (s.dropWhile isSpace) tm
    else
      match s with
      | [] => none
      | x :: s => if x = c then strptime format s tm else none

end Yotta.Time
