import Yotta.Lib.Calendar
import Yotta.Server.Headers

/-!
# Range requests

What `handle_range` (`yotta.cpp`, lines 202–271) does with every header value
and every file size.

Results:
* `handleRange_returns_iff`: it returns exactly when the value has not the shape of a
  range, or `std::stoi` can read its parts and `gmtime` the time of the file.
* `handleRange_wellFormed_iff`: a 206 describes a non-empty part of the file, by
  arithmetic in which no value is changed by its type, exactly when the chosen last byte
  is an `int`, does not lie before the first one, and the two are not `2^31 - 1` apart.
* `handleRange_honours_iff`: which ranges inside of the file are answered with exactly
  the bytes that they ask for.
-/

namespace Yotta.Server

open Yotta.Bytes Yotta.Core Yotta.Http Yotta.Numeral Yotta.Picohttp Yotta.Time

/-! ## Exceptions -/

/-- A text that begins with an integer in the range of `int`. -/
def Readable (s : List UInt8) : Prop := ∃ v, LeadsWith s v ∧ -2 ^ 31 ≤ v ∧ v < 2 ^ 31

theorem readable_iff {s : List UInt8} : Readable s ↔ ∃ v, stoi s = .ok v := by
  simp only [Readable, stoi_eq_ok_iff]

/-- The parts of a range that `std::stoi` is applied to can be read. -/
def PartsReadable (value : List UInt8) : Prop :=
  ∀ first second, RangeShape value first second → Readable first ∧ (second = [] ∨ Readable second)

theorem lastGiven_of_readable {second : List UInt8} (h : second = [] ∨ Readable second) :
    ∃ given, LastGiven second given := by
  by_cases hnil : second = []
  · exact ⟨none, Or.inl ⟨hnil, rfl⟩⟩
  · obtain ⟨e, he⟩ := readable_iff.mp (h.resolve_left hnil)
    exact ⟨some e, Or.inr ⟨hnil, e, he, rfl⟩⟩

/-- A range whose parts can be read is answered. -/
theorem rangeBounds_ok_of_readable {value first second : List UInt8}
    (hshape : RangeShape value first second) (h1 : Readable first)
    (h2 : second = [] ∨ Readable second) (stSize : ℕ) :
    ∃ a given, stoi first = .ok a ∧ LastGiven second given ∧
      rangeBounds stSize value = .ok (some (a, rangeLast stSize a given)) := by
  obtain ⟨a, ha⟩ := readable_iff.mp h1
  obtain ⟨given, hg⟩ := lastGiven_of_readable h2
  exact ⟨a, given, ha, hg, rangeBounds_eq_some hshape ha hg stSize⟩

/-- A range with a part that cannot be read raises. -/
theorem readable_of_rangeBounds_ok {value first second : List UInt8}
    (hshape : RangeShape value first second) {stSize : ℕ} {bounds : Option (ℤ × ℤ)}
    (h : rangeBounds stSize value = .ok bounds) :
    Readable first ∧ (second = [] ∨ Readable second) := by
  rw [rangeBounds_of_shape hshape] at h
  simp only [readable_iff]
  cases hfirst : stoi first with
  | error e => simp [hfirst, bind, Except.bind] at h
  | ok a =>
    refine ⟨⟨a, rfl⟩, ?_⟩
    by_cases hnil : second = []
    · exact Or.inl hnil
    · cases hsecond : stoi second with
      | error e => simp [hfirst, hsecond, rangeEnd, hnil, bind, Except.bind] at h
      | ok e => exact Or.inr ⟨e, rfl⟩

theorem rangeBounds_ok_iff {value : List UInt8} {stSize : ℕ} :
    (∃ bounds, rangeBounds stSize value = .ok bounds) ↔ PartsReadable value := by
  constructor
  · rintro ⟨bounds, h⟩ first second hshape
    exact readable_of_rangeBounds_ok hshape h
  · intro h
    by_cases hshape : ∃ first second, RangeShape value first second
    · obtain ⟨first, second, hshape⟩ := hshape
      obtain ⟨h1, h2⟩ := h first second hshape
      obtain ⟨a, given, -, -, hbounds⟩ := rangeBounds_ok_of_readable hshape h1 h2 stSize
      exact ⟨_, hbounds⟩
    · exact ⟨none, rangeBounds_of_not_shape hshape stSize⟩

/-- A value that has the shape of a range. -/
def IsRange (value : List UInt8) : Prop := ∃ first second, RangeShape value first second

theorem rangeVerdict_of_bounds {st : FileStat} {value : List UInt8} {first last : ℤ}
    (h : rangeBounds st.stSize value = .ok (some (first, last))) :
    rangeVerdict st value = dated st (.partialContent first last) := by
  rw [rangeVerdict, h]
  rfl

theorem rangeVerdict_of_not_isRange {st : FileStat} {value : List UInt8} (h : ¬ IsRange value) :
    rangeVerdict st value = .ok .badRequest := by
  rw [rangeVerdict, rangeBounds_of_not_shape h]
  rfl

/-- A range whose parts cannot be read raises, and so does nothing else. -/
theorem rangeVerdict_of_error {st : FileStat} {value : List UInt8} {e : StdException}
    (h : rangeBounds st.stSize value = .error e) :
    rangeVerdict st value = .error (.exception e) := by
  rw [rangeVerdict, h]
  rfl

/-- A header is decided on where its parts can be read, and the time of the file where
the answer holds it. -/
theorem rangeVerdict_ok_iff {st : FileStat} {value : List UInt8} :
    (∃ v, rangeVerdict st value = .ok v) ↔
      PartsReadable value ∧ (IsRange value → Representable st.stMtime) := by
  by_cases hrange : IsRange value
  · obtain ⟨first, second, hshape⟩ := hrange
    cases hb : rangeBounds st.stSize value with
    | error e =>
      rw [rangeVerdict_of_error hb]
      constructor
      · rintro ⟨v, hv⟩
        cases hv
      · rintro ⟨hreads, -⟩
        obtain ⟨bounds, hok⟩ := (@rangeBounds_ok_iff value st.stSize).mpr hreads
        rw [hb] at hok
        cases hok
    | ok bounds =>
      have hreads : PartsReadable value := rangeBounds_ok_iff.mp ⟨bounds, hb⟩
      obtain ⟨h1, h2⟩ := hreads first second hshape
      obtain ⟨a, given, -, -, hbounds⟩ := rangeBounds_ok_of_readable hshape h1 h2 st.stSize
      rw [rangeVerdict_of_bounds hbounds, dated]
      constructor
      · rintro ⟨v, hv⟩
        split_ifs at hv with hm
        exact ⟨hreads, fun _ => hm⟩
      · rintro ⟨-, hm⟩
        exact ⟨_, if_pos (hm ⟨first, second, hshape⟩)⟩
  · rw [rangeVerdict_of_not_isRange hrange]
    refine ⟨fun _ => ⟨fun first second hshape => ?_, fun h => absurd h hrange⟩, fun _ => ⟨_, rfl⟩⟩
    exact absurd ⟨first, second, hshape⟩ hrange

/-- **Exceptions.** `handle_range` returns with the response finalized exactly
when both texts it applies `std::stoi` to begin with an integer in the range of
`int`, and the year of the file's time fits `tm_year` if a range of it is answered. -/
theorem handleRange_returns_iff (u : UserData) (header : PhrHeader) :
    (∃ u', handleRange u header = .ok (u', true) ∧ u'.finalized = true) ↔
      PartsReadable header.value ∧
        (IsRange header.value → Representable u.fileStat.stMtime) := by
  rw [handleRange_eq, ← rangeVerdict_ok_iff]
  constructor
  · rintro ⟨u', h, -⟩
    cases hv : rangeVerdict u.fileStat header.value with
    | error e =>
      rw [hv] at h
      cases h
    | ok v => exact ⟨v, rfl⟩
  · rintro ⟨v, hv⟩
    rw [hv]
    exact ⟨_, rfl, finalized_answer u v⟩

/-- `bytes=a-5` raises. -/
theorem handleRange_raises :
    ¬ ∀ (u : UserData) (header : PhrHeader),
      ∃ u', handleRange u header = .ok (u', true) ∧ u'.finalized = true := by
  intro h
  obtain ⟨u', hu', -⟩ := h .zero
    { name := some (ascii "Range"), value := ascii "bytes=a-5", valueAt := 0 }
  have hraise : rangeVerdict UserData.zero.fileStat (ascii "bytes=a-5") =
      .error (.exception .invalidArgument) :=
    rangeVerdict_of_error (by decide)
  rw [handleRange_eq, hraise] at hu'
  cases hu'

/-! ## Well-formed answers -/

/-- The connection holds a 206 for the bytes from `first` to `last` of a file, and
`yta_async_sendfile` is handed those bytes. -/
structure Describes (st : FileStat) (u : UserData) (first last : ℕ) : Prop where
  first_le : first ≤ last
  last_lt : last < st.stSize
  head : serve206 (last - first + 1) st.stMtime first last st.stSize = some u.response.head
  fileSize : u.fileSize = last - first + 1
  offset : u.offset = first
  inFile : u.offset + u.fileSize ≤ st.stSize
  toWrite : ∀ ctx : HttpCtx,
    (ctx.asyncSendfile .httpFinishCallback u.fileFd u.fileSize u.offset).toWrite = last + 1

/-- `end_value` as `handle_range` computes it (lines 238–258), in arithmetic that fails
where a value does not fit the type it is kept in. `st_size - 1` is an `off_t`. -/
def exactLast (stSize : ℕ) (startValue : ℤ) (second : List UInt8) : Option ℤ := do
  let endValue ← if second = [] then asInt (stSize - 1) else (stoi second).toOption
  let endValue ← if endValue ≤ startValue then asInt (stSize - 1) else some endValue
  if endValue ≥ stSize then asInt (stSize - 1) else some endValue

/-- `handle_range` from `std::stoi` on (lines 235–266) and the sum of
`yta_async_sendfile` (`yta_event_loop.c`, line 512), in the same arithmetic: the first and
the last byte, `file_size` and `to_write`. -/
def exactRange (stSize : ℕ) (first second : List UInt8) : Option (ℕ × ℕ × ℕ × ℕ) := do
  let startValue ← (stoi first).toOption
  let endValue ← exactLast stSize startValue second
  let startValue := if startValue < 0 then 0 else startValue
  let distance ← asInt (endValue - startValue)
  let length ← asInt (distance + 1)
  let fileSize ← asSize length
  let offset ← asSize startValue
  let rangeEnd ← asSize endValue
  let toWrite ← asSize (fileSize + offset)
  some (offset, rangeEnd, fileSize, toWrite)

/-- The range is computed without a wrap-around and without narrowing a value. -/
def ComputedExactly (stSize : ℕ) (value : List UInt8) (firstByte lastByte : ℕ) : Prop :=
  ∃ first second, RangeShape value first second ∧ exactRange stSize first second =
    some (firstByte, lastByte, lastByte - firstByte + 1, lastByte + 1)

/-- The last byte of the range from `first`: the given one if it lies between
`first` and the end of the file, else the last one of the file. -/
def lastChosen (stSize : ℕ) (first : ℤ) (given : Option ℤ) : ℤ :=
  match given with
  | none => stSize - 1
  | some e => if first < e ∧ e < stSize then e else stSize - 1

/-- The chosen last byte does not lie before the first one, and it and the length of the
range fit `int`. -/
def RangeFits (stSize : ℕ) (value : List UInt8) : Prop :=
  ∃ first second a given, RangeShape value first second ∧ stoi first = .ok a ∧
    LastGiven second given ∧ a ≤ lastChosen stSize a given ∧
    lastChosen stSize a given < 2 ^ 31 ∧ lastChosen stSize a given - a < 2 ^ 31 - 1

/-- Where the chosen last byte is an `int`, it is the one that `handle_range` takes. -/
theorem rangeLast_eq_lastChosen {stSize : ℕ} {first : ℤ} {given : Option ℤ}
    (h : lastChosen stSize first given < 2 ^ 31) :
    rangeLast stSize first given = lastChosen stSize first given := by
  cases given with
  | none =>
    have hlt : (stSize : ℤ) - 1 < 2 ^ 31 := h
    exact toInt_eq (by omega)
  | some e =>
    rw [lastChosen] at h ⊢
    rw [rangeLast]
    split_ifs at h ⊢ with hin
    · rfl
    · exact toInt_eq (by omega)

/-- The clamps take the chosen last byte, where it is an `int`. -/
theorem exactLast_eq (stSize : ℕ) {second : List UInt8} {given : Option ℤ} (a : ℤ)
    (hg : LastGiven second given) :
    exactLast stSize a second =
      if lastChosen stSize a given < 2 ^ 31 then some (lastChosen stSize a given) else none := by
  have hsize : asInt (stSize - 1) =
      if (stSize : ℤ) - 1 < 2 ^ 31 then some ((stSize : ℤ) - 1) else none := by
    rw [asInt]
    split_ifs <;> first | rfl | omega
  have hin : ¬ (stSize : ℤ) - 1 ≥ stSize := by omega
  rw [exactLast, hsize]
  rcases hg with ⟨rfl, rfl⟩ | ⟨hne, e, he, rfl⟩
  · rw [if_pos rfl]
    show _ = if (stSize : ℤ) - 1 < 2 ^ 31 then some ((stSize : ℤ) - 1) else none
    split_ifs with hlt
    · simp [hin]
    · rfl
  · have hbound := (stoi_eq_ok_iff.mp he).2.2
    rw [if_neg hne, he, lastChosen]
    simp only [Except.toOption, Option.bind_eq_bind, Option.bind_some]
    by_cases hle : e ≤ a
    · rw [if_pos hle, if_neg (show ¬ (a < e ∧ e < stSize) by omega)]
      split_ifs with hlt
      · simp [hin]
      · rfl
    · rw [if_neg hle]
      by_cases hpast : e ≥ stSize
      · rw [if_pos hpast, if_neg (show ¬ (a < e ∧ e < stSize) by omega)]
      · rw [if_neg hpast, if_pos (show a < e ∧ e < stSize by omega), if_pos hbound]

theorem lastChosen_lt_of_exact {stSize : ℕ} {first second : List UInt8} {a : ℤ}
    {given : Option ℤ} (ha : stoi first = .ok a) (hg : LastGiven second given)
    {r : ℕ × ℕ × ℕ × ℕ} (h : exactRange stSize first second = some r) :
    lastChosen stSize a given < 2 ^ 31 := by
  by_contra hlt
  rw [exactRange, ha] at h
  simp only [Except.toOption, Option.bind_eq_bind, Option.bind_some, exactLast_eq stSize a hg,
    if_neg hlt, Option.bind_none] at h
  cases h

/-- **Exact arithmetic.** Where the range fits, no step of the computation fails. -/
theorem exactRange_of_fits {stSize : ℕ} {first second : List UInt8} {a : ℤ} {given : Option ℤ}
    (ha : stoi first = .ok a) (hg : LastGiven second given) (h0 : 0 ≤ a)
    (hle : a ≤ lastChosen stSize a given) (hlt : lastChosen stSize a given < 2 ^ 31)
    (hlen : lastChosen stSize a given - a < 2 ^ 31 - 1) :
    exactRange stSize first second = some (a.toNat, (lastChosen stSize a given).toNat,
      (lastChosen stSize a given).toNat - a.toNat + 1, (lastChosen stSize a given).toNat + 1) := by
  have hlast := exactLast_eq stSize a hg
  rw [if_pos hlt] at hlast
  generalize lastChosen stSize a given = last at hle hlt hlen hlast ⊢
  rw [exactRange, ha]
  simp only [Except.toOption, Option.bind_eq_bind, Option.bind_some, hlast,
    if_neg (show ¬ a < 0 by omega)]
  rw [asInt_eq (x := last - a) (by omega), Option.bind_some, asInt_eq (by omega),
    Option.bind_some, asSize_eq (by omega), Option.bind_some, asSize_eq (x := a) (by omega),
    Option.bind_some, asSize_eq (x := last) (by omega), Option.bind_some,
    asSize_eq (by omega), Option.bind_some]
  simp only [Option.some.injEq, Prod.mk.injEq, true_and]
  omega

theorem text206_injective {n : ℕ} {tm : Tm} {a b b' size : ℕ}
    (h : text206 n tm a b size = text206 n tm a b' size) : b = b' := by
  simp only [text206, List.append_assoc, List.append_right_inj] at h
  exact decimal_injective ((List.append_left_inj _).mp h)

theorem rangeLast_bounds (stSize : ℕ) (a : ℤ) {second : List UInt8} {given : Option ℤ}
    (hg : LastGiven second given) :
    -2 ^ 31 ≤ rangeLast stSize a given ∧ rangeLast stSize a given < 2 ^ 31 ∧
      rangeLast stSize a given < stSize := by
  have h1 := toInt_bounds (stSize - 1)
  have h2 := toInt_sub_one_lt stSize
  rcases hg with ⟨-, rfl⟩ | ⟨-, e, he, rfl⟩
  · exact ⟨h1.1, h1.2, h2⟩
  · have he := (stoi_eq_ok_iff.mp he).2
    rw [rangeLast]
    split_ifs <;> omega

/-- The head of a 206 is the text that `serve_206` gives. -/
theorem head_partialContent (u : UserData) (first last : ℤ) :
    (u.answer (.partialContent first last)).response.head =
      text206 (toSize (toInt (toInt (last - first) + 1))) (brokenDown u.fileStat.stMtime)
        (toSize first) (toSize last) u.fileStat.stSize := by
  have hst := u.fileStat.size_lt
  have hle := length_text206_le (toSize_lt (toInt (toInt (last - first) + 1)))
    u.fileStat.mtime_bounds (toSize_lt first) (toSize_lt last)
    (by omega : u.fileStat.stSize < 2 ^ 64)
  exact congrArg Response.head (UserData.response_finalize hle true)

/-- The length of a range that fits. -/
theorem toSize_length {first last : ℤ} (h : first ≤ last) (hfits : last - first < 2 ^ 31 - 1) :
    (toSize (toInt (toInt (last - first) + 1)) : ℤ) = last - first + 1 := by
  rw [toInt_eq (x := last - first) (by omega), toInt_eq (by omega), toSize_eq (by omega)]

/-- What is left in the members of a connection by a range that fits. -/
theorem members_of_fits (u : UserData) {first last : ℤ} (h0 : 0 ≤ first) (h : first ≤ last)
    (hlt : last < u.fileStat.stSize) (hfits : last - first < 2 ^ 31 - 1) :
    (u.answer (.partialContent first last)).fileSize = last.toNat - first.toNat + 1 ∧
      (u.answer (.partialContent first last)).offset = first.toNat ∧
      first.toNat ≤ last.toNat ∧ last.toNat < u.fileStat.stSize := by
  have hst := u.fileStat.size_lt
  have hlen := toSize_length h hfits
  have hfirst := toSize_eq (x := first) (by omega)
  have hsize : (u.answer (.partialContent first last)).fileSize =
      toSize (toInt (toInt (last - first) + 1)) := rfl
  have hoffset : (u.answer (.partialContent first last)).offset = toSize first := rfl
  exact ⟨by omega, by omega, by omega, by omega⟩

theorem describes_of_fits {u : UserData} {first last : ℤ} (h0 : 0 ≤ first) (h : first ≤ last)
    (hlt : last < u.fileStat.stSize) (hfits : last - first < 2 ^ 31 - 1)
    (hm : Representable u.fileStat.stMtime) :
    Describes u.fileStat (u.answer (.partialContent first last)) first.toNat last.toNat := by
  have hst := u.fileStat.size_lt
  obtain ⟨hsize, hoffset, hle, hin⟩ := members_of_fits u h0 h hlt hfits
  refine ⟨hle, hin, ?_, hsize, hoffset, by omega, fun ctx => ?_⟩
  · have hlen : toSize (toInt (toInt (last - first) + 1)) = last.toNat - first.toNat + 1 := hsize
    have hfirst : toSize first = first.toNat := hoffset
    have hlast : toSize last = last.toNat := by
      have := toSize_eq (x := last) (by omega)
      omega
    rw [serve206, gmtime_of_representable hm, head_partialContent, hlen, hfirst, hlast]
    rfl
  · have hsum := toSize_eq (x := ((last.toNat - first.toNat + 1 : ℕ) : ℤ) + (first.toNat : ℕ))
      (by omega)
    simp only [Ctx.asyncSendfile, hsize, hoffset]
    omega

theorem fits_of_describes {u : UserData} {first last : ℤ} {a b : ℕ} (h0 : 0 ≤ first)
    (hfirst31 : first < 2 ^ 31) (hlo : -2 ^ 31 ≤ last) (hhi : last < 2 ^ 31)
    (h : Describes u.fileStat (u.answer (.partialContent first last)) a b) :
    first ≤ last ∧ last - first < 2 ^ 31 - 1 := by
  have hst := u.fileStat.size_lt
  have hoffset : toSize first = a := h.offset
  have hsize : toSize (toInt (toInt (last - first) + 1)) = b - a + 1 := h.fileSize
  have hle := h.first_le
  have hlt := h.last_lt
  have hfirst := toSize_eq (x := first) (by omega)
  -- the emitted last byte is the one in the head
  have hlast : toSize last = b := by
    have hhead := h.head
    rw [serve206, head_partialContent, ← hsize, ← hoffset] at hhead
    obtain ⟨tm, htm, hhead⟩ := Option.bind_eq_some_iff.mp hhead
    rw [gmtime] at htm
    split_ifs at htm
    obtain rfl := Option.some.inj htm
    exact (text206_injective (Option.some.inj hhead)).symm
  have hnonneg : 0 ≤ last := by
    by_contra hneg
    have : (toSize last : ℤ) = last + 2 ^ 64 := by
      unfold toSize
      omega
    omega
  have hlast' := toSize_eq (x := last) (by omega)
  refine ⟨by omega, ?_⟩
  by_contra hbig
  -- only a range from `0` to `2^31 - 1` is left, and its length is negative as an `int`
  have hzero : first = 0 := by omega
  have hmax : last = 2 ^ 31 - 1 := by omega
  rw [hzero, hmax] at hsize
  have : toSize (toInt (toInt (2 ^ 31 - 1 - 0) + 1)) = 2 ^ 64 - 2 ^ 31 := by decide
  omega

theorem bounds_of_rangeVerdict {st : FileStat} {value : List UInt8} {first last : ℤ}
    (h : rangeVerdict st value = .ok (.partialContent first last)) :
    ∃ bounds, rangeBounds st.stSize value = .ok (some bounds) ∧ bounds = (first, last) := by
  rcases hb : rangeBounds st.stSize value with e | _ | ⟨a, b⟩
  · rw [rangeVerdict_of_error hb] at h
    cases h
  · rw [rangeVerdict, hb] at h
    cases h
  · rw [rangeVerdict_of_bounds hb, dated] at h
    split_ifs at h
    cases h
    exact ⟨_, rfl, rfl⟩

/-- A range is not answered with the whole file. -/
theorem rangeVerdict_ne_full (st : FileStat) (value : List UInt8) :
    rangeVerdict st value ≠ .ok .full := by
  intro h
  rcases hb : rangeBounds st.stSize value with e | _ | ⟨a, b⟩
  · rw [rangeVerdict_of_error hb] at h
    cases h
  · rw [rangeVerdict, hb] at h
    cases h
  · rw [rangeVerdict_of_bounds hb, dated] at h
    split_ifs at h
    cases h

/-- The bounds of a range that `parse_headers` answers. -/
theorem bounds_of_partialContent {st : FileStat} {memory : List UInt8} {headers : List PhrHeader}
    {first last : ℤ} (h : headerVerdict st memory headers = .ok (.partialContent first last)) :
    0 ≤ first ∧ last < st.stSize := by
  induction headers with
  | nil =>
    rw [headerVerdict, dated] at h
    split_ifs at h
    cases h
  | cons header headers ih =>
    rw [headerVerdict] at h
    split_ifs at h with h1 h2
    · cases hm : ifModifiedSince memory header.valueAt with
      | none => rw [hm] at h; cases h
      | some time =>
        rw [hm] at h
        dsimp only at h
        split_ifs at h
        · cases h
        · exact ih h
    · obtain ⟨bounds, hb, rfl⟩ := bounds_of_rangeVerdict h
      obtain ⟨t, second, a, given, hshape, ha, hg, hbounds⟩ := exists_of_rangeBounds hb
      obtain ⟨rfl, rfl⟩ := Prod.mk.inj hbounds
      exact ⟨(stoi_eq_ok_iff.mp ha).1.nonneg hshape.minus_notMem,
        (rangeLast_bounds st.stSize _ hg).2.2⟩
    · exact ih h

/-- A range is answered where the year of the file's time fits `tm_year`. -/
theorem handleRange_of_bounds {u : UserData} {header : PhrHeader} {first last : ℤ}
    (h : rangeBounds u.fileStat.stSize header.value = .ok (some (first, last)))
    (hm : Representable u.fileStat.stMtime) :
    handleRange u header = .ok (u.answer (.partialContent first last), true) := by
  rw [handleRange_eq, rangeVerdict_of_bounds h, dated, if_pos hm]
  rfl

/-- What `handle_range` answers with a 206. -/
theorem bounds_of_handleRange {u u' : UserData} {header : PhrHeader}
    (h : handleRange u header = .ok (u', true)) (h206 : u'.content = true) :
    ∃ first last, rangeBounds u.fileStat.stSize header.value = .ok (some (first, last)) ∧
      Representable u.fileStat.stMtime ∧ u' = u.answer (.partialContent first last) := by
  rw [handleRange_eq] at h
  rcases hb : rangeBounds u.fileStat.stSize header.value with e | _ | ⟨first, last⟩
  · rw [rangeVerdict_of_error hb] at h
    cases h
  · rw [rangeVerdict, hb] at h
    cases h
    cases h206
  · rw [rangeVerdict_of_bounds hb, dated] at h
    split_ifs at h with hm
    · cases h
      exact ⟨first, last, rfl, hm, rfl⟩
    · cases h

/-- **Well-formed 206.** Whenever `handle_range` answers with `serve_206`, the
head, `file_size` and `offset` describe one non-empty part of the file, computed
exactly, exactly when the range fits. -/
theorem handleRange_wellFormed_iff {u u' : UserData} {header : PhrHeader}
    (h : handleRange u header = .ok (u', true)) (h206 : u'.content = true) :
    (∃ first last, Describes u.fileStat u' first last ∧
        ComputedExactly u.fileStat.stSize header.value first last) ↔
      RangeFits u.fileStat.stSize header.value := by
  obtain ⟨firstByte, lastByte, hb, hm, rfl⟩ := bounds_of_handleRange h h206
  obtain ⟨first, second, a, given, hshape, ha, hg, hbounds⟩ := exists_of_rangeBounds hb
  obtain ⟨rfl, rfl⟩ := Prod.mk.inj hbounds
  have ha' := stoi_eq_ok_iff.mp ha
  have hnonneg := ha'.1.nonneg hshape.minus_notMem
  obtain ⟨hlo, hhi, hlt⟩ := rangeLast_bounds u.fileStat.stSize firstByte hg
  constructor
  · rintro ⟨first', last', hd, first₁, second₁, hshape₁, hexact⟩
    obtain ⟨rfl, rfl⟩ := hshape.unique hshape₁
    have hint := lastChosen_lt_of_exact ha hg hexact
    obtain ⟨h1, h2⟩ := fits_of_describes hnonneg ha'.2.2 hlo hhi hd
    rw [rangeLast_eq_lastChosen hint] at h1 h2
    exact ⟨first, second, firstByte, given, hshape, ha, hg, h1, hint, h2⟩
  · rintro ⟨first₁, second₁, a₁, given₁, hshape₁, ha₁, hg₁, h1, hint, h2⟩
    obtain ⟨rfl, rfl⟩ := hshape.unique hshape₁
    obtain rfl : firstByte = a₁ := Except.ok.inj (ha.symm.trans ha₁)
    obtain rfl := hg.unique hg₁
    have hexact := exactRange_of_fits ha hg hnonneg h1 hint h2
    rw [← rangeLast_eq_lastChosen hint] at h1 h2 hexact
    exact ⟨_, _, describes_of_fits hnonneg h1 hlt h2 hm, first, second, hshape, hexact⟩

/-- An open file of 11 bytes. -/
def UserData.eleven : UserData :=
  { UserData.zero with
    fileSize := 11
    fileStat := { isReg := true, stSize := 11, stMtime := 0, size_lt := by decide
                  mtime_bounds := FileStat.epoch_bounds } }

theorem representable_eleven : Representable UserData.eleven.fileStat.stMtime :=
  representable_epoch

theorem handleRange_wellFormed_closed :
    (∃ first last, Describes UserData.eleven.fileStat
        (UserData.eleven.answer (.partialContent 2 3)) first last ∧
        ComputedExactly 11 (ascii "bytes=2-3") first last) ↔
      RangeFits 11 (ascii "bytes=2-3") := by
  have hrun : handleRange .eleven
      { name := some (ascii "Range"), value := ascii "bytes=2-3", valueAt := 0 } =
      .ok (UserData.eleven.answer (.partialContent 2 3), true) :=
    handleRange_of_bounds (by decide) representable_eleven
  exact handleRange_wellFormed_iff hrun rfl

/-- `bytes=20-` is answered with a 206 for a file of 11 bytes. -/
theorem handleRange_past_end :
    ¬ ∀ (u u' : UserData) (header : PhrHeader), handleRange u header = .ok (u', true) →
      u'.content = true → ∃ first last, Describes u.fileStat u' first last ∧
        ComputedExactly u.fileStat.stSize header.value first last := by
  intro h
  obtain ⟨a, b, hd, -⟩ := h .eleven (UserData.eleven.answer (.partialContent 20 10))
    { name := some (ascii "Range"), value := ascii "bytes=20-", valueAt := 0 }
    (handleRange_of_bounds (by decide) representable_eleven) rfl
  have hfits := fits_of_describes (by omega) (by omega) (by omega) (by omega) hd
  omega

/-! ## Satisfiable ranges -/

/-- The header value that asks for the bytes from `first` on, up to `given` if it is
there. -/
def rangeText (first : ℕ) : Option ℕ → List UInt8
  | none => ascii "bytes=" ++ decimal first ++ [minus]
  | some last => ascii "bytes=" ++ decimal first ++ minus :: decimal last

/-- The last byte of a file that such a header asks for. -/
def rangeEndOf (stSize : ℕ) : Option ℕ → ℕ
  | none => stSize - 1
  | some last => min last (stSize - 1)

/-- The requests that are honoured: positions that fit `int`, for a range of more than one
byte that is shorter than `2^31` bytes, or one up to the end of the file; a single byte only
where the file ends behind it, modulo `2^32`. -/
def Honoured (stSize first : ℕ) : Option ℕ → Prop
  | none => stSize - 1 < 2 ^ 31 ∧ stSize - 1 - first < 2 ^ 31 - 1
  | some last => last < 2 ^ 31 ∧ (first < last ∧ min last (stSize - 1) - first < 2 ^ 31 - 1 ∨
      last = first ∧ (stSize - 1 - first) % 2 ^ 32 = 0)

theorem stoi_decimal (n : ℕ) :
    stoi (decimal n) = if n < 2 ^ 31 then .ok (n : ℤ) else .error .outOfRange := by
  have hend : ∀ c ∈ ([] : List UInt8).head?, ¬ isDigit c := by simp
  have hread := leadingInt_decimal n hend
  rw [List.append_nil] at hread
  unfold stoi
  rw [hread]
  dsimp only
  split_ifs <;> first | rfl | omega

theorem rangeShape_rangeText (first : ℕ) (given : Option ℕ) :
    RangeShape (rangeText first given) (decimal first) ((given.map decimal).getD []) := by
  refine ⟨?_, fun hmem => ?_, decimal_ne_nil first⟩
  · cases given <;> rfl
  · exact absurd (decimal_digits first _ hmem) (by decide)

theorem toInt_sub_one_eq_iff {stSize first : ℕ} (h : first < stSize) (h31 : first < 2 ^ 31) :
    toInt (stSize - 1) = first ↔ (stSize - 1 - first) % 2 ^ 32 = 0 := by
  unfold toInt Int.bmod
  dsimp only
  split_ifs <;> omega

/-- The last byte that `handle_range` chooses is the one asked for, and the length fits, in
the honoured requests. -/
theorem rangeLast_eq_iff {stSize first : ℕ} {given : Option ℕ} (h : first < stSize)
    (h31 : first < 2 ^ 31) (hsize : stSize < 2 ^ 63)
    (hgiven : ∀ last ∈ given, first ≤ last ∧ last < 2 ^ 31) :
    (rangeLast stSize first (given.map fun last => (last : ℤ)) = rangeEndOf stSize given ∧
      rangeEndOf stSize given - first < 2 ^ 31 - 1) ↔ Honoured stSize first given := by
  have hbounds := toInt_bounds (stSize - 1)
  cases given with
  | none =>
    show toInt (stSize - 1) = (stSize - 1 : ℕ) ∧ stSize - 1 - first < 2 ^ 31 - 1 ↔
      stSize - 1 < 2 ^ 31 ∧ stSize - 1 - first < 2 ^ 31 - 1
    constructor
    · rintro ⟨hend, hlen⟩
      omega
    · rintro ⟨hend, hlen⟩
      rw [toInt_eq (by omega)]
      omega
  | some last =>
    obtain ⟨hle, hlast⟩ := hgiven last rfl
    show (if (first : ℤ) < last ∧ (last : ℤ) < stSize then (last : ℤ) else toInt (stSize - 1)) =
        (min last (stSize - 1) : ℕ) ∧ min last (stSize - 1) - first < 2 ^ 31 - 1 ↔
      last < 2 ^ 31 ∧ (first < last ∧ min last (stSize - 1) - first < 2 ^ 31 - 1 ∨
        last = first ∧ (stSize - 1 - first) % 2 ^ 32 = 0)
    have hone := toInt_sub_one_eq_iff h h31
    rcases Nat.eq_or_lt_of_le hle with rfl | hlt
    · -- a single byte
      rw [if_neg (by omega), Nat.min_eq_left (by omega), hone]
      omega
    · by_cases hin : last < stSize
      · rw [if_pos (by omega), Nat.min_eq_left (by omega)]
        omega
      · rw [if_neg (by omega), toInt_eq (by omega), Nat.min_eq_right (by omega)]
        omega

theorem lt_of_readable {n : ℕ} (h : Readable (decimal n)) : n < 2 ^ 31 := by
  obtain ⟨v, hv⟩ := readable_iff.mp h
  by_contra hbig
  rw [stoi_decimal, if_neg hbig] at hv
  cases hv

theorem lastGiven_rangeText {given : Option ℕ} (h : ∀ last ∈ given, last < 2 ^ 31) :
    LastGiven ((given.map decimal).getD []) (given.map fun last => (last : ℤ)) := by
  cases given with
  | none => exact Or.inl ⟨rfl, rfl⟩
  | some last =>
    refine Or.inr ⟨decimal_ne_nil last, last, ?_, rfl⟩
    show stoi (decimal last) = .ok (last : ℤ)
    rw [stoi_decimal, if_pos (h last rfl)]

theorem rangeBounds_rangeText (stSize : ℕ) {value : List UInt8} {first : ℕ}
    {given : Option ℕ} (hvalue : value = rangeText first given) (h31 : first < 2 ^ 31)
    (hgiven : ∀ last ∈ given, last < 2 ^ 31) :
    rangeBounds stSize value =
      .ok (some ((first : ℤ), rangeLast stSize first (given.map fun last => (last : ℤ)))) := by
  have hfirst : stoi (decimal first) = .ok (first : ℤ) := by rw [stoi_decimal, if_pos h31]
  rw [hvalue]
  exact rangeBounds_eq_some (rangeShape_rangeText first given) hfirst (lastGiven_rangeText hgiven) _

/-- **Satisfiable ranges.** A range that begins inside of the file and does not end before
its start is answered with exactly the bytes it asks for if and only if it is honoured and
the year of the file's time fits `tm_year`. -/
theorem handleRange_honours_iff {u : UserData} {header : PhrHeader} {first : ℕ}
    {given : Option ℕ} (hvalue : header.value = rangeText first given)
    (hfirst : first < u.fileStat.stSize) (hgiven : ∀ last ∈ given, first ≤ last) :
    (∃ u', handleRange u header = .ok (u', true) ∧ u'.content = true ∧
      Describes u.fileStat u' first (rangeEndOf u.fileStat.stSize given)) ↔
    Honoured u.fileStat.stSize first given ∧ Representable u.fileStat.stMtime := by
  have hshape := rangeShape_rangeText first given
  rw [← hvalue] at hshape
  have hst := u.fileStat.size_lt
  constructor
  · rintro ⟨u', hrun, h206, hd⟩
    obtain ⟨firstByte, last, hb, hm, rfl⟩ := bounds_of_handleRange hrun h206
    obtain ⟨hreads, hreads'⟩ := readable_of_rangeBounds_ok hshape hb
    have h31 : first < 2 ^ 31 := lt_of_readable hreads
    have h31' : ∀ last ∈ given, first ≤ last ∧ last < 2 ^ 31 := by
      intro last hlast
      obtain rfl := Option.mem_def.mp hlast
      exact ⟨hgiven last rfl, lt_of_readable (hreads'.resolve_left (decimal_ne_nil last))⟩
    have hrange := rangeBounds_rangeText u.fileStat.stSize hvalue h31
      fun last hlast => (h31' last hlast).2
    rw [hb] at hrange
    obtain ⟨rfl, hlast⟩ := Prod.mk.inj (Option.some.inj (Except.ok.inj hrange))
    refine ⟨?_, hm⟩
    rw [← rangeLast_eq_iff hfirst h31 hst h31', ← hlast]
    obtain ⟨hlo, hhi, -⟩ := rangeLast_bounds u.fileStat.stSize first
      (lastGiven_rangeText fun last hlast => (h31' last hlast).2)
    rw [← hlast] at hlo hhi
    obtain ⟨hle, hlen⟩ := fits_of_describes (by omega) (by omega) hlo hhi hd
    have hsize : toSize (toInt (toInt (last - first) + 1)) =
        rangeEndOf u.fileStat.stSize given - first + 1 := hd.fileSize
    have hint := toSize_length hle hlen
    have hfirst_le := hd.first_le
    omega
  · rintro ⟨h, hm⟩
    have h31' : first < 2 ^ 31 ∧ ∀ last ∈ given, first ≤ last ∧ last < 2 ^ 31 := by
      cases given with
      | none =>
        unfold Honoured at h
        refine ⟨by omega, ?_⟩
        intro last hlast
        cases hlast
      | some last =>
        have hle := hgiven last rfl
        refine ⟨Nat.lt_of_le_of_lt hle h.1, fun last' hlast' => ?_⟩
        obtain rfl := Option.some.inj hlast'
        exact ⟨hle, h.1⟩
    obtain ⟨hend, hlen⟩ := (rangeLast_eq_iff hfirst h31'.1 hst h31'.2).mpr h
    have hin : first ≤ rangeEndOf u.fileStat.stSize given ∧
        rangeEndOf u.fileStat.stSize given < u.fileStat.stSize := by
      cases given with
      | none =>
        show first ≤ u.fileStat.stSize - 1 ∧ u.fileStat.stSize - 1 < u.fileStat.stSize
        omega
      | some last =>
        have hle := hgiven last rfl
        show first ≤ min last (u.fileStat.stSize - 1) ∧
          min last (u.fileStat.stSize - 1) < u.fileStat.stSize
        omega
    have hbounds := rangeBounds_rangeText u.fileStat.stSize hvalue h31'.1
      fun last hlast => (h31'.2 last hlast).2
    rw [hend] at hbounds
    refine ⟨_, handleRange_of_bounds hbounds hm, rfl, ?_⟩
    have hd : Describes u.fileStat
        (u.answer (.partialContent first (rangeEndOf u.fileStat.stSize given : ℕ))) _ _ :=
      describes_of_fits (by omega) (by omega) (by omega) (by omega) hm
    simpa using hd

theorem handleRange_honours_inside :
    (∃ u', handleRange .eleven
        { name := some (ascii "Range"), value := ascii "bytes=2-30", valueAt := 0 } =
          .ok (u', true) ∧ u'.content = true ∧
        Describes UserData.eleven.fileStat u' 2 (rangeEndOf 11 (some 30))) ↔
      Honoured 11 2 (some 30) ∧ Representable UserData.eleven.fileStat.stMtime := by
  have hvalue : ascii "bytes=2-30" = rangeText 2 (some 30) := by decide
  have hle : ∀ last ∈ some 30, 2 ≤ last := by simp
  have hin : 2 < UserData.eleven.fileStat.stSize := by decide
  exact handleRange_honours_iff hvalue hin hle

/-- `bytes=5-5` is answered with six bytes of a file of 11. -/
theorem handleRange_single_byte :
    let header : PhrHeader :=
      { name := some (ascii "Range"), value := ascii "bytes=5-5", valueAt := 0 }
    (∃ u', handleRange .eleven header = .ok (u', true) ∧
      Describes UserData.eleven.fileStat u' 5 10) ∧
    ¬ ∃ u', handleRange .eleven header = .ok (u', true) ∧ u'.content = true ∧
      Describes UserData.eleven.fileStat u' 5 5 := by
  intro header
  have hrun : handleRange .eleven header =
      .ok (UserData.eleven.answer (.partialContent 5 10), true) :=
    handleRange_of_bounds (by decide) representable_eleven
  constructor
  · exact ⟨_, hrun, describes_of_fits (by decide) (by decide) (by decide) (by decide)
      representable_eleven⟩
  · rintro ⟨u', hu', -, hd⟩
    rw [hrun] at hu'
    obtain rfl := (Prod.mk.inj (Except.ok.inj hu')).1
    have hsize : toSize (toInt (toInt (10 - 5) + 1)) = 5 - 5 + 1 := hd.fileSize
    exact absurd hsize (by decide)

end Yotta.Server
