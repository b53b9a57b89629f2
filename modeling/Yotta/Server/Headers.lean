import Yotta.Server.UserData

/-!
# The header handlers

Model of `handle_if_modified_since`, `handle_range` and `parse_headers`
(`yotta.cpp`, lines 175–302). `std::stoi` may raise, and where `gmtime` fails
`strftime` is handed a null pointer.

Results:
* `parseHeaders_eq`: what `parse_headers` does to the connection is decided by
  the headers, the file and the memory behind the read buffer alone
  (`headerVerdict`).
* `rangeBounds_eq_some` and `exists_of_rangeBounds`: when `handle_range` answers, and with
  which two bounds.
-/

namespace Yotta.Server

open Yotta.Bytes Yotta.Core Yotta.Http Yotta.Numeral Yotta.Picohttp Yotta.Time

/-! ## Model of the code -/

/-- What stops the worker in a handler of a request: an exception, which nothing
catches, or the null pointer that `strftime` is handed. -/
inductive Fault
  | exception (e : StdException)
  | nullPointer
deriving DecidableEq

/-- `stamp` before `strptime`. The format sets every member that `timegm` reads. -/
def stamp : Tm := { sec := 0, min := 0, hour := 0, mday := 0, mon := 0, year := 1900, wday := 0 }

/-- The time in an `If-Modified-Since` value. `strptime` is given the bare
pointer `value.data()`, so it reads the memory behind the value too. -/
def ifModifiedSince (memory : List UInt8) (valueAt : ℕ) : Option ℤ :=
  (strptime httpTimeFormat (cstr (memory.drop valueAt)) stamp).map timegm

/-- `handle_if_modified_since` (lines 177–200): the connection, and whether the
request is answered. -/
def handleIfModifiedSince (u : UserData) (header : PhrHeader) : UserData × Bool :=
  match ifModifiedSince u.memory header.valueAt with
  | none => (u.finalize serve400 false, true)
  | some time =>
    if time ≥ u.fileStat.stMtime then (u.finalize serve304 false, true) else (u, false)

/-- `end_value` as the text behind the `-` gives it (lines 238–245). -/
def rangeEnd (stSize : ℕ) (behind : List UInt8) : Except StdException ℤ :=
  if behind = [] then .ok (toInt (stSize - 1)) else stoi behind

/-- The first and the last byte of a range, `none` for a header that is refused
(lines 205–258). -/
def rangeBounds (stSize : ℕ) (value : List UInt8) : Except StdException (Option (ℤ × ℤ)) :=
  if value.length < 8 then .ok none
  else if value.take 6 ≠ ascii "bytes=" then .ok none
  else
    let rest := value.drop 6
    let val := rest.takeWhile (· ≠ minus)
    match rest.dropWhile (· ≠ minus) with
    | [] => .ok none
    | _ :: behind =>
      if val = [] then .ok none
      else do
        let startValue ← stoi val
        let endValue ← rangeEnd stSize behind
        let endValue := if endValue ≤ startValue then toInt (stSize - 1) else endValue
        let startValue := if startValue < 0 then 0 else startValue
        let endValue := if endValue ≥ stSize then toInt (stSize - 1) else endValue
        .ok (some (startValue, endValue))

/-- The answer to a range (lines 260–268). -/
def UserData.returnRange (u : UserData) (startValue endValue : ℤ) : Except Fault UserData :=
  let fileSize := toSize (toInt (toInt (endValue - startValue) + 1))
  let u := { u with fileSize := fileSize, offset := toSize startValue }
  match serve206 fileSize u.fileStat.stMtime (toSize startValue) (toSize endValue)
      u.fileStat.stSize with
  | none => .error .nullPointer
  | some head => .ok (u.finalize head true)

/-- `handle_range` (lines 202–271). -/
def handleRange (u : UserData) (header : PhrHeader) : Except Fault (UserData × Bool) := do
  match ← (rangeBounds u.fileStat.stSize header.value).mapError .exception with
  | none => .ok (u.return400, true)
  | some (startValue, endValue) => .ok (← u.returnRange startValue endValue, true)

/-- The loop of `parse_headers` (lines 280–292) over `header_callbacks` (lines
273–275). A handler that finalizes the connection returns `true`. -/
def handleHeaders : UserData → List PhrHeader → Except Fault UserData
  | u, [] => .ok u
  | u, header :: headers =>
    if u.finalized then .ok u
    else if header.name = some (ascii "If-Modified-Since") then
      let (u, done) := handleIfModifiedSince u header
      if done then .ok u else handleHeaders u headers
    else if header.name = some (ascii "Range") then do
      let (u, done) ← handleRange u header
      if done then .ok u else handleHeaders u headers
    else handleHeaders u headers

/-- `serve_200` at the end of `parse_headers` (lines 295–299). -/
def UserData.returnFile (u : UserData) : Except Fault UserData :=
  match serve200 u.fileSize u.fileStat.stMtime u.extension with
  | none => .error .nullPointer
  | some head => .ok (u.finalize head true)

/-- `parse_headers` (lines 277–302). -/
def parseHeaders (u : UserData) : Except Fault UserData := do
  let u ← handleHeaders u u.parser.request.headers
  if u.finalized then .ok u else u.returnFile

/-! ## Verdicts -/

/-- How the headers of a request for a file decide. -/
inductive Verdict
  | badRequest
  | notModified
  | partialContent (first last : ℤ)
  | full
deriving DecidableEq

/-- A verdict whose head holds the date of the file. -/
def dated (st : FileStat) (v : Verdict) : Except Fault Verdict :=
  if Representable st.stMtime then .ok v else .error .nullPointer

/-- What a `Range` header decides. -/
def rangeVerdict (st : FileStat) (value : List UInt8) : Except Fault Verdict := do
  match ← (rangeBounds st.stSize value).mapError .exception with
  | none => .ok .badRequest
  | some (first, last) => dated st (.partialContent first last)

/-- The verdict on a request for a file, with the memory from the start of the
read buffer. -/
def headerVerdict (st : FileStat) (memory : List UInt8) :
    List PhrHeader → Except Fault Verdict
  | [] => dated st .full
  | header :: headers =>
    if header.name = some (ascii "If-Modified-Since") then
      match ifModifiedSince memory header.valueAt with
      | none => .ok .badRequest
      | some time =>
        if time ≥ st.stMtime then .ok .notModified else headerVerdict st memory headers
    else if header.name = some (ascii "Range") then rangeVerdict st header.value
    else headerVerdict st memory headers

/-- The connection once a verdict is carried out. -/
def UserData.answer (u : UserData) : Verdict → UserData
  | .badRequest => u.return400
  | .notModified => u.finalize serve304 false
  | .partialContent first last =>
    let fileSize := toSize (toInt (toInt (last - first) + 1))
    { u with fileSize := fileSize, offset := toSize first }.finalize
      (text206 fileSize (brokenDown u.fileStat.stMtime) (toSize first) (toSize last)
        u.fileStat.stSize) true
  | .full => u.finalize (text200 u.fileSize (brokenDown u.fileStat.stMtime) u.extension) true

@[simp] theorem finalized_answer (u : UserData) (v : Verdict) : (u.answer v).finalized = true := by
  cases v <;> rfl

theorem returnRange_eq (u : UserData) (first last : ℤ) :
    u.returnRange first last =
      (dated u.fileStat (.partialContent first last)).map u.answer := by
  rw [UserData.returnRange, dated, serve206, gmtime]
  dsimp only
  split_ifs <;> rfl

theorem returnFile_eq (u : UserData) :
    u.returnFile = (dated u.fileStat .full).map u.answer := by
  rw [UserData.returnFile, dated, serve200, gmtime]
  split_ifs <;> rfl

theorem handleRange_eq (u : UserData) (header : PhrHeader) :
    handleRange u header =
      (rangeVerdict u.fileStat header.value).map fun v => (u.answer v, true) := by
  rw [handleRange, rangeVerdict]
  rcases rangeBounds u.fileStat.stSize header.value with e | _ | ⟨first, last⟩
  · rfl
  · rfl
  · have hreturn := returnRange_eq u first last
    simp only [Except.mapError, bind, Except.bind, hreturn]
    cases dated u.fileStat (.partialContent first last) <;> rfl

theorem handleHeaders_eq {u : UserData} (hu : u.finalized = false) (headers : List PhrHeader) :
    (do
      let u ← handleHeaders u headers
      if u.finalized then .ok u else u.returnFile) =
      (headerVerdict u.fileStat u.memory headers).map u.answer := by
  induction headers with
  | nil =>
    rw [headerVerdict, ← returnFile_eq]
    simp [handleHeaders, hu, bind, Except.bind]
  | cons header headers ih =>
    rw [handleHeaders, headerVerdict, hu, if_neg (by simp)]
    split_ifs with h1 h2
    · rw [handleIfModifiedSince]
      cases ifModifiedSince u.memory header.valueAt with
      | none => rfl
      | some time =>
        dsimp only
        by_cases htime : time ≥ u.fileStat.stMtime
        · rw [if_pos htime, if_pos htime]
          rfl
        · rw [if_neg htime, if_neg htime]
          exact ih
    · rw [handleRange_eq]
      rcases rangeVerdict u.fileStat header.value with e | v
      · rfl
      · simp [Except.map, bind, Except.bind]
    · exact ih

/-- **`parse_headers`** carries the verdict out. -/
theorem parseHeaders_eq {u : UserData} (hu : u.finalized = false) :
    parseHeaders u =
      (headerVerdict u.fileStat u.memory u.parser.request.headers).map u.answer := by
  rw [← handleHeaders_eq hu]
  rfl

/-- What a verdict sends, on a connection whose member `offset` holds `offset`. -/
def Verdict.response (st : FileStat) (extension : List UInt8) (offset : ℕ) : Verdict → Response
  | .badRequest => { head := serve400, body := none }
  | .notModified => { head := serve304, body := none }
  | .partialContent first last =>
    let fileSize := toSize (toInt (toInt (last - first) + 1))
    { head := text206 fileSize (brokenDown st.stMtime) (toSize first) (toSize last) st.stSize
      body := some (toSize first, fileSize) }
  | .full =>
    { head := text200 st.stSize (brokenDown st.stMtime) extension
      body := some (offset, st.stSize) }

/-- The head of an answer fits its buffer. -/
theorem Verdict.length_head_le (st : FileStat) {extension : List UInt8}
    (hext : extension.length ≤ 71) (offset : ℕ) (v : Verdict) :
    (v.response st extension offset).head.length ≤ maxBufferSize := by
  have hst := st.size_lt
  cases v with
  | badRequest => exact length_serve400_le
  | notModified => exact length_serve304_le
  | partialContent first last =>
    exact length_text206_le (toSize_lt _) st.mtime_bounds (toSize_lt _) (toSize_lt _) (by omega)
  | full => exact length_text200_le (by omega) st.mtime_bounds hext

/-- The response of a verdict is written completely. -/
theorem response_answer {u : UserData} (hsize : u.fileSize = u.fileStat.stSize)
    (hext : u.extension.length ≤ 71) (v : Verdict) :
    (u.answer v).response = v.response u.fileStat u.extension u.offset := by
  have hfits := v.length_head_le u.fileStat hext u.offset
  cases v with
  | badRequest => exact UserData.response_finalize hfits false
  | notModified => exact UserData.response_finalize hfits false
  | partialContent first last => exact UserData.response_finalize hfits true
  | full =>
    have hresponse := UserData.response_finalize (u := u) hfits true
    rw [UserData.answer, hsize]
    exact hresponse.trans (by rw [hsize]; rfl)

/-! ## Ranges -/

/-- `value` is `bytes=`, then `first`, then `-` and `second`; `first` is what stands
before the first `-` and is not empty. -/
structure RangeShape (value first second : List UInt8) : Prop where
  eq : value = ascii "bytes=" ++ first ++ minus :: second
  minus_notMem : minus ∉ first
  ne_nil : first ≠ []

/-- The last byte position a range header gives, if it gives one. -/
def LastGiven (second : List UInt8) (given : Option ℤ) : Prop :=
  second = [] ∧ given = none ∨ second ≠ [] ∧ ∃ e, stoi second = .ok e ∧ given = some e

theorem LastGiven.unique {second : List UInt8} {given given' : Option ℤ}
    (h : LastGiven second given) (h' : LastGiven second given') : given = given' := by
  rcases h with ⟨rfl, rfl⟩ | ⟨hne, e, he, rfl⟩ <;> rcases h' with ⟨hnil, rfl⟩ | ⟨hne', e', he', rfl⟩
  · rfl
  · exact absurd rfl hne'
  · exact absurd hnil hne
  · exact congrArg some (Except.ok.inj (he.symm.trans he'))

/-- The last byte of the range from `first`: the given one if it lies between
`first` and the end of the file, else the size minus one, as an `int`. -/
def rangeLast (stSize : ℕ) (first : ℤ) (given : Option ℤ) : ℤ :=
  match given with
  | none => toInt (stSize - 1)
  | some e => if first < e ∧ e < stSize then e else toInt (stSize - 1)

theorem toInt_sub_one_lt (stSize : ℕ) : toInt (stSize - 1) < stSize := by
  by_cases h : (stSize : ℤ) - 1 < 2 ^ 31
  · rw [toInt_eq (by omega)]
    omega
  · have := toInt_bounds (stSize - 1)
    omega

theorem takeWhile_minus {first second : List UInt8} (h : minus ∉ first) :
    (first ++ minus :: second).takeWhile (· ≠ minus) = first ∧
      (first ++ minus :: second).dropWhile (· ≠ minus) = minus :: second := by
  have hall : ∀ c ∈ first, decide (c ≠ minus) := by
    intro c hc
    have : c ≠ minus := by rintro rfl; exact h hc
    simpa using this
  constructor
  · exact takeWhile_append_of_head hall (by simp)
  · exact dropWhile_append_of_head hall (by simp)

theorem RangeShape.unique {value first second first' second' : List UInt8}
    (h : RangeShape value first second) (h' : RangeShape value first' second') :
    first = first' ∧ second = second' := by
  have heq := h.eq.symm.trans h'.eq
  rw [List.append_assoc, List.append_assoc, List.append_right_inj] at heq
  obtain ⟨htake, hdrop⟩ := @takeWhile_minus first second h.minus_notMem
  obtain ⟨htake', hdrop'⟩ := @takeWhile_minus first' second' h'.minus_notMem
  rw [heq] at htake hdrop
  exact ⟨htake.symm.trans htake', List.tail_eq_of_cons_eq (hdrop.symm.trans hdrop')⟩

/-- The bounds of a range of the accepted shape. -/
theorem rangeBounds_of_shape {value first second : List UInt8} (h : RangeShape value first second)
    (stSize : ℕ) : rangeBounds stSize value = (do
      let startValue ← stoi first
      let endValue ← rangeEnd stSize second
      let endValue := if endValue ≤ startValue then toInt (stSize - 1) else endValue
      let startValue := if startValue < 0 then 0 else startValue
      let endValue := if endValue ≥ stSize then toInt (stSize - 1) else endValue
      .ok (some (startValue, endValue))) := by
  obtain ⟨rfl, hm, hne⟩ := h
  have hpos := List.length_pos_of_ne_nil hne
  have h6 : (ascii "bytes=").length = 6 := by decide
  obtain ⟨htake, hdrop⟩ := @takeWhile_minus first second hm
  rw [rangeBounds, if_neg, if_neg]
  · rw [List.append_assoc, List.drop_left' h6]
    simp only [htake, hdrop, if_neg hne]
  · rw [List.append_assoc, List.take_left' h6]
    simp
  · simp only [List.length_append, List.length_cons, h6]
    omega

/-- A header of another shape is refused. -/
theorem rangeBounds_of_not_shape {value : List UInt8}
    (h : ¬ ∃ first second, RangeShape value first second) (stSize : ℕ) :
    rangeBounds stSize value = .ok none := by
  rw [rangeBounds]
  split_ifs with h8 h6
  · rfl
  · rfl
  · rw [not_not] at h6
    dsimp only
    split
    · rfl
    · rename_i c behind hdrop
      by_cases hnil : (value.drop 6).takeWhile (· ≠ minus) = []
      · rw [if_pos hnil]
      · have hc : c = minus := by
          have := head?_dropWhile_not (· ≠ minus) (value.drop 6) c (by rw [hdrop]; rfl)
          simpa using this
        refine absurd ⟨(value.drop 6).takeWhile (· ≠ minus), behind, ?_, ?_, hnil⟩ h
        · conv_lhs => rw [← List.take_append_drop 6 value, h6,
            ← List.takeWhile_append_dropWhile (p := (· ≠ minus)) (l := value.drop 6), hdrop, hc]
          rw [List.append_assoc]
        · intro hmem
          simpa using List.mem_takeWhile_imp hmem

/-- **The bounds of a range.** `handle_range` answers a header of the accepted
shape whose parts `std::stoi` accepts. -/
theorem rangeBounds_eq_some {value first second : List UInt8} {a : ℤ} {given : Option ℤ}
    (h : RangeShape value first second) (ha : stoi first = .ok a) (hg : LastGiven second given)
    (stSize : ℕ) : rangeBounds stSize value = .ok (some (a, rangeLast stSize a given)) := by
  have hnonneg : 0 ≤ a := (stoi_eq_ok_iff.mp ha).1.nonneg h.minus_notMem
  have hlt := toInt_sub_one_lt stSize
  rw [rangeBounds_of_shape h, ha]
  rcases hg with ⟨rfl, rfl⟩ | ⟨hne, e, he, rfl⟩
  · simp only [rangeEnd, if_true, bind, Except.bind, rangeLast]
    congr 3
    · rw [if_neg (by omega)]
    · split_ifs <;> omega
  · simp only [rangeEnd, if_neg hne, he, bind, Except.bind, rangeLast]
    congr 3
    · rw [if_neg (by omega)]
    · split_ifs <;> omega

/-- Only a range of the accepted shape, with parts that `std::stoi` accepts, is
answered with bounds. -/
theorem exists_of_rangeBounds {value : List UInt8} {stSize : ℕ} {bounds : ℤ × ℤ}
    (h : rangeBounds stSize value = .ok (some bounds)) :
    ∃ first second a given, RangeShape value first second ∧ stoi first = .ok a ∧
      LastGiven second given ∧ bounds = (a, rangeLast stSize a given) := by
  by_cases hshape : ∃ first second, RangeShape value first second
  · obtain ⟨first, second, hshape⟩ := hshape
    cases hfirst : stoi first with
    | error e => simp [rangeBounds_of_shape hshape, hfirst, bind, Except.bind] at h
    | ok a =>
      have hgiven : ∃ given, LastGiven second given := by
        by_cases hnil : second = []
        · exact ⟨none, Or.inl ⟨hnil, rfl⟩⟩
        · cases hsecond : stoi second with
          | error e =>
            simp [rangeBounds_of_shape hshape, hfirst, hsecond, rangeEnd, hnil, bind,
              Except.bind] at h
          | ok e => exact ⟨some e, Or.inr ⟨hnil, e, hsecond, rfl⟩⟩
      obtain ⟨given, hg⟩ := hgiven
      rw [rangeBounds_eq_some hshape hfirst hg] at h
      exact ⟨first, second, a, given, hshape, hfirst, hg, by simpa using h.symm⟩
  · rw [rangeBounds_of_not_shape hshape] at h
    cases h

end Yotta.Server
