import Yotta.Lib.Reordering
import Yotta.Server.ModifiedSince
import Yotta.Server.Range

/-!
# The order of the headers

`parse_headers` (`yotta.cpp`, lines 277–302) stops at the first header that decides. An
`If-Modified-Since` header decides when it is refused or the file has not changed, and a
`Range` header always does.

Results:
* `headerVerdict_eq_findSome?`: the verdict on a request is that of its first header that
  decides.
* `response_reordered_iff`: the order of the headers makes no difference if and only if no
  two different headers decide differently.
-/

namespace Yotta.Server

open Yotta.Bytes Yotta.Core Yotta.Http Yotta.Numeral Yotta.Picohttp Yotta.Time

/-- What a header decides by itself, `none` for a header that decides nothing. -/
def headerDecision (st : FileStat) (memory : List UInt8) (header : PhrHeader) :
    Option (Except Fault Verdict) :=
  if header.name = some (ascii "If-Modified-Since") then
    match ifModifiedSince memory header.valueAt with
    | none => some (.ok .badRequest)
    | some time => if time ≥ st.stMtime then some (.ok .notModified) else none
  else if header.name = some (ascii "Range") then
    some (rangeVerdict st header.value)
  else none

/-- The verdict of the first header of that name that decides. -/
def verdictOf (name : String) (st : FileStat) (memory : List UInt8) (headers : List PhrHeader) :
    Option (Except Fault Verdict) :=
  (ofKey PhrHeader.name (some (ascii name)) headers).findSome? (headerDecision st memory)

/-- The connection with other parsed headers. -/
def UserData.withHeaders (u : UserData) (headers : List PhrHeader) : UserData :=
  { u with
    parser := { request := { u.parser.request with headers }, numHeaders := headers.length } }

/-! ## The first header that decides -/

theorem headerVerdict_eq_findSome? (st : FileStat) (memory : List UInt8)
    (headers : List PhrHeader) :
    headerVerdict st memory headers =
      (headers.findSome? (headerDecision st memory)).getD (dated st .full) := by
  induction headers with
  | nil => rfl
  | cons header headers ih =>
    rw [headerVerdict, List.findSome?_cons, headerDecision]
    split_ifs with h1 h2
    · cases ifModifiedSince memory header.valueAt with
      | none => rfl
      | some time =>
        dsimp only
        by_cases htime : time ≥ st.stMtime
        · rw [if_pos htime, if_pos htime]
          rfl
        · rw [if_neg htime, if_neg htime]
          exact ih
    · rfl
    · exact ih

/-- The response to a request for a file is that of its first header that decides. -/
theorem response_parseHeaders {u : UserData} (hu : u.finalized = false) :
    (parseHeaders u).map UserData.response =
      ((u.parser.request.headers.findSome? (headerDecision u.fileStat u.memory)).getD
        (dated u.fileStat .full)).map fun v => (u.answer v).response := by
  rw [parseHeaders_eq hu, headerVerdict_eq_findSome?]
  cases (u.parser.request.headers.findSome? (headerDecision u.fileStat u.memory)).getD
    (dated u.fileStat .full) <;> rfl

theorem response_answer_withHeaders (u : UserData) (headers : List PhrHeader) (v : Verdict) :
    ((u.withHeaders headers).answer v).response = (u.answer v).response := by
  cases v <;> rfl

theorem response_withHeaders {u : UserData} (hu : u.finalized = false)
    (headers : List PhrHeader) :
    (parseHeaders (u.withHeaders headers)).map UserData.response =
      ((headers.findSome? (headerDecision u.fileStat u.memory)).getD
        (dated u.fileStat .full)).map fun v => (u.answer v).response := by
  have hresponse := response_parseHeaders (u := u.withHeaders headers) hu
  simp only [response_answer_withHeaders] at hresponse
  exact hresponse

/-! ## What the two headers decide -/

theorem headerDecision_since {st : FileStat} {memory : List UInt8} {header : PhrHeader}
    (hname : header.name = some (ascii "If-Modified-Since")) {v : Except Fault Verdict}
    (h : headerDecision st memory header = some v) :
    v = .ok .badRequest ∨ v = .ok .notModified := by
  rw [headerDecision, if_pos hname] at h
  split at h
  · exact Or.inl (Option.some.inj h).symm
  · split_ifs at h
    exact Or.inr (Option.some.inj h).symm

theorem headerDecision_range {st : FileStat} {memory : List UInt8} {header : PhrHeader}
    (hname : header.name = some (ascii "Range")) {v : Except Fault Verdict}
    (h : headerDecision st memory header = some v) :
    (∃ e, v = .error e) ∨ v = .ok .badRequest ∨
      ∃ first last, v = .ok (.partialContent first last) := by
  have hsince : header.name ≠ some (ascii "If-Modified-Since") := by
    rw [hname]
    decide
  rw [headerDecision, if_neg hsince, if_pos hname] at h
  obtain rfl := Option.some.inj h
  rcases hb : rangeBounds st.stSize header.value with e | _ | ⟨first, last⟩
  · exact Or.inl ⟨_, rangeVerdict_of_error hb⟩
  · rw [rangeVerdict, hb]
    exact Or.inr (Or.inl rfl)
  · rw [rangeVerdict_of_bounds hb, dated]
    split_ifs
    · exact Or.inr (Or.inr ⟨first, last, rfl⟩)
    · exact Or.inl ⟨_, rfl⟩

/-- Only headers of the two names decide. -/
theorem name_of_headerDecision {st : FileStat} {memory : List UInt8} {header : PhrHeader}
    {v : Except Fault Verdict} (h : headerDecision st memory header = some v) :
    header.name = some (ascii "If-Modified-Since") ∨ header.name = some (ascii "Range") := by
  rw [headerDecision] at h
  split_ifs at h with h1 h2
  · exact Or.inl h1
  · exact Or.inr h2

/-- The verdict of a name is that of a header of the name. -/
theorem exists_of_verdictOf {name : String} {st : FileStat} {memory : List UInt8}
    {headers : List PhrHeader} {v : Except Fault Verdict}
    (h : verdictOf name st memory headers = some v) :
    ∃ header, header.name = some (ascii name) ∧ headerDecision st memory header = some v := by
  obtain ⟨header, hmem, hv⟩ := List.exists_of_findSome?_eq_some h
  exact ⟨header, (mem_ofKey.mp hmem).2, hv⟩

/-- Verdicts of the two headers that are not the same give different responses. -/
theorem response_ne {u : UserData} {headers : List PhrHeader} {v v' : Except Fault Verdict}
    (hv : verdictOf "If-Modified-Since" u.fileStat u.memory headers = some v)
    (hv' : verdictOf "Range" u.fileStat u.memory headers = some v') (hne : v ≠ v') :
    v.map (fun v => (u.answer v).response) ≠ v'.map fun v => (u.answer v).response := by
  obtain ⟨x, hx, hxv⟩ := exists_of_verdictOf hv
  obtain ⟨y, hy, hyv⟩ := exists_of_verdictOf hv'
  have h400 : (u.answer .badRequest).response = { head := serve400, body := none } :=
    UserData.response_finalize length_serve400_le false
  have h304 : (u.answer .notModified).response = { head := serve304, body := none } :=
    UserData.response_finalize length_serve304_le false
  intro hsame
  rcases headerDecision_since hx hxv with rfl | rfl <;>
    rcases headerDecision_range hy hyv with ⟨e, rfl⟩ | rfl | ⟨first, last, rfl⟩
  · cases hsame
  · exact hne rfl
  · have hbody : (u.answer .badRequest).response.body =
        (u.answer (.partialContent first last)).response.body :=
      congrArg Response.body (Except.ok.inj hsame)
    rw [h400] at hbody
    cases hbody
  · cases hsame
  · have hhead : (u.answer .notModified).response = (u.answer .badRequest).response :=
      Except.ok.inj hsame
    rw [h400, h304] at hhead
    exact serve304_ne_serve400 (congrArg Response.head hhead)
  · have hbody : (u.answer .notModified).response.body =
        (u.answer (.partialContent first last)).response.body :=
      congrArg Response.body (Except.ok.inj hsame)
    rw [h304] at hbody
    cases hbody

/-! ## Other orders -/

/-- The headers of a name may come first, and then their verdict is carried out. -/
theorem exists_reordered_response {u : UserData} (hu : u.finalized = false) {name : String}
    {headers : List PhrHeader} {v : Except Fault Verdict}
    (hv : verdictOf name u.fileStat u.memory headers = some v) :
    ∃ headers', Reordered PhrHeader.name headers headers' ∧
      (parseHeaders (u.withHeaders headers')).map UserData.response =
        v.map fun v => (u.answer v).response := by
  obtain ⟨rest, hreordered⟩ := exists_reordered PhrHeader.name (some (ascii name)) headers
  refine ⟨_, hreordered, ?_⟩
  rw [verdictOf] at hv
  rw [response_withHeaders hu, List.findSome?_append, hv]
  rfl

/-- **The order of the headers** makes no difference to the response if and only if the list
does not hold an `If-Modified-Since` header that decides and a `Range` header that decides
otherwise. -/
theorem response_reordered_iff {u : UserData} (hu : u.finalized = false) :
    (∀ headers', Reordered PhrHeader.name u.parser.request.headers headers' →
        (parseHeaders (u.withHeaders headers')).map UserData.response =
          (parseHeaders u).map UserData.response) ↔
      ∀ v v', verdictOf "If-Modified-Since" u.fileStat u.memory u.parser.request.headers = some v →
        verdictOf "Range" u.fileStat u.memory u.parser.request.headers = some v' → v = v' := by
  constructor
  · intro hsame v v' hv hv'
    obtain ⟨headers₁, hreordered₁, hresponse₁⟩ := exists_reordered_response hu hv
    obtain ⟨headers₂, hreordered₂, hresponse₂⟩ := exists_reordered_response hu hv'
    by_contra hne
    apply response_ne hv hv' hne
    rw [← hresponse₁, ← hresponse₂, hsame _ hreordered₁, hsame _ hreordered₂]
  · intro hsame headers' hreordered
    rw [response_withHeaders hu, response_parseHeaders hu]
    rw [hreordered.findSome?_eq]
    intro k k' v v' hv hv'
    have hname : ∀ {k v}, (ofKey PhrHeader.name k u.parser.request.headers).findSome?
        (headerDecision u.fileStat u.memory) = some v →
        k = some (ascii "If-Modified-Since") ∨ k = some (ascii "Range") := by
      intro k v h
      obtain ⟨header, hmem, hdecision⟩ := List.exists_of_findSome?_eq_some h
      rw [← (mem_ofKey.mp hmem).2]
      exact name_of_headerDecision hdecision
    rcases hname hv with rfl | rfl <;> rcases hname hv' with rfl | rfl
    · exact Option.some.inj (hv.symm.trans hv')
    · exact hsame v v' hv hv'
    · exact (hsame v' v hv' hv).symm
    · exact Option.some.inj (hv.symm.trans hv')

/-- A connection that has read a request, for a file of 11 bytes. -/
def UserData.elevenWith (text : List UInt8) : UserData :=
  { withRequest text with fileStat := UserData.eleven.fileStat, fileSize := 11 }

/-- Nothing of it but the file is other than in `withRequest`. -/
theorem elevenWith_eq (text : List UInt8) :
    (UserData.elevenWith text).finalized = false ∧
      (UserData.elevenWith text).memory = (withRequest text).memory ∧
      (UserData.elevenWith text).parser = (withRequest text).parser ∧
      (UserData.elevenWith text).fileStat = UserData.eleven.fileStat :=
  ⟨rfl, rfl, rfl, rfl⟩

/-- A date and a range that are both refused, in either order. -/
theorem response_reordered_iff_refused :
    let u := UserData.elevenWith (sinceRequest "x" "Range: bytes=-5\r\n")
    let range : PhrHeader :=
      { name := some (ascii "Range"), value := ascii "bytes=-5", valueAt := 45 }
    u.finalized = false ∧ u.parser.request.headers = [sinceHeader "x", range] ∧
      (parseHeaders (u.withHeaders [range, sinceHeader "x"])).map UserData.response =
        (parseHeaders u).map UserData.response := by
  intro u range
  generalize htext : sinceRequest "x" "Range: bytes=-5\r\n" = text at u
  have hlen : text.length ≤ maxBufferSize := by rw [← htext]; decide
  have hparse : phrParseRequest text maxHeaders 0 =
      (57, getRequest [sinceHeader "x", range]) := by
    rw [← htext]
    decide +kernel
  have hsince : ifModifiedSince (withRequest text).memory 35 = none := by
    have hcstr := cstr_withRequest hlen (by rw [← htext]; decide)
      (show 35 ≤ text.length by rw [← htext]; decide)
    rw [ifModifiedSince, hcstr, ← htext]
    decide +kernel
  obtain ⟨hu, hmemory, hparser, -⟩ : u.finalized = false ∧ u.memory = _ ∧ u.parser = _ ∧
      u.fileStat = _ :=
    elevenWith_eq _
  clear_value u
  rw [htext] at hmemory hparser
  have hrequest := request_withRequest hlen hparse
  rw [← hparser] at hrequest
  have hheaders : u.parser.request.headers = [sinceHeader "x", range] :=
    congrArg Request.headers hrequest
  have hdecides : verdictOf "If-Modified-Since" u.fileStat u.memory u.parser.request.headers =
      some (.ok .badRequest) := by
    have hkey : ofKey PhrHeader.name (some (ascii "If-Modified-Since")) [sinceHeader "x", range] =
        [sinceHeader "x"] := by
      decide
    have hnone : ifModifiedSince u.memory (sinceHeader "x").valueAt = none := by
      rw [hmemory]
      exact hsince
    have hname : (sinceHeader "x").name = some (ascii "If-Modified-Since") := rfl
    rw [verdictOf, hheaders, hkey, List.findSome?_cons, headerDecision, if_pos hname, hnone]
  have hdecides' : verdictOf "Range" u.fileStat u.memory u.parser.request.headers =
      some (.ok .badRequest) := by
    have hkey : ofKey PhrHeader.name (some (ascii "Range")) [sinceHeader "x", range] =
        [range] := by
      decide
    have hbad : rangeVerdict u.fileStat range.value = .ok .badRequest := by
      have hbounds : rangeBounds u.fileStat.stSize (ascii "bytes=-5") = .ok none := by
        rfl
      rw [rangeVerdict, hbounds]
      rfl
    have hname : range.name ≠ some (ascii "If-Modified-Since") := by decide
    have hname' : range.name = some (ascii "Range") := rfl
    rw [verdictOf, hheaders, hkey, List.findSome?_cons, headerDecision, if_neg hname,
      if_pos hname', hbad]
  refine ⟨hu, hheaders, (response_reordered_iff (u := u) hu).mpr (fun v v' hv hv' => ?_) _ ?_⟩
  · exact (Option.some.inj (hdecides.symm.trans hv)).symm.trans
      (Option.some.inj (hdecides'.symm.trans hv'))
  · rw [hheaders]
    exact Reordered.swap (by decide)

/-- A file that has not changed, and a range of it: the header that comes first decides. -/
theorem first_header_decides :
    let u := UserData.elevenWith
      (sinceRequest "Sun, 06 Nov 1994 08:49:37 GMT" "Range: bytes=0-1\r\n")
    let since := sinceHeader "Sun, 06 Nov 1994 08:49:37 GMT"
    let range : PhrHeader :=
      { name := some (ascii "Range"), value := ascii "bytes=0-1", valueAt := 73 }
    u.finalized = false ∧ u.parser.request.headers = [since, range] ∧
      Reordered PhrHeader.name [since, range] [range, since] ∧
      (parseHeaders u).map UserData.response = .ok { head := serve304, body := none } ∧
      ∃ head, (parseHeaders (u.withHeaders [range, since])).map UserData.response =
        .ok { head, body := some (0, 2) } := by
  intro u since range
  obtain ⟨-, hparse, -, -, -⟩ := parse_sinceRequest
  have hbounds : rangeBounds 11 (ascii "bytes=0-1") = .ok (some (0, 1)) := by decide
  have hname : some (ascii "Range") ≠ some (ascii "If-Modified-Since") := by decide
  have hlen : (sinceRequest "Sun, 06 Nov 1994 08:49:37 GMT" "Range: bytes=0-1\r\n").length ≤
      maxBufferSize := by
    decide
  have hgiven := given_withRequest hlen hparse (by decide) List.mem_cons_self rfl
  obtain ⟨hu, hmemory, hparser, hfile⟩ : u.finalized = false ∧ u.memory = _ ∧ u.parser = _ ∧
      u.fileStat = _ :=
    elevenWith_eq _
  clear_value u
  have hrequest := request_withRequest hlen hparse
  rw [← hparser] at hrequest
  have hheaders : u.parser.request.headers = [since, range] := congrArg Request.headers hrequest
  have hsince : headerDecision u.fileStat u.memory since = some (.ok .notModified) := by
    have hread := hgiven.ifModifiedSince_httpDate (t := 784111777) (by decide) value_1994
    have hname : since.name = some (ascii "If-Modified-Since") := rfl
    rw [headerDecision, if_pos hname, hmemory, hread, hfile]
    rfl
  have hrange : headerDecision u.fileStat u.memory range = some (.ok (.partialContent 0 1)) := by
    have hrangeName : range.name = some (ascii "Range") := rfl
    have hnotSince : range.name ≠ some (ascii "If-Modified-Since") := hname
    have hbounds' : rangeBounds u.fileStat.stSize range.value = .ok (some (0, 1)) := by
      rw [hfile]
      exact hbounds
    have hm : Representable u.fileStat.stMtime := by
      rw [hfile]
      exact representable_eleven
    rw [headerDecision, if_neg hnotSince, if_pos hrangeName, rangeVerdict_of_bounds hbounds',
      dated, if_pos hm]
  refine ⟨hu, hheaders, Reordered.swap (fun h => hname h.symm), ?_, ?_⟩
  · rw [response_parseHeaders hu, hheaders, List.findSome?_cons, hsince]
    exact congrArg Except.ok (UserData.response_finalize length_serve304_le false)
  · rw [response_withHeaders hu, List.findSome?_cons, hrange]
    exact ⟨_, rfl⟩

end Yotta.Server
