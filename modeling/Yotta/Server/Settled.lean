import Yotta.Picohttp.Requests
import Yotta.Server.ModifiedSince
import Yotta.Server.Range

/-!
# Headers that settle the answer

`strptime` goes on behind the value of an `If-Modified-Since` header, to the end of the request
and into the memory behind it, where the requests and responses of before have left their bytes.

Results:
* `ifModifiedSince_request`: what stands in the request up to its last line end decides, or the
  memory behind it does.
* `headersSettled_iff`: the verdict on the headers of a request is the same with any memory
  behind it if and only if the headers are settled.
-/

namespace Yotta.Server

open Yotta.Bytes Yotta.Core Yotta.Http Yotta.Numeral Yotta.Picohttp Yotta.Time

/-- The text of a request from the value of a header on, without its last line feed. -/
def sinceText (q : List UInt8) (header : PhrHeader) : List UInt8 :=
  (q.drop header.valueAt).dropLast

/-- The headers of a request for a file, where the last body began at `offset`: the date of an
`If-Modified-Since` header that `parse_headers` comes to is not open at the end of the request, a
range that it comes to is answered, and if none decides, the whole file has a date and the last
body began at `0`. -/
def HeadersSettled (st : FileStat) (q : List UInt8) (offset : ℕ) : List PhrHeader → Prop
  | [] => Representable st.stMtime ∧ offset = 0
  | header :: headers =>
    if header.name = some (ascii "If-Modified-Since") then
      ¬ Stopped (sinceText q header) ∧
        ∀ tm, reading dateFormat (sinceText q header) stamp = .read tm → timegm tm < st.stMtime →
          HeadersSettled st q offset headers
    else if header.name = some (ascii "Range") then
      PartsReadable header.value ∧ (IsRange header.value → Representable st.stMtime)
    else HeadersSettled st q offset headers

/-! ## What `strptime` reads -/

/-- The header lines `lines` and the empty line end the request `q`, behind `front`. -/
structure EndsWith (q front : List UInt8) (lines : List HeaderText) : Prop where
  text : ∃ last : Newline, q = front ++ (lines.flatMap (·.text) ++ last.text)
  zero_notMem : (0 : UInt8) ∉ q

section

variable {q front : List UInt8} {line : HeaderText} {lines : List HeaderText}

theorem endsWith_headText (r : RequestText) :
    EndsWith (requestLines.headText r) (requestLines.text r.line) r.headers.lines where
  text := ⟨r.headers.last, rfl⟩
  zero_notMem := r.zero_notMem

theorem EndsWith.tail (h : EndsWith q front (line :: lines)) :
    EndsWith q (front ++ line.text) lines where
  text := by
    obtain ⟨last, hq⟩ := h.text
    refine ⟨last, ?_⟩
    rw [hq, List.flatMap_cons, List.append_assoc, List.append_assoc]
  zero_notMem := h.zero_notMem

/-- The text from a value on: the value, a line end, and the other lines. -/
theorem EndsWith.sinceText_eq (h : EndsWith q front (line :: lines)) :
    (∃ t u, sinceText q (line.header front.length) =
      t ++ [lf] ++ (lines.flatMap (·.text) ++ u)) ∧
    q.drop (line.header front.length).valueAt =
      sinceText q (line.header front.length) ++ [lf] := by
  obtain ⟨last, hq⟩ := h.text
  rw [List.flatMap_cons, List.append_assoc] at hq
  obtain ⟨nl, hdrop⟩ := line.drop_valueAt front (lines.flatMap (·.text) ++ last.text)
  obtain ⟨n, hn⟩ := nl.exists_concat
  obtain ⟨u, hu⟩ := last.exists_concat
  have hsplit : q.drop (line.header front.length).valueAt =
      ((line.header front.length).value ++ n ++ [lf] ++ (lines.flatMap (·.text) ++ u)) ++ [lf] := by
    rw [hq, hdrop, hn, hu]
    simp
  have hsince : sinceText q (line.header front.length) =
      (line.header front.length).value ++ n ++ [lf] ++ (lines.flatMap (·.text) ++ u) := by
    rw [sinceText, hsplit, List.dropLast_concat]
  exact ⟨⟨_, u, hsince⟩, by rw [hsince, hsplit]⟩

theorem EndsWith.zero_notMem_sinceText (h : EndsWith q front (line :: lines)) :
    (0 : UInt8) ∉ sinceText q (line.header front.length) := fun hmem =>
  h.zero_notMem (List.mem_of_mem_drop (List.mem_of_mem_dropLast hmem))

/-- The pointer leads to the text from the value on, and behind that to the memory. -/
theorem EndsWith.cstr_eq (h : EndsWith q front (line :: lines)) (memory : List UInt8) :
    cstr ((q ++ (memory ++ [0])).drop (line.header front.length).valueAt) =
      sinceText q (line.header front.length) ++ lf :: cstr (memory ++ [0]) := by
  have hdrop := h.sinceText_eq.2
  have hle : (line.header front.length).valueAt ≤ q.length := by
    have hlen := congrArg List.length hdrop
    rw [List.length_drop, List.length_append, List.length_singleton] at hlen
    omega
  rw [List.drop_append_of_le_length hle, hdrop, List.append_assoc,
    cstr_append h.zero_notMem_sinceText, cstr_append (by decide)]
  rfl

/-- **What is read.** The text up to the end of the request decides, or what the memory behind
it begins with. -/
theorem ifModifiedSince_request (h : EndsWith q front (line :: lines)) (memory : List UInt8) :
    ifModifiedSince (q ++ (memory ++ [0])) (line.header front.length).valueAt =
      ((reading dateFormat (sinceText q (line.header front.length)) stamp).result
        ((cstr (memory ++ [0])).dropWhile isSpace)).map timegm :=
  ifModifiedSince_eq (by decide) (h.cstr_eq memory)

/-- Where the text is open, the memory behind the request decides. -/
theorem exists_memories (h : EndsWith q front (line :: lines)) (hlen : q.length ≤ maxBufferSize)
    (hstopped : Stopped (sinceText q (line.header front.length))) :
    (∃ memory, memory.length + q.length = 2 * maxBufferSize ∧
      ifModifiedSince (q ++ (memory ++ [0])) (line.header front.length).valueAt = none) ∧
    ∃ memory, memory.length + q.length = 2 * maxBufferSize ∧
      ifModifiedSince (q ++ (memory ++ [0])) (line.header front.length).valueAt ≠ none := by
  obtain ⟨w, hw, hwlen, hboth⟩ := ifModifiedSince_stopped hstopped
  constructor
  · refine ⟨List.replicate (2 * maxBufferSize - q.length) 0, ?_, ?_⟩
    · rw [List.length_replicate]
      omega
    · have hcstr : cstr (List.replicate (2 * maxBufferSize - q.length) 0 ++ [0]) = [] := by
        rw [← List.replicate_succ', List.replicate_succ]
        exact cstr_append_zero (s := []) List.not_mem_nil _
      refine (hboth (by decide) (h.cstr_eq _)).1 ?_
      rw [hcstr]
      rfl
  · refine ⟨w ++ List.replicate (2 * maxBufferSize - q.length - w.length) 0, ?_, ?_⟩
    · rw [List.length_append, List.length_replicate]
      omega
    · have hcstr : cstr (w ++ List.replicate (2 * maxBufferSize - q.length - w.length) 0 ++ [0]) =
          w := by
        rw [List.append_assoc, ← List.replicate_succ', List.replicate_succ, cstr_append_zero hw]
      refine (hboth (by decide) (h.cstr_eq _)).2 ?_
      rw [hcstr]

/-! ## Headers behind an open date -/

theorem blocks_names : Blocks 82 ∧ Blocks 73 := by
  constructor <;> exact blocks_of_names (by decide) (by decide) (by decide) (by decide)

/-- Where the text from a value on is open, no header behind it decides. -/
theorem EndsWith.undecided (h : EndsWith q front (line :: lines))
    (hstopped : Stopped (sinceText q (line.header front.length))) {header : PhrHeader} {pos : ℕ}
    (hmem : header ∈ headersAt pos lines) :
    header.name ≠ some (ascii "If-Modified-Since") ∧ header.name ≠ some (ascii "Range") := by
  obtain ⟨⟨t, u, htext⟩, -⟩ := h.sinceText_eq
  obtain ⟨format, tm, hread⟩ := hstopped
  -- the first byte of such a name would stand behind a line feed
  have hother : ∀ c name, Blocks c → c ∉ dateFormat → header.name ≠ some (c :: name) := by
    intro c name hc hformat hname
    obtain ⟨before, behind, hlines, hline⟩ := exists_name hmem hname
    obtain ⟨t', ht'⟩ := hline t
    refine reading_ne_opened zoneFree_dateFormat hc hformat (Or.inr ⟨t', lf, behind ++ u,
      by decide, ?_⟩) format tm hread
    rw [htext, hlines, List.append_assoc before, ← List.append_assoc (t ++ [lf]), ht']
    simp
  exact ⟨hother 73 _ blocks_names.2 (by decide), hother 82 _ blocks_names.1 (by decide)⟩

end

/-- Headers of which none decides. -/
theorem headerVerdict_of_undecided {st : FileStat} {memory : List UInt8}
    {headers : List PhrHeader} (h : ∀ header ∈ headers,
      header.name ≠ some (ascii "If-Modified-Since") ∧ header.name ≠ some (ascii "Range")) :
    headerVerdict st memory headers = dated st .full := by
  induction headers with
  | nil => rfl
  | cons header headers ih =>
    obtain ⟨⟨hsince, hrange⟩, hheaders⟩ := List.forall_mem_cons.mp h
    rw [headerVerdict, if_neg hsince, if_neg hrange]
    exact ih hheaders

/-! ## Verdicts -/

section

variable {st : FileStat} {q front : List UInt8} {lines : List HeaderText} {offset : ℕ}

/-- Settled headers have the same verdict with any memory. -/
theorem HeadersSettled.verdict (hq : EndsWith q front lines)
    (h : HeadersSettled st q offset (headersAt front.length lines)) :
    ∃ v, (∀ memory, headerVerdict st (q ++ (memory ++ [0])) (headersAt front.length lines) =
      .ok v) ∧ (v = .full → offset = 0) := by
  induction lines generalizing front with
  | nil =>
    obtain ⟨hdated, hoffset⟩ := h
    exact ⟨.full, fun memory => if_pos hdated, fun _ => hoffset⟩
  | cons line lines ih =>
    rw [headersAt] at h ⊢
    rw [HeadersSettled] at h
    have htail : HeadersSettled st q offset (headersAt (front.length + line.text.length) lines) →
        ∃ v, (∀ memory, headerVerdict st (q ++ (memory ++ [0]))
          (headersAt (front.length + line.text.length) lines) = .ok v) ∧
          (v = .full → offset = 0) := by
      rw [← List.length_append]
      exact ih hq.tail
    simp only [headerVerdict]
    split_ifs at h ⊢ with hsince hrange
    · obtain ⟨hstopped, hread⟩ := h
      simp only [ifModifiedSince_request hq]
      cases hcase : reading dateFormat (sinceText q (line.header front.length)) stamp with
      | opened format tm => exact absurd ⟨format, tm, hcase⟩ hstopped
      | failed => exact ⟨.badRequest, fun _ => rfl, fun h => by cases h⟩
      | read tm =>
        simp only [Reading.result, Option.map_some]
        by_cases htime : timegm tm ≥ st.stMtime
        · simp only [if_pos htime]
          exact ⟨.notModified, fun _ => rfl, fun h => by cases h⟩
        · simp only [if_neg htime]
          exact htail (hread tm hcase (not_le.mp htime))
    · obtain ⟨v, hv⟩ := rangeVerdict_ok_iff.mpr h
      refine ⟨v, fun _ => hv, fun hfull => ?_⟩
      rw [hfull] at hv
      exact absurd hv (rangeVerdict_ne_full _ _)
    · exact htail h

/-- Headers with the same verdict for any memory are settled. -/
theorem headersSettled_of_verdict (hq : EndsWith q front lines) (hlen : q.length ≤ maxBufferSize)
    {v : Verdict} (hv : ∀ memory : List UInt8, memory.length + q.length = 2 * maxBufferSize →
      headerVerdict st (q ++ (memory ++ [0])) (headersAt front.length lines) = .ok v)
    (hoffset : v = .full → offset = 0) :
    HeadersSettled st q offset (headersAt front.length lines) := by
  obtain ⟨memory, hmemory⟩ : ∃ memory : List UInt8,
      memory.length + q.length = 2 * maxBufferSize :=
    ⟨List.replicate (2 * maxBufferSize - q.length) 0, by rw [List.length_replicate]; omega⟩
  induction lines generalizing front with
  | nil =>
    have hone := hv memory hmemory
    rw [headersAt, headerVerdict, dated] at hone
    split_ifs at hone with hdated
    exact ⟨hdated, hoffset (Except.ok.inj hone).symm⟩
  | cons line lines ih =>
    rw [headersAt] at hv ⊢
    rw [HeadersSettled]
    simp only [headerVerdict] at hv
    have htail : (∀ memory : List UInt8, memory.length + q.length = 2 * maxBufferSize →
        headerVerdict st (q ++ (memory ++ [0]))
          (headersAt (front.length + line.text.length) lines) = .ok v) →
        HeadersSettled st q offset (headersAt (front.length + line.text.length) lines) := by
      rw [← List.length_append]
      exact ih hq.tail
    split_ifs at hv ⊢ with hsince hrange
    · refine ⟨fun hstopped => ?_, fun tm hread htime => htail fun memory hmemory => ?_⟩
      · -- one memory has the date refused, with another one it is read
        obtain ⟨⟨memory₀, hmemory₀, hnone⟩, memory₁, hmemory₁, hsome⟩ :=
          exists_memories hq hlen hstopped
        have h₀ := hv memory₀ hmemory₀
        have h₁ := hv memory₁ hmemory₁
        rw [hnone] at h₀
        obtain ⟨time, htime⟩ := Option.ne_none_iff_exists'.mp hsome
        rw [htime, ← h₀, headerVerdict_of_undecided fun _ => hq.undecided hstopped, dated] at h₁
        dsimp only at h₁
        split_ifs at h₁ <;> cases h₁
      · have hone := hv memory hmemory
        rw [ifModifiedSince_request hq, hread] at hone
        dsimp only [Reading.result, Option.map_some] at hone
        rwa [if_neg (not_le.mpr htime)] at hone
    · exact rangeVerdict_ok_iff.mp ⟨v, hv memory hmemory⟩
    · exact htail hv

/-- **Settled headers** are those with one verdict for every memory behind the request, which
is a whole file only where the body before began at `0`. -/
theorem headersSettled_iff (hq : EndsWith q front lines) (hlen : q.length ≤ maxBufferSize) :
    HeadersSettled st q offset (headersAt front.length lines) ↔
      ∃ v, (∀ memory : List UInt8, memory.length + q.length = 2 * maxBufferSize →
        headerVerdict st (q ++ (memory ++ [0])) (headersAt front.length lines) = .ok v) ∧
        (v = .full → offset = 0) := by
  constructor
  · intro h
    obtain ⟨v, hv, hoffset⟩ := h.verdict hq
    exact ⟨v, fun memory _ => hv memory, hoffset⟩
  · rintro ⟨v, hv, hoffset⟩
    exact headersSettled_of_verdict hq hlen hv hoffset

end

end Yotta.Server
