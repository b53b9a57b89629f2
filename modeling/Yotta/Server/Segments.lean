import Yotta.Server.Session

/-!
# The segments of a request

A request reaches `read_callback_http` in any number of reads. The parser is
called at each of them, and `num_headers` is both the room for headers at a call
and the number of headers read in the call before.

Results:
* `Receiving.exec_front`: the reads of a front of a request produce no response.
* `Receiving.exec_of_hasRoom` and `Receiving.exec_of_not_hasRoom`: at its last byte
  a request is answered, or refused where the room for its headers is lost.
* `segments_iff`: when a request is answered as in a single read.
-/

namespace Yotta.Server

open Yotta.Bytes Yotta.Core Yotta.Picohttp

/-! ## The reads of a request -/

/-- All bytes of a list of reads. -/
def arrived (arrivals : List Arrival) : List UInt8 := arrivals.flatMap (·.bytes)

@[simp] theorem arrived_nil : arrived [] = [] := rfl

@[simp] theorem arrived_cons (a : Arrival) (arrivals : List Arrival) :
    arrived (a :: arrivals) = a.bytes ++ arrived arrivals := rfl

@[simp] theorem arrived_append (l l' : List Arrival) :
    arrived (l ++ l') = arrived l ++ arrived l' :=
  List.flatMap_append

/-- No read is empty. -/
def NonemptyReads (arrivals : List Arrival) : Prop := ∀ a ∈ arrivals, a.bytes ≠ []

theorem nonemptyReads_single (fd : ℕ) {q : List UInt8} (h : q ≠ []) : NonemptyReads [⟨fd, q⟩] := by
  simpa [NonemptyReads] using h

section

variable {fs : FileSystem} {ctx : HttpCtx} {acc : List UInt8} {n : ℕ} {rs : List Response}
variable {q : List UInt8} {request : Request} {arrivals : List Arrival}

variable (fs rs) in
/-- The later reads of a request, up to a proper front of it: no room for headers is
left. -/
theorem Receiving.exec_again (hq : Accepts maxHeaders q request) (hlen : q.length ≤ maxBufferSize)
    {rest : List UInt8} (hrest : rest ≠ []) (h : Receiving ctx acc n) (hacc : acc ≠ [])
    (hne : NonemptyReads arrivals) (heq : acc ++ arrived arrivals ++ rest = q) :
    ∃ ctx', exec (serveStep fs) (ctx, rs) arrivals = some (ctx', rs) ∧
      Receiving ctx' (acc ++ arrived arrivals) (if arrivals = [] then n else 0) ∧
      behind ctx' q.length = behind ctx q.length ∧
      ctx'.userData.offset = ctx.userData.offset := by
  induction arrivals generalizing ctx acc n with
  | nil => exact ⟨ctx, rfl, by simpa using h, rfl, rfl⟩
  | cons a arrivals ih =>
    have ha := hne a List.mem_cons_self
    have hsplit : q = (acc ++ a.bytes) ++ (arrived arrivals ++ rest) := by
      rw [← heq, arrived_cons]
      simp only [List.append_assoc]
    have hbehind : arrived arrivals ++ rest ≠ [] := by simp [hrest]
    have hpos := List.length_pos_of_ne_nil hbehind
    have hlenq := congrArg List.length hsplit
    rw [List.length_append, List.length_append] at hlenq
    have hcall : phrParseRequest (acc ++ a.bytes) n acc.length = (-2, .empty) :=
      phrParseRequest_again (hsplit ▸ hq) hbehind (by simpa using hacc)
        (by rw [List.length_append]; omega)
    obtain ⟨ctx₁, hstep, h₁, hmem₁, hoff₁⟩ := h.serveStep_incomplete fs rs ha
      (by omega) (by decide) (by decide) hcall
    obtain ⟨ctx₂, hexec, h₂, hmem₂, hoff₂⟩ := ih h₁ (by simp [ha])
      (fun b hb => hne b (List.mem_cons_of_mem _ hb))
      (by rw [hsplit]; simp only [List.append_assoc])
    refine ⟨ctx₂, ?_, ?_, hmem₂.trans (hmem₁ _ (by rw [List.length_append]; omega)),
      hoff₂.trans hoff₁⟩
    · rw [exec, hstep]
      exact hexec
    · rw [arrived_cons, ← List.append_assoc, if_neg (List.cons_ne_nil a arrivals)]
      simpa [Request.empty] using h₂

variable (fs rs) in
/-- **The reads of a front of a request** produce no response. The first of them
leaves room for the headers that are complete in it, and the next one none. -/
theorem Receiving.exec_front (hq : Accepts maxHeaders q request) (hlen : q.length ≤ maxBufferSize)
    {rest : List UInt8} (hrest : rest ≠ []) (h : Receiving ctx [] maxHeaders)
    (hne : NonemptyReads arrivals) (heq : arrived arrivals ++ rest = q) :
    ∃ ctx' n, exec (serveStep fs) (ctx, rs) arrivals = some (ctx', rs) ∧
      Receiving ctx' (arrived arrivals) n ∧
      behind ctx' q.length = behind ctx q.length ∧
      ctx'.userData.offset = ctx.userData.offset ∧
      (request.headers.length ≤ n ↔
        arrivals = [] ∨ request.headers = [] ∨ arrivals.length = 1 ∧ IsNewline rest) := by
  cases arrivals with
  | nil =>
    exact ⟨ctx, maxHeaders, rfl, h, rfl, rfl, iff_of_true hq.length_headers_le (Or.inl rfl)⟩
  | cons a arrivals =>
    have ha := hne a List.mem_cons_self
    have hsplit : q = a.bytes ++ (arrived arrivals ++ rest) := by
      rw [← heq, arrived_cons, List.append_assoc]
    have hbehind : arrived arrivals ++ rest ≠ [] := by simp [hrest]
    have hpos := List.length_pos_of_ne_nil hbehind
    have hlenq := congrArg List.length hsplit
    rw [List.length_append] at hlenq
    obtain ⟨front, hcall, hle, hiff⟩ := phrParseRequest_front (hsplit ▸ hq) hbehind
    obtain ⟨ctx₁, hstep, h₁, hmem₁, hoff₁⟩ := h.serveStep_incomplete fs rs ha
      (by simp only [List.length_nil]; omega) (by decide) (by decide) hcall
    obtain ⟨ctx₂, hexec, h₂, hmem₂, hoff₂⟩ := h₁.exec_again fs rs hq hlen hrest ha
      (fun b hb => hne b (List.mem_cons_of_mem _ hb))
      (by rw [hsplit]; simp only [List.nil_append, List.append_assoc])
    refine ⟨ctx₂, _, ?_, h₂, hmem₂.trans (hmem₁ _ ?_), hoff₂.trans hoff₁, ?_⟩
    · rw [exec, hstep]
      exact hexec
    · rw [List.nil_append]
      omega
    · cases arrivals with
      | nil =>
        rw [if_pos rfl]
        constructor
        · intro hroom
          rcases hiff.mp (le_antisymm hle hroom) with h0 | hnl
          · exact Or.inr (Or.inl h0)
          · exact Or.inr (Or.inr ⟨rfl, hnl⟩)
        · rintro (h0 | h0 | ⟨-, hnl⟩)
          · cases h0
          · rw [h0]
            exact Nat.zero_le _
          · exact (hiff.mpr (Or.inr hnl)).ge
      | cons b arrivals =>
        rw [if_neg (List.cons_ne_nil b arrivals)]
        simp

/-- Whether the last call of the parser has room for the headers of a request: it
comes in one read, or has no header line, or comes in two reads of which the second is the
last line end or a part of it. -/
def HasRoom (request : Request) : List Arrival → Prop
  | [_] => True
  | [_, last] => request.headers = [] ∨ IsNewline last.bytes
  | _ => request.headers = []

theorem hasRoom_concat (request : Request) (front : List Arrival) (last : Arrival) :
    HasRoom request (front ++ [last]) ↔
      front = [] ∨ request.headers = [] ∨ front.length = 1 ∧ IsNewline last.bytes := by
  match front with
  | [] => simp [HasRoom]
  | [a] => simp [HasRoom]
  | a :: b :: front =>
    cases front with
    | nil => simp [HasRoom]
    | cons c front => simp [HasRoom]

variable (fs rs) in
/-- The reads of a whole request in front of the last one. -/
theorem Receiving.exec_concat (hq : Accepts maxHeaders q request) (hlen : q.length ≤ maxBufferSize)
    (h : Receiving ctx [] maxHeaders) (hne : NonemptyReads arrivals) (heq : arrived arrivals = q) :
    ∃ last ctx' acc n, acc ++ last.bytes = q ∧ acc.length < q.length ∧ last.bytes ≠ [] ∧
      exec (serveStep fs) (ctx, rs) arrivals = serveStep fs (ctx', rs) last ∧
      Receiving ctx' acc n ∧ behind ctx' q.length = behind ctx q.length ∧
      ctx'.userData.offset = ctx.userData.offset ∧
      (request.headers.length ≤ n ↔ HasRoom request arrivals) := by
  rcases List.eq_nil_or_concat arrivals with rfl | ⟨front, last, rfl⟩
  · exact absurd heq.symm hq.ne_nil
  · have hlast := hne last (by simp)
    have hpos := List.length_pos_of_ne_nil hlast
    rw [List.concat_eq_append] at heq hne
    rw [arrived_append, arrived_cons, arrived_nil, List.append_nil] at heq
    obtain ⟨ctx', n, hexec, h', hmem, hoff, hroom⟩ := h.exec_front fs rs hq hlen
      hlast (fun a ha => hne a (List.mem_append_left _ ha)) heq
    refine ⟨last, ctx', arrived front, n, heq, ?_, hlast, ?_, h', hmem, hoff, ?_⟩
    · rw [← heq, List.length_append]
      omega
    · rw [List.concat_eq_append, exec_append, hexec, Option.bind_some, exec]
      simp [exec]
    · rw [hroom, List.concat_eq_append, hasRoom_concat]

variable (fs rs) in
/-- **A request with room** is answered at its last byte, and the connection waits
for the next one. -/
theorem Receiving.exec_of_hasRoom (hq : Accepts maxHeaders q request)
    (hlen : q.length ≤ maxBufferSize) (h : Receiving ctx [] maxHeaders)
    (hne : NonemptyReads arrivals) (heq : arrived arrivals = q)
    (hroom : HasRoom request arrivals) :
    ∃ after : Answer → HttpCtx, (∀ answer, Receiving (after answer) [] maxHeaders) ∧
      exec (serveStep fs) (ctx, rs) arrivals =
        (requestAnswer fs (q ++ behind ctx q.length) request).toOption.map fun answer =>
          (after answer, rs ++ [answer.response ctx.userData.offset]) := by
  obtain ⟨last, ctx', acc, n, rfl, hlt, hlast, hexec, h', hmem, hoff, hiff⟩ :=
    h.exec_concat fs rs hq hlen hne heq
  have hcall := phrParseRequest_of_le hq (hiff.mpr hroom) hlt []
  rw [List.append_nil] at hcall
  have hpos : (0 : ℤ) < (acc ++ last.bytes).length := by omega
  rw [List.length_append] at hlen hmem
  refine ⟨fun answer => sendResponse (armResponse (carryOut (parsed ctx' last request) answer)),
    fun answer => receiving_sendResponse _, ?_⟩
  rw [hexec, h'.serveStep_accepted _ _ hlast hlen hpos hcall, hmem, hoff, List.length_append]

variable (fs rs) in
/-- **A request without room** is refused at its last byte. -/
theorem Receiving.exec_of_not_hasRoom (hq : Accepts maxHeaders q request)
    (hlen : q.length ≤ maxBufferSize) (h : Receiving ctx [] maxHeaders)
    (hne : NonemptyReads arrivals) (heq : arrived arrivals = q)
    (hroom : ¬ HasRoom request arrivals) :
    ∃ ctx', exec (serveStep fs) (ctx, rs) arrivals = some (ctx', rs ++ [badRequest]) := by
  obtain ⟨last, ctx', acc, n, rfl, hlt, hlast, hexec, h', -, -, hiff⟩ :=
    h.exec_concat fs rs hq hlen hne heq
  have hcall := phrParseRequest_of_lt hq (lt_of_not_ge (mt hiff.mp hroom)) hlt []
  rw [List.append_nil] at hcall
  rw [List.length_append] at hlen
  obtain ⟨ctx'', hstep, -⟩ := h'.serveStep_rejected fs rs hlast hlen
    (Prod.ext hcall rfl)
  exact ⟨ctx'', hexec.trans hstep⟩

/-! ## Segmentation -/

/-- The reads of a request produce no response before the last one, and then the
response that a single read of the request produces. -/
def SegmentsAgree (fs : FileSystem) (ctx : HttpCtx) (q : List UInt8) (arrivals : List Arrival)
    (fd : ℕ) : Prop :=
  (∀ front back, arrivals = front ++ back → back ≠ [] →
    ∃ ctx', exec (serveStep fs) (ctx, []) front = some (ctx', [])) ∧
  ∃ ctx₁ ctx₂ response, exec (serveStep fs) (ctx, []) arrivals = some (ctx₁, [response]) ∧
    exec (serveStep fs) (ctx, []) [⟨fd, q⟩] = some (ctx₂, [response])

theorem response_eq_badRequest {answer : Answer} {offset : ℕ} :
    answer.response offset = badRequest ↔ ∃ found, answer = .file found .badRequest := by
  constructor
  · intro h
    cases answer with
    | notFound => exact absurd (congrArg Response.head h) Http.serve404_ne_serve400
    | file found verdict =>
      cases verdict with
      | badRequest => exact ⟨found, rfl⟩
      | notModified => exact absurd (congrArg Response.head h) Http.serve304_ne_serve400
      | partialContent first last => cases congrArg Response.body h
      | full => cases congrArg Response.body h
  · rintro ⟨found, rfl⟩
    rfl

/-- **Segmentation.** The reads of a request wait for its last byte and produce the
response of a single read exactly when the handlers answer the request without an
exception, and there is room for its headers at the last read or the answer is a
400 anyway. -/
theorem segments_iff (h : Receiving ctx [] maxHeaders) (hq : Accepts maxHeaders q request)
    (hlen : q.length ≤ maxBufferSize) (hne : NonemptyReads arrivals)
    (heq : arrived arrivals = q) (fd : ℕ) :
    SegmentsAgree fs ctx q arrivals fd ↔
      ∃ answer, requestAnswer fs (q ++ behind ctx q.length) request = .ok answer ∧
        (HasRoom request arrivals ∨ ∃ found, answer = .file found .badRequest) := by
  have hfront : ∀ front back, arrivals = front ++ back → back ≠ [] →
      ∃ ctx', exec (serveStep fs) (ctx, []) front = some (ctx', []) := by
    rintro front back rfl hback
    rw [arrived_append] at heq
    obtain ⟨b, back, rfl⟩ := List.exists_cons_of_ne_nil hback
    have hb := hne b (by simp)
    obtain ⟨ctx', _, hexec, -⟩ := h.exec_front fs [] hq hlen
      (by simp [hb] : arrived (b :: back) ≠ [])
      (fun a ha => hne a (List.mem_append_left _ ha)) heq
    exact ⟨ctx', hexec⟩
  obtain ⟨after, -, hsingle⟩ := h.exec_of_hasRoom fs [] hq hlen
    (nonemptyReads_single fd hq.ne_nil) (by simp) trivial
  rw [SegmentsAgree, and_iff_right hfront]
  constructor
  · rintro ⟨ctx₁, ctx₂, response, hexec, hexec'⟩
    rw [hexec'] at hsingle
    cases hanswer : requestAnswer fs (q ++ behind ctx q.length) request with
    | error e => rw [hanswer] at hsingle; cases hsingle
    | ok answer =>
      rw [hanswer] at hsingle
      obtain rfl := (List.cons.inj (Prod.mk.inj (Option.some.inj hsingle)).2).1
      refine ⟨answer, rfl, or_iff_not_imp_left.mpr fun hroom => ?_⟩
      obtain ⟨ctx', hrefused⟩ := h.exec_of_not_hasRoom fs [] hq hlen hne heq hroom
      rw [hexec] at hrefused
      exact response_eq_badRequest.mp (by simpa using (Prod.mk.inj (Option.some.inj hrefused)).2)
  · rintro ⟨answer, hanswer, hor⟩
    rw [hanswer] at hsingle
    by_cases hroom : HasRoom request arrivals
    · obtain ⟨_, -, hexec⟩ := h.exec_of_hasRoom fs [] hq hlen hne heq hroom
      rw [hanswer] at hexec
      exact ⟨_, _, _, hexec, hsingle⟩
    · obtain ⟨ctx₁, hexec⟩ := h.exec_of_not_hasRoom fs [] hq hlen hne heq hroom
      have h400 : answer.response ctx.userData.offset = badRequest :=
        response_eq_badRequest.mpr (hor.resolve_left hroom)
      rw [← h400] at hexec
      exact ⟨ctx₁, _, _, hexec, hsingle⟩

end

/-! ## A request in two reads -/

theorem requestAnswer_none (memory : List UInt8) (request : Request) :
    requestAnswer (fun _ => none) memory request = .ok .notFound := by
  have hfind : ∀ target, findFile (fun _ => none) target = none := by
    intro target
    unfold findFile
    split_ifs <;> rfl
  rw [requestAnswer, hfind]

/-- `GET / HTTP/1.1`, which has no header, is answered in two reads as in one. -/
theorem segments_agree_plain :
    SegmentsAgree (fun _ => none) (acceptCallbackHttp .zero) (ascii "GET / HTTP/1.1\r\n\r\n")
      [⟨7, ascii "GET / HT"⟩, ⟨7, ascii "TP/1.1\r\n\r\n"⟩] 7 :=
  (segments_iff (receiving_new .zero) (accepts_of_count (by decide)) (by decide)
    (by unfold NonemptyReads; decide) (by decide) 7).mpr
    ⟨.notFound, requestAnswer_none _ _, Or.inl (Or.inl (by decide))⟩

/-- A request with one header line, cut in front of that line, is refused. -/
theorem segments_disagree :
    ¬ ∀ (fs : FileSystem) (ctx : HttpCtx) (q : List UInt8) (request : Request)
      (arrivals : List Arrival) (fd : ℕ), Receiving ctx [] maxHeaders →
      Accepts maxHeaders q request → q.length ≤ maxBufferSize → NonemptyReads arrivals →
      arrived arrivals = q → SegmentsAgree fs ctx q arrivals fd := by
  intro hall
  let q := ascii "GET / HTTP/1.1\r\nHost: a\r\n\r\n"
  let arrivals : List Arrival := [⟨7, ascii "GET / HTTP/1.1\r\n"⟩, ⟨7, ascii "Host: a\r\n\r\n"⟩]
  let request : Request :=
    { method := some (ascii "GET"), path := some (ascii "/"), minorVersion := 1
      headers := [{ name := some (ascii "Host"), value := ascii "a", valueAt := 22 }] }
  have hreceiving := receiving_new .zero
  have hq : Accepts maxHeaders q request := by
    unfold Accepts
    decide +kernel
  have hlen : q.length ≤ maxBufferSize := by decide
  have hne : NonemptyReads arrivals := by unfold NonemptyReads; decide
  have heq : arrived arrivals = q := by decide
  have hroom : ¬ HasRoom request arrivals := by
    simp only [HasRoom, arrivals, IsNewline]
    decide
  obtain ⟨-, ctx₁, ctx₂, response, hexec, hexec'⟩ :=
    hall (fun _ => none) (acceptCallbackHttp .zero) q request arrivals 7 hreceiving hq hlen hne heq
  obtain ⟨_, hrefused⟩ := hreceiving.exec_of_not_hasRoom (fun _ => none) [] hq hlen
    hne heq hroom
  obtain ⟨_, -, hsingle⟩ := hreceiving.exec_of_hasRoom (fun _ => none) [] hq hlen
    (nonemptyReads_single 7 hq.ne_nil) (by simp) trivial
  rw [requestAnswer_none, hexec'] at hsingle
  rw [hexec] at hrefused
  obtain rfl : response = badRequest := by simpa using (Prod.mk.inj (Option.some.inj hrefused)).2
  have h404 := (List.cons.inj (Prod.mk.inj (Option.some.inj hsingle)).2).1
  exact Http.serve404_ne_serve400 (congrArg Response.head h404).symm

end Yotta.Server
