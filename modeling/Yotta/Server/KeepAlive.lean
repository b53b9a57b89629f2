import Yotta.Server.Segments
import Yotta.Server.Settled

/-!
# Keep-alive connections

What an earlier request leaves behind in `user_data`, and what becomes of the bytes
behind a request.

Results:
* `SessionInv.after`: whatever is read, the connection waits for a request, and its
  member `offset` is where the last body that was sent begins.
* `keepAlive_iff`: a request is answered as on a fresh connection if and only if its headers
  settle the answer, or it is refused for lack of room.
* `serveStep_pipelined`: the bytes behind a request in the same read are dropped.
-/

namespace Yotta.Server

open Yotta.Bytes Yotta.Core Yotta.Numeral Yotta.Picohttp Yotta.Time

/-! ## Any session -/

section

variable {fs : FileSystem} {ctx : HttpCtx} {acc : List UInt8} {n : ℕ} {arrival : Arrival}
variable {rs : List Response}

/-- Where the last body that was sent begins; `0` when none was. -/
def lastOffset (responses : List Response) : ℕ :=
  ((responses.filterMap (·.body)).getLast?.map Prod.fst).getD 0

@[simp] theorem lastOffset_nil : lastOffset [] = 0 := rfl

theorem lastOffset_concat_some (head : List UInt8) (offset length : ℕ) :
    lastOffset (rs ++ [{ head, body := some (offset, length) }]) = offset := by
  simp [lastOffset]

theorem lastOffset_concat_none (head : List UInt8) :
    lastOffset (rs ++ [{ head, body := none }]) = lastOffset rs := by
  simp [lastOffset]

theorem offset_finalize {u : UserData} (head : List UInt8) (h : u.offset = lastOffset rs) :
    (u.finalize head false).offset = lastOffset (rs ++ [{ head, body := none }]) :=
  h.trans (lastOffset_concat_none head).symm

/-- The member `offset` is where the body of an answer begins. -/
theorem offset_carryOut (answer : Answer) (h : ctx.userData.offset = lastOffset rs) :
    (carryOut ctx answer).userData.offset =
      lastOffset (rs ++ [answer.response ctx.userData.offset]) := by
  cases answer with
  | notFound => exact offset_finalize _ h
  | file found verdict =>
    have hopen : (openFound ctx found).userData.offset = lastOffset rs := h
    cases verdict with
    | badRequest => exact offset_finalize _ hopen
    | notModified => exact offset_finalize _ hopen
    | partialContent first last => exact (lastOffset_concat_some _ _ _).symm
    | full => exact (lastOffset_concat_some _ _ _).symm

/-- What holds between any two reads of a session. -/
structure SessionInv (s : HttpCtx × List Response) : Prop where
  awaiting : Awaiting s.1
  offset : s.1.userData.offset = lastOffset s.2

theorem sessionInv_new (mem : UserData) : SessionInv (acceptCallbackHttp mem, []) where
  awaiting := awaiting_of_receiving (receiving_new mem)
  offset := rfl

theorem SessionInv.step {s t : HttpCtx × List Response} (h : SessionInv s)
    (hs : serveStep fs s arrival = some t) : SessionInv t := by
  obtain ⟨⟨acc, n, h, -⟩, hoffset⟩ := h
  obtain ⟨hb, hfit, ctx', hread, rfl⟩ := serveStep_eq_some hs
  have hlt := h.length_lt
  rw [h.toRead] at hfit
  have hsent := awaiting_of_receiving (receiving_sendResponse ctx')
  rcases h.readArrival_cases hb (by omega) hread with ⟨hawait, hoff⟩ | ⟨request, rfl⟩ |
    ⟨_, request, answer, -, -, -, rfl⟩
  · obtain ⟨acc', n', h', -⟩ := id hawait
    rw [if_neg (by simp [h'.finalized])]
    exact ⟨hawait, hoff.trans hoffset⟩
  · rw [userData_armResponse, if_pos (finalized_refused _ _ _), response_refused]
    exact ⟨hsent, (offset_sendResponse _).trans (hoffset.trans (lastOffset_concat_none _).symm)⟩
  · rw [userData_armResponse, if_pos (finalized_carryOut _ _), response_carryOut]
    exact ⟨hsent, (offset_sendResponse _).trans (offset_carryOut answer hoffset)⟩

/-- **Any session** leaves the connection waiting for a request, with the member
`offset` where the last body that was sent begins. -/
theorem SessionInv.after {s t : HttpCtx × List Response} (h : SessionInv s)
    {arrivals : List Arrival} (hs : exec (serveStep fs) s arrivals = some t) : SessionInv t :=
  (run_of_exec hs).invariant h fun _ _ _ h _ hs => h.step hs

end

/-! ## Answers -/

/-- The same header decides a range, whatever is in memory behind the request. -/
theorem partialContent_eq {st : FileStat} {memory memory' : List UInt8} {headers : List PhrHeader}
    {first last first' last' : ℤ}
    (h : headerVerdict st memory headers = .ok (.partialContent first last))
    (h' : headerVerdict st memory' headers = .ok (.partialContent first' last')) :
    first = first' ∧ last = last' := by
  induction headers with
  | nil =>
    rw [headerVerdict, dated] at h
    split_ifs at h
    cases h
  | cons header headers ih =>
    rw [headerVerdict] at h h'
    split_ifs at h h' with h1 h2
    · cases hm : ifModifiedSince memory header.valueAt with
      | none => rw [hm] at h; cases h
      | some time =>
        cases hm' : ifModifiedSince memory' header.valueAt with
        | none => rw [hm'] at h'; cases h'
        | some time' =>
          rw [hm] at h
          rw [hm'] at h'
          dsimp only at h h'
          split_ifs at h h'
          · cases h
          · cases h
          · cases h'
          · exact ih h h'
    · obtain ⟨rfl, rfl⟩ := Verdict.partialContent.inj (Except.ok.inj (h.symm.trans h'))
      exact ⟨rfl, rfl⟩
    · exact ih h h'

theorem verdict_eq_of_response {st : FileStat} {memory memory' : List UInt8}
    {headers : List PhrHeader} {v v' : Verdict} {extension : List UInt8} {offset : ℕ}
    (h : headerVerdict st memory headers = .ok v) (h' : headerVerdict st memory' headers = .ok v')
    (heq : v.response st extension offset = v'.response st extension offset) : v = v' := by
  have hhead := congrArg Response.head heq
  have hbody := congrArg Response.body heq
  cases v <;> cases v'
  case partialContent.partialContent =>
    obtain ⟨rfl, rfl⟩ := partialContent_eq h h'
    rfl
  case badRequest.notModified => exact absurd hhead.symm Http.serve304_ne_serve400
  case notModified.badRequest => exact absurd hhead Http.serve304_ne_serve400
  case partialContent.full => exact (Http.text200_ne_text206 _ _ _ _ _ _ _ _ hhead.symm).elim
  case full.partialContent => exact (Http.text200_ne_text206 _ _ _ _ _ _ _ _ hhead).elim
  all_goals first | rfl | cases hbody

/-- An answer is known by its response. -/
theorem answer_eq_of_response {fs : FileSystem} {memory memory' : List UInt8} {request : Request}
    {answer answer' : Answer} {offset : ℕ} (h : requestAnswer fs memory request = .ok answer)
    (h' : requestAnswer fs memory' request = .ok answer')
    (heq : answer.response offset = answer'.response offset) : answer = answer' := by
  rw [requestAnswer] at h h'
  cases hfind : findFile fs (request.path.getD []) with
  | none =>
    rw [hfind] at h h'
    cases h
    cases h'
    rfl
  | some found =>
    rw [hfind] at h h'
    dsimp only at h h'
    cases hv : headerVerdict found.fileStat memory request.headers with
    | error e => rw [hv] at h; cases h
    | ok v =>
      cases hv' : headerVerdict found.fileStat memory' request.headers with
      | error e => rw [hv'] at h'; cases h'
      | ok v' =>
        rw [hv] at h
        rw [hv'] at h'
        cases h
        cases h'
        rw [verdict_eq_of_response hv hv' heq]

/-- Only a plain 200 depends on the member `offset`. -/
theorem response_eq_iff {answer : Answer} {offset offset' : ℕ} :
    answer.response offset = answer.response offset' ↔
      ((∃ found, answer = .file found .full) → offset = offset') := by
  constructor
  · rintro h ⟨found, rfl⟩
    have hbody := Option.some.inj (congrArg Response.body h)
    exact (Prod.mk.inj hbody).1
  · intro h
    cases answer with
    | notFound => rfl
    | file found verdict =>
      cases verdict with
      | full => rw [h ⟨found, rfl⟩]
      | _ => rfl

/-! ## Memory behind a request -/

theorem exists_behind {ctx : HttpCtx} (h : ctx.userData.finalized = false) {k : ℕ}
    (hk : k ≤ maxBufferSize) :
    ∃ memory : List UInt8,
      memory.length + k = 2 * maxBufferSize ∧ behind ctx k = memory ++ [0] := by
  have hbuf := ctx.userData.buf.length_eq
  have hresponse := ctx.userData.responseBuf.length_eq
  refine ⟨(ctx.userData.buf.bytes ++ ctx.userData.responseBuf.bytes).drop k, ?_, ?_⟩
  · rw [List.length_drop, List.length_append, hbuf, hresponse]
    omega
  · rw [behind, UserData.memory, List.drop_append_of_le_length, h]
    · rfl
    · rw [List.length_append]
      omega

/-- A fresh connection may find any bytes behind its first request. -/
theorem exists_fresh {k : ℕ} (hk : k ≤ maxBufferSize) {memory : List UInt8}
    (hlen : memory.length + k = 2 * maxBufferSize) :
    ∃ mem, behind (acceptCallbackHttp mem) k = memory ++ [0] := by
  have hfront : (List.replicate k (0 : UInt8)).length = k := List.length_replicate
  refine ⟨{ UserData.zero with
    buf := ⟨List.replicate k 0 ++ memory.take (maxBufferSize - k), ?_⟩
    responseBuf := ⟨memory.drop (maxBufferSize - k), ?_⟩ }, ?_⟩
  · rw [List.length_append, hfront, List.length_take]
    omega
  · rw [List.length_drop]
    omega
  · have hmem : (List.replicate k 0 ++ memory.take (maxBufferSize - k)) ++
        memory.drop (maxBufferSize - k) ++ [(0 : UInt8)] =
        List.replicate k 0 ++ (memory ++ [0]) := by
      rw [List.append_assoc (List.replicate k 0), List.take_append_drop, List.append_assoc]
    exact (congrArg (List.drop k) hmem).trans (List.drop_left' hfront)

/-! ## Independence -/

/-- The reads of a request produce the response that they produce on a fresh
connection, whatever memory that one is created in. -/
def AnsweredAsFresh (fs : FileSystem) (ctx : HttpCtx) (arrivals : List Arrival) : Prop :=
  ∀ mem, ∃ ctx₁ ctx₂ response, exec (serveStep fs) (ctx, []) arrivals = some (ctx₁, [response]) ∧
    exec (serveStep fs) (acceptCallbackHttp mem, []) arrivals = some (ctx₂, [response])

/-- A request for no file, or with headers that settle the answer behind the last body that
was sent. -/
def RequestSettled (fs : FileSystem) (responses : List Response) (q : List UInt8)
    (request : Request) : Prop :=
  ∀ found ∈ findFile fs (request.path.getD []),
    HeadersSettled found.fileStat q (lastOffset responses) request.headers

/-- There is one answer with any memory behind the request, which is a plain 200 only where the
last body that was sent begins at `0`. -/
def OneAnswer (fs : FileSystem) (responses : List Response) (q : List UInt8)
    (request : Request) : Prop :=
  ∃ answer, (∀ memory : List UInt8, memory.length + q.length = 2 * maxBufferSize →
      requestAnswer fs (q ++ (memory ++ [0])) request = .ok answer) ∧
    ((∃ found, answer = .file found .full) → lastOffset responses = 0)

section

variable {fs : FileSystem} {ctx : HttpCtx} {responses : List Response} {q : List UInt8}
variable {request : Request} {arrivals : List Arrival}

theorem AnsweredAsFresh.oneAnswer (h : AnsweredAsFresh fs ctx arrivals)
    (hctx : Receiving ctx [] maxHeaders) (hoff : ctx.userData.offset = lastOffset responses)
    (hq : Accepts maxHeaders q request) (hlen : q.length ≤ maxBufferSize)
    (hne : NonemptyReads arrivals) (heq : arrived arrivals = q)
    (hroom : HasRoom request arrivals) : OneAnswer fs responses q request := by
  obtain ⟨after, -, hused⟩ := hctx.exec_of_hasRoom fs [] hq hlen hne heq hroom
  obtain ⟨memory₀, hlen₀, hbehind₀⟩ := exists_behind hctx.finalized hlen
  rw [hbehind₀] at hused
  -- the answer on the used connection
  cases hanswer : requestAnswer fs (q ++ (memory₀ ++ [0])) request with
  | error e =>
    obtain ⟨_, _, _, hexec, -⟩ := h .zero
    rw [hexec, hanswer] at hused
    cases hused
  | ok answer =>
    rw [hanswer] at hused
    -- the answer on a fresh connection with any memory
    have hsame : ∀ memory : List UInt8, memory.length + q.length = 2 * maxBufferSize →
        ∃ answer', requestAnswer fs (q ++ (memory ++ [0])) request = .ok answer' ∧
          answer'.response 0 = answer.response ctx.userData.offset := by
      intro memory hmemory
      obtain ⟨mem, hmem⟩ := exists_fresh hlen hmemory
      obtain ⟨_, _, response, hexec, hexec'⟩ := h mem
      obtain ⟨_, -, hfresh⟩ := (receiving_new mem).exec_of_hasRoom fs [] hq hlen
        hne heq hroom
      rw [hexec', hmem] at hfresh
      rw [hexec] at hused
      cases hanswer' : requestAnswer fs (q ++ (memory ++ [0])) request with
      | error e => rw [hanswer'] at hfresh; cases hfresh
      | ok answer' =>
        rw [hanswer'] at hfresh
        have h₁ : response = answer.response ctx.userData.offset :=
          (List.cons.inj (Prod.mk.inj (Option.some.inj hused)).2).1
        have h₂ : response = answer'.response 0 :=
          (List.cons.inj (Prod.mk.inj (Option.some.inj hfresh)).2).1
        exact ⟨answer', rfl, by rw [← h₁, ← h₂]⟩
    obtain ⟨answer₀, hanswer₀, hresponse₀⟩ := hsame memory₀ hlen₀
    rw [hanswer] at hanswer₀
    cases hanswer₀
    refine ⟨answer, fun memory hmemory => ?_, fun hfull =>
      hoff ▸ (response_eq_iff.mp hresponse₀ hfull).symm⟩
    obtain ⟨answer', hanswer', hresponse'⟩ := hsame memory hmemory
    rw [hanswer', answer_eq_of_response hanswer' hanswer (hresponse'.trans hresponse₀.symm)]

theorem OneAnswer.answered (h : OneAnswer fs responses q request)
    (hctx : Receiving ctx [] maxHeaders) (hoff : ctx.userData.offset = lastOffset responses)
    (hq : Accepts maxHeaders q request) (hlen : q.length ≤ maxBufferSize)
    (hne : NonemptyReads arrivals) (heq : arrived arrivals = q)
    (hroom : HasRoom request arrivals) : AnsweredAsFresh fs ctx arrivals := by
  intro mem
  obtain ⟨answer, hanswer, hoffset⟩ := h
  obtain ⟨after, -, hused⟩ := hctx.exec_of_hasRoom fs [] hq hlen hne heq hroom
  obtain ⟨after', -, hfresh⟩ := (receiving_new mem).exec_of_hasRoom fs [] hq hlen
    hne heq hroom
  obtain ⟨memory, hmemory, hbehind⟩ := exists_behind hctx.finalized hlen
  obtain ⟨memory', hmemory', hbehind'⟩ := exists_behind (receiving_new mem).finalized hlen
  rw [hbehind, hanswer memory hmemory] at hused
  rw [hbehind', hanswer memory' hmemory'] at hfresh
  have hresponse : answer.response ctx.userData.offset =
      answer.response (acceptCallbackHttp mem).userData.offset :=
    response_eq_iff.mpr fun hfull => hoff.trans (hoffset hfull)
  refine ⟨after answer, after' answer, _, hused, hfresh.trans ?_⟩
  rw [hresponse]
  rfl

/-- Settled headers are those of a request with one answer. -/
theorem requestSettled_iff (hq : Accepts maxHeaders q request) (hlen : q.length ≤ maxBufferSize) :
    RequestSettled fs responses q request ↔ OneAnswer fs responses q request := by
  obtain ⟨r, -, htext, rfl⟩ := parseRequest_eq_done.mp hq.parse
  rw [List.append_nil] at htext
  subst htext
  have hends := endsWith_headText r
  obtain ⟨memory₀, hmemory₀⟩ : ∃ memory : List UInt8,
      memory.length + (requestLines.headText r).length = 2 * maxBufferSize :=
    ⟨List.replicate (2 * maxBufferSize - (requestLines.headText r).length) 0, by
      rw [List.length_replicate]; omega⟩
  unfold RequestSettled OneAnswer requestAnswer
  cases findFile fs (r.request.path.getD []) with
  | none =>
    refine iff_of_true (fun found hmem => by cases hmem) ⟨.notFound, fun _ _ => rfl, ?_⟩
    rintro ⟨found, h⟩
    cases h
  | some found =>
    dsimp only
    constructor
    · intro h
      obtain ⟨v, hv, hoffset⟩ := (headersSettled_iff hends hlen).mp (h found rfl)
      refine ⟨.file found v, fun memory hmemory => ?_, ?_⟩
      · exact congrArg (Except.map (Answer.file found)) (hv memory hmemory)
      · rintro ⟨found', h⟩
        cases h
        exact hoffset rfl
    · rintro ⟨answer, hanswer, hoffset⟩ found' hmem
      obtain rfl := Option.some.inj hmem
      obtain ⟨v, hv⟩ : ∃ v, answer = .file found v := by
        have h₀ := hanswer memory₀ hmemory₀
        cases hv : headerVerdict found.fileStat (requestLines.headText r ++ (memory₀ ++ [0]))
            r.request.headers with
        | error e => rw [hv] at h₀; cases h₀
        | ok v => rw [hv] at h₀; exact ⟨v, (Except.ok.inj h₀).symm⟩
      subst hv
      refine (headersSettled_iff hends hlen).mpr ⟨v, fun memory hmemory => ?_, fun hfull =>
        hoffset ⟨found, by rw [hfull]⟩⟩
      have h := hanswer memory hmemory
      change (headerVerdict found.fileStat _ (headersAt _ r.headers.lines)).map _ = _ at h
      cases hv : headerVerdict found.fileStat (requestLines.headText r ++ (memory ++ [0]))
          (headersAt (requestLines.text r.line).length r.headers.lines) with
      | error e => rw [hv] at h; cases h
      | ok v' => rw [hv] at h; cases h; rfl

/-- **Keep-alive.** After any session, a request is answered as on a fresh
connection exactly when it is refused for lack of room, or it is for no file, or its
headers settle the answer behind the last body that was sent. -/
theorem keepAlive_iff {mem : UserData} {history : List Arrival}
    (hhistory : exec (serveStep fs) (acceptCallbackHttp mem, []) history = some (ctx, responses))
    (hbetween : ctx.userData.counter = 0) (hq : Accepts maxHeaders q request)
    (hlen : q.length ≤ maxBufferSize) (hne : NonemptyReads arrivals)
    (heq : arrived arrivals = q) :
    AnsweredAsFresh fs ctx arrivals ↔
      ¬ HasRoom request arrivals ∨ RequestSettled fs responses q request := by
  have hsession := (sessionInv_new mem).after hhistory
  have hctx : Receiving ctx [] maxHeaders := hsession.awaiting.receiving hbetween
  by_cases hroom : HasRoom request arrivals
  · rw [or_iff_right (not_not.mpr hroom), requestSettled_iff hq hlen]
    exact ⟨fun h => h.oneAnswer hctx hsession.offset hq hlen hne heq hroom,
      fun h => h.answered hctx hsession.offset hq hlen hne heq hroom⟩
  · refine iff_of_true (fun mem => ?_) (Or.inl hroom)
    obtain ⟨ctx₁, hexec⟩ := hctx.exec_of_not_hasRoom fs [] hq hlen hne heq hroom
    obtain ⟨ctx₂, hexec'⟩ := (receiving_new mem).exec_of_not_hasRoom fs [] hq hlen
      hne heq hroom
    exact ⟨ctx₁, ctx₂, _, hexec, hexec'⟩

end

/-! ## A range, and then the whole file -/

theorem findFile_const {file : File} {fileStat : FileStat} (h : file.fstat = some fileStat)
    (hreg : fileStat.isReg) {target : List UInt8} (hok : lengthOk (queryCut target)) :
    ∃ found, findFile (fun _ => some file) target = some found ∧ found.fileStat = fileStat := by
  obtain ⟨data, fstat, hsize⟩ := file
  dsimp only at h
  subst h
  rw [findFile, if_pos hok, Option.bind_some]
  simp only [foundFile]
  rw [dif_pos hreg]
  exact ⟨_, rfl, rfl⟩

theorem accepts_rangeRequest : Accepts maxHeaders rangeRequest
    { method := some (ascii "GET"), path := some (ascii "/f"), minorVersion := 1
      headers := [
        { name := some (ascii "Range"), value := ascii "bytes=2-", valueAt := 24 }] } := by
  unfold Accepts
  decide +kernel

theorem accepts_plainRequest : Accepts maxHeaders plainRequest
    { method := some (ascii "GET"), path := some (ascii "/f"), minorVersion := 1
      headers := [] } := by
  unfold Accepts
  decide

theorem accepts_sinceRequest :
    Accepts maxHeaders (sinceRequest "Sun, 06 Nov 1994 08:49:37 GMT" "")
      (getRequest [sinceHeader "Sun, 06 Nov 1994 08:49:37 GMT"]) :=
  parse_sinceRequest.1

/-- A date that is read to its end does not stop, whatever the request goes on with. -/
theorem settled_sinceHeader (st : FileStat) (hst : st.stMtime = 0) (offset : ℕ) :
    HeadersSettled st (sinceRequest "Sun, 06 Nov 1994 08:49:37 GMT" "") offset
      [sinceHeader "Sun, 06 Nov 1994 08:49:37 GMT"] := by
  have hread : reading dateFormat (sinceText (sinceRequest "Sun, 06 Nov 1994 08:49:37 GMT" "")
      (sinceHeader "Sun, 06 Nov 1994 08:49:37 GMT")) stamp =
      .read { sec := 37, min := 49, hour := 8, mday := 6, mon := 10, year := 1994, wday := 0 } := by
    decide +kernel
  have hname : (sinceHeader "Sun, 06 Nov 1994 08:49:37 GMT").name =
      some (ascii "If-Modified-Since") := rfl
  rw [HeadersSettled, if_pos hname]
  refine ⟨?_, fun tm htm htime => ?_⟩
  · rintro ⟨format, tm, hopened⟩
    rw [hread] at hopened
    cases hopened
  · rw [hread] at htm
    cases htm
    rw [hst] at htime
    exact absurd htime (by decide)

/-- After the whole file, it is sent again as on a fresh connection, and so is the answer that
it has not changed. -/
theorem keepAlive_served :
    ∃ ctx responses, exec (serveStep threeBytes) (acceptCallbackHttp .zero, [])
        [⟨7, plainRequest⟩] = some (ctx, responses) ∧ responses.length = 1 ∧
      AnsweredAsFresh threeBytes ctx [⟨8, plainRequest⟩] ∧
      AnsweredAsFresh threeBytes ctx
        [⟨8, sinceRequest "Sun, 06 Nov 1994 08:49:37 GMT" ""⟩] := by
  have hstate : (exec (serveStep threeBytes) (acceptCallbackHttp .zero, [])
      [⟨7, plainRequest⟩]).map (fun s => (s.1.userData.counter, lastOffset s.2, s.2.length)) =
      some (0, 0, 1) := by
    decide +kernel
  obtain ⟨⟨ctx, responses⟩, hexec, hstate⟩ := Option.map_eq_some_iff.mp hstate
  simp only [Prod.mk.injEq] at hstate
  obtain ⟨hcounter, hoffset, hlength⟩ := hstate
  have hfile : ∀ target, lengthOk (queryCut target) → ∀ found ∈ findFile threeBytes target,
      found.fileStat.stMtime = 0 := by
    intro target hok found hfound
    obtain ⟨found', hfind, hst⟩ := @findFile_const (File.regular (ascii "abc") (by decide)) _ rfl
      rfl _ hok
    obtain rfl : found' = found := Option.some.inj (hfind.symm.trans hfound)
    rw [hst]
  refine ⟨ctx, responses, hexec, hlength,
    (keepAlive_iff hexec hcounter accepts_plainRequest (by decide)
      (nonemptyReads_single 8 accepts_plainRequest.ne_nil) (by simp)).mpr (Or.inr ?_),
    (keepAlive_iff hexec hcounter accepts_sinceRequest (by decide)
      (nonemptyReads_single 8 accepts_sinceRequest.ne_nil) (by simp)).mpr (Or.inr ?_)⟩
  · rintro found hfound
    exact ⟨hfile _ (by decide) found hfound ▸ representable_epoch, hoffset⟩
  · intro found hfound
    exact settled_sinceHeader _ (hfile _ (by decide) found hfound) _

/-- After a range of a file, a request for the whole file is not answered as on a
fresh connection. -/
theorem keepAlive_leaks :
    ¬ ∀ (fs : FileSystem) (mem : UserData) (history : List Arrival) (ctx : HttpCtx)
      (responses : List Response) (q : List UInt8) (request : Request) (arrivals : List Arrival),
      exec (serveStep fs) (acceptCallbackHttp mem, []) history = some (ctx, responses) →
      ctx.userData.counter = 0 → Accepts maxHeaders q request → q.length ≤ maxBufferSize →
      NonemptyReads arrivals → arrived arrivals = q → HasRoom request arrivals →
      AnsweredAsFresh fs ctx arrivals := by
  intro hall
  have hlen : (ascii "hello world").length < 2 ^ 63 := by decide
  let file := File.regular (ascii "hello world") hlen
  have hnonempty (q : List UInt8) (hq : q ≠ []) : NonemptyReads [⟨7, q⟩] :=
    nonemptyReads_single 7 hq
  have hok : lengthOk (queryCut (ascii "/f")) := by decide
  obtain ⟨found, hfound, hst⟩ := @findFile_const file _ rfl rfl _ hok
  have hrange (memory : List UInt8) : requestAnswer (fun _ => some file) memory
      { method := some (ascii "GET"), path := some (ascii "/f"), minorVersion := 1
        headers := [{ name := some (ascii "Range"), value := ascii "bytes=2-", valueAt := 24 }] } =
      .ok (.file found (.partialContent 2 10)) := by
    have hbounds : rangeBounds found.fileStat.stSize (ascii "bytes=2-") = .ok (some (2, 10)) := by
      rw [hst]
      exact (by decide : rangeBounds 11 (ascii "bytes=2-") = .ok (some (2, 10)))
    have hm : Representable found.fileStat.stMtime := by
      rw [hst]
      exact representable_epoch
    have hverdict : headerVerdict found.fileStat memory
        [{ name := some (ascii "Range"), value := ascii "bytes=2-", valueAt := 24 }] =
        .ok (.partialContent 2 10) := by
      rw [headerVerdict, if_neg (by decide), if_pos rfl, rangeVerdict_of_bounds hbounds,
        dated, if_pos hm]
    rw [requestAnswer, Option.getD_some, hfound]
    dsimp only
    rw [hverdict]
    rfl
  have hplain (memory : List UInt8) : requestAnswer (fun _ => some file) memory
      { method := some (ascii "GET"), path := some (ascii "/f"), minorVersion := 1
        headers := [] } = .ok (.file found .full) := by
    rw [requestAnswer, Option.getD_some, hfound]
    dsimp only
    have hm : Representable found.fileStat.stMtime := by
      rw [hst]
      exact representable_epoch
    rw [headerVerdict, dated, if_pos hm]
    rfl
  -- the session: a range of the file
  obtain ⟨after, hafter, hexec⟩ := (receiving_new .zero).exec_of_hasRoom (fun _ => some file) []
    accepts_rangeRequest (by decide) (hnonempty rangeRequest (by decide)) (by simp) trivial
  rw [hrange] at hexec
  have hfresh := hall _ _ _ _ _ plainRequest _ [⟨7, plainRequest⟩] hexec (hafter _).counter
    accepts_plainRequest (by decide) (hnonempty _ (by decide)) (by simp) trivial
  have hoff := ((sessionInv_new .zero).after hexec).offset
  obtain ⟨answer, hanswer, hfull⟩ := hfresh.oneAnswer (hafter _) hoff accepts_plainRequest
    (by decide) (hnonempty _ (by decide)) (by simp) trivial
  have hmem := hanswer (List.replicate (2 * maxBufferSize - plainRequest.length) 0) (by
    rw [List.length_replicate]
    exact Nat.sub_add_cancel (by decide))
  rw [hplain] at hmem
  cases hmem
  have hlast : lastOffset ([] ++ [Answer.response (acceptCallbackHttp .zero).userData.offset
      (.file found (.partialContent 2 10))]) = 2 := lastOffset_concat_some _ _ _
  exact absurd (hlast.symm.trans (hfull ⟨found, rfl⟩)) (by decide)

/-! ## Bytes behind a request -/

section

variable {fs : FileSystem} {ctx : HttpCtx} {acc : List UInt8} {n : ℕ} {rs : List Response}
variable {arrival : Arrival} {q rest : List UInt8} {request : Request}

/-- A read that brings the rest of a request is not empty. -/
theorem bytes_ne_nil (hacc : acc.length < q.length) (hread : acc ++ arrival.bytes = q ++ rest) :
    arrival.bytes ≠ [] := by
  intro hnil
  have hsum := congrArg List.length hread
  rw [hnil, List.append_nil, List.length_append] at hsum
  omega

variable (fs rs) in
/-- The rest of a request with room, and bytes behind it. -/
theorem Receiving.serveStep_rest (h : Receiving ctx acc n) (hq : Accepts maxHeaders q request)
    (hroom : request.headers.length ≤ n) (hacc : acc.length < q.length)
    (hread : acc ++ arrival.bytes = q ++ rest) (hlen : (q ++ rest).length ≤ maxBufferSize) :
    ∃ after : Answer → HttpCtx, (∀ answer, Receiving (after answer) [] maxHeaders) ∧
      serveStep fs (ctx, rs) arrival =
        (requestAnswer fs (q ++ rest ++ behind ctx (q ++ rest).length)
          request).toOption.map fun answer =>
            (after answer, rs ++ [answer.response ctx.userData.offset]) := by
  have hsum := congrArg List.length hread
  rw [List.length_append] at hsum
  have hcall := phrParseRequest_of_le hq hroom hacc rest
  rw [← hread] at hcall
  refine ⟨fun answer => sendResponse (armResponse (carryOut (parsed ctx arrival request) answer)),
    fun answer => receiving_sendResponse _, ?_⟩
  rw [h.serveStep_accepted _ _ (bytes_ne_nil hacc hread) (by omega) (by omega) hcall, hread, hsum]

/-- **Pipelining.** Where a read brings the rest of a request and bytes behind it,
the one request is answered, or refused for lack of room, and the connection
waits for the next one with an empty buffer: the bytes behind are dropped. -/
theorem serveStep_pipelined (h : Receiving ctx acc n) (hq : Accepts maxHeaders q request)
    (hacc : acc.length < q.length) (hread : acc ++ arrival.bytes = q ++ rest)
    (hlen : (q ++ rest).length ≤ maxBufferSize) :
    ∃ after : Answer → HttpCtx, (∀ answer, Receiving (after answer) [] maxHeaders) ∧
      serveStep fs (ctx, rs) arrival =
        if request.headers.length ≤ n then
          (requestAnswer fs (q ++ rest ++ behind ctx (q ++ rest).length)
            request).toOption.map fun answer =>
              (after answer, rs ++ [answer.response ctx.userData.offset])
        else some (after .notFound, rs ++ [badRequest]) := by
  split_ifs with hroom
  · exact h.serveStep_rest _ _ hq hroom hacc hread hlen
  · have hsum := congrArg List.length hread
    rw [List.length_append] at hsum
    have hcall := phrParseRequest_of_lt hq (lt_of_not_ge hroom) hacc rest
    rw [← hread] at hcall
    obtain ⟨ctx', hstep, h', -⟩ := h.serveStep_rejected fs rs
      (bytes_ne_nil hacc hread) (by omega) (Prod.ext hcall rfl)
    exact ⟨fun _ => ctx', fun _ => h', hstep⟩

end

/-- Two requests in one read of a fresh connection. -/
theorem serveStep_pipelined_two :
    ∃ ctx', Receiving ctx' [] maxHeaders ∧
      serveStep (fun _ => none) (acceptCallbackHttp .zero, []) ⟨7, plainRequest ++ rangeRequest⟩ =
        some (ctx', [{ head := Http.serve404, body := none }]) := by
  have hread : [] ++ (Arrival.mk 7 (plainRequest ++ rangeRequest)).bytes =
      plainRequest ++ rangeRequest := rfl
  obtain ⟨after, hafter, hstep⟩ := @serveStep_pipelined (fun _ => none) _ [] _ [] _ _ _ _
    (receiving_new .zero) accepts_plainRequest (by decide) hread (by decide)
  rw [if_pos (by decide), requestAnswer_none] at hstep
  exact ⟨_, hafter .notFound, hstep⟩

/-- Of two requests in one read, only the first is answered. -/
theorem serveStep_drops :
    ¬ ∀ (fs : FileSystem) (ctx : HttpCtx) (fd : ℕ) (qs : List (List UInt8)),
      Receiving ctx [] maxHeaders → (∀ q ∈ qs, ∃ request, Accepts maxHeaders q request) →
      qs.flatten.length ≤ maxBufferSize → qs ≠ [] →
      ∃ ctx' responses, serveStep fs (ctx, []) ⟨fd, qs.flatten⟩ = some (ctx', responses) ∧
        responses.length = qs.length := by
  intro hall
  obtain ⟨ctx', responses, hstep, hcount⟩ := hall (fun _ => none) (acceptCallbackHttp .zero) 7
    [plainRequest, rangeRequest] (receiving_new .zero)
    (by simpa using ⟨⟨_, accepts_plainRequest⟩, ⟨_, accepts_rangeRequest⟩⟩) (by decide) (by simp)
  have hread : [] ++ (Arrival.mk 7 [plainRequest, rangeRequest].flatten).bytes =
      plainRequest ++ rangeRequest := by simp
  obtain ⟨after, -, hstep'⟩ := (receiving_new .zero).serveStep_rest (fun _ => none) []
    accepts_plainRequest (by decide) (by decide) hread (by decide)
  rw [requestAnswer_none, hstep] at hstep'
  obtain ⟨-, rfl⟩ := Prod.mk.inj (Option.some.inj hstep')
  cases hcount

end Yotta.Server
