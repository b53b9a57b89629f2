import Yotta.Picohttp.Incremental
import Yotta.Server.Callbacks

/-!
# Sessions

A connection reads its requests one after the other, each behind the response to
the one before. `Receiving ctx acc n` says that the bytes `acc` of a request have
arrived, and that there is room for `n` headers at the next call of the parser.

Results:
* `readArrival_incomplete`, `readArrival_rejected` and `readArrival_accepted`: what a
  read does, by the outcome of the parser.
* `receiving_sendResponse`: a connection that has sent its response receives the
  next request.
-/

namespace Yotta.Server

open Yotta.Bytes Yotta.Core Yotta.Numeral Yotta.Picohttp

/-! ## Model -/

/-- A read: its bytes, and the descriptor that `open` returns next. -/
structure Arrival where
  fd : ℕ
  bytes : List UInt8

/-- The context that `read_callback_http` is called with. -/
def received (ctx : HttpCtx) (arrival : Arrival) : HttpCtx :=
  { ctx with
    userData := { ctx.userData with
      buf := ctx.userData.buf.write ctx.readBuf arrival.bytes
      sinceAccept := ctx.userData.sinceAccept ++ arrival.bytes }
    readCallback := none
    sys := { ctx.sys with nextFd := arrival.fd } }

/-- `read_callback_http` on a read. -/
def readArrival (fs : FileSystem) (ctx : HttpCtx) (arrival : Arrival) :
    Except Fault HttpCtx :=
  (readCallbackHttp fs (received ctx arrival) ctx.readBuf arrival.bytes.length).map Prod.fst

/-- The write callbacks of a response, each called when all bytes before it are
written. -/
def sendResponse (ctx : HttpCtx) : HttpCtx :=
  let written (ctx : HttpCtx) := { ctx with writeCallback := none, alreadyWritten := ctx.toWrite }
  let ctx := (writeHeaderCallback (written ctx)).1
  if ctx.writeCallback.isSome then (httpFinishCallback (written ctx)).1 else ctx

/-- A read, and the response to the request that it completes. The response is sent
before the next read. -/
def serveRead (fs : FileSystem) (ctx : HttpCtx) (arrival : Arrival) :
    Except Fault (HttpCtx × List Response) :=
  (readArrival fs ctx arrival).map fun ctx =>
    if ctx.userData.finalized then (sendResponse ctx, [ctx.userData.response]) else (ctx, [])

/-- One step of a session: a read that returns at least one byte and at most the
armed number. The state also holds the responses sent so far; an exception ends
the session. -/
def serveStep (fs : FileSystem) (s : HttpCtx × List Response) (arrival : Arrival) :
    Option (HttpCtx × List Response) :=
  if arrival.bytes ≠ [] ∧ arrival.bytes.length ≤ s.1.toRead then
    match serveRead fs s.1 arrival with
    | .ok (ctx, responses) => some (ctx, s.2 ++ responses)
    | .error _ => none
  else none

/-! ## A request for a file -/

/-- `GET /f`, with and without a range. -/
def rangeRequest : List UInt8 := ascii "GET /f HTTP/1.1\r\nRange: bytes=2-\r\n\r\n"

@[inherit_doc rangeRequest]
def plainRequest : List UInt8 := ascii "GET /f HTTP/1.1\r\n\r\n"

/-- Every name is a file with three bytes. -/
def threeBytes : FileSystem := fun _ => some (File.regular (ascii "abc") (by decide))

/-! ## Receiving -/

/-- The bytes `acc` of a request have arrived, and the parser has room for `n`
headers. -/
structure Receiving (ctx : HttpCtx) (acc : List UInt8) (n : ℕ) : Prop where
  readCallback : ctx.readCallback = some .readCallbackHttp
  writeCallback : ctx.writeCallback = none
  readBuf : ctx.readBuf = acc.length
  toRead : ctx.toRead = maxBufferSize - acc.length
  length_lt : acc.length < maxBufferSize
  counter : ctx.userData.counter = acc.length
  buf : ctx.userData.buf.bytes.take acc.length = acc
  finalized : ctx.userData.finalized = false
  numHeaders : ctx.userData.parser.numHeaders = n
  fileFd : ctx.userData.fileFd = 0

/-- The connection waits for a request, or for the rest of one. -/
def Awaiting (ctx : HttpCtx) : Prop :=
  ∃ acc n, Receiving ctx acc n ∧ (acc = [] → n = maxHeaders)

theorem awaiting_of_receiving {ctx : HttpCtx} (h : Receiving ctx [] maxHeaders) : Awaiting ctx :=
  ⟨[], maxHeaders, h, fun _ => rfl⟩

/-- Between two requests, a connection waits for one as a fresh connection does. -/
theorem Awaiting.receiving {ctx : HttpCtx} (h : Awaiting ctx)
    (hcounter : ctx.userData.counter = 0) : Receiving ctx [] maxHeaders := by
  obtain ⟨acc, n, h, hn⟩ := h
  have hacc : acc = [] := List.length_eq_zero_iff.mp (h.counter.symm.trans hcounter)
  rwa [hn hacc, hacc] at h

/-- The memory behind the first `k` bytes of the read buffer. -/
def behind (ctx : HttpCtx) (k : ℕ) : List UInt8 := ctx.userData.memory.drop k

theorem receiving_acceptLogic {ctx : HttpCtx} (h : ctx.writeCallback = none) :
    Receiving (acceptLogic ctx) [] maxHeaders where
  readCallback := rfl
  writeCallback := h
  readBuf := rfl
  toRead := rfl
  length_lt := by decide
  counter := rfl
  buf := rfl
  finalized := rfl
  numHeaders := rfl
  fileFd := rfl

theorem receiving_new (mem : UserData) : Receiving (acceptCallbackHttp mem) [] maxHeaders :=
  receiving_acceptLogic rfl

theorem receiving_httpFinishCallback {ctx : HttpCtx} (h : ctx.writeCallback = none) :
    Receiving (httpFinishCallback ctx).1 [] maxHeaders := by
  unfold httpFinishCallback
  dsimp only
  split_ifs
  · exact receiving_acceptLogic h
  · exact receiving_acceptLogic h

/-- A connection that has sent its response receives the next request. -/
theorem receiving_sendResponse (ctx : HttpCtx) : Receiving (sendResponse ctx) [] maxHeaders := by
  unfold sendResponse
  dsimp only
  split_ifs with h
  · exact receiving_httpFinishCallback rfl
  · unfold writeHeaderCallback at h ⊢
    dsimp only at h ⊢
    split_ifs at h ⊢
    · exact absurd rfl h
    · exact receiving_httpFinishCallback rfl

theorem offset_httpFinishCallback (ctx : HttpCtx) :
    (httpFinishCallback ctx).1.userData.offset = ctx.userData.offset := by
  unfold httpFinishCallback
  dsimp only
  split_ifs <;> rfl

theorem offset_sendResponse (ctx : HttpCtx) :
    (sendResponse ctx).userData.offset = ctx.userData.offset := by
  unfold sendResponse
  dsimp only
  split_ifs
  · rw [offset_httpFinishCallback]
    unfold writeHeaderCallback
    dsimp only
    split_ifs
    · rfl
    · exact offset_httpFinishCallback _
  · unfold writeHeaderCallback
    dsimp only
    split_ifs
    · rfl
    · exact offset_httpFinishCallback _

/-! ## One read -/

/-- The connection behind the parser. -/
def parsed (ctx : HttpCtx) (arrival : Arrival) (request : Request) : HttpCtx :=
  { received ctx arrival with
    userData := { (received ctx arrival).userData with
      counter := ctx.userData.counter + arrival.bytes.length
      parser := { request, numHeaders := request.headers.length } } }

/-- The connection behind a parser that refuses the request. -/
def refused (ctx : HttpCtx) (arrival : Arrival) (request : Request) : HttpCtx :=
  { parsed ctx arrival request with
    userData := (parsed ctx arrival request).userData.return400 }

/-- The answer to a request that is refused. -/
def badRequest : Response := { head := Http.serve400, body := none }

@[simp] theorem finalized_refused (ctx : HttpCtx) (arrival : Arrival) (request : Request) :
    (refused ctx arrival request).userData.finalized = true := rfl

theorem response_refused (ctx : HttpCtx) (arrival : Arrival) (request : Request) :
    (refused ctx arrival request).userData.response = badRequest :=
  UserData.response_finalize Http.length_serve400_le false

/-- The end of `read_callback_http` for a finalized connection. -/
def armResponse (ctx : HttpCtx) : HttpCtx :=
  { ctx with sys := { ctx.sys with cork := true } }.asyncWrite .writeHeaderCallback
    ctx.userData.responseBuf.bytes ctx.userData.responseSize

@[simp] theorem userData_armResponse (ctx : HttpCtx) : (armResponse ctx).userData = ctx.userData :=
  rfl

@[simp] theorem finalized_carryOut (ctx : HttpCtx) (answer : Answer) :
    (carryOut ctx answer).userData.finalized = true := by
  cases answer with
  | notFound => rfl
  | file found verdict => exact finalized_answer _ verdict

theorem afterParse_of_finalized {ctx : HttpCtx} (h : ctx.userData.finalized = true)
    (buf read : ℕ) : (afterParse ctx buf read).1 = armResponse ctx := by
  rw [afterParse]
  dsimp only
  rw [if_pos h]
  rfl

/-- The response of an answer is written completely. -/
theorem response_carryOut (ctx : HttpCtx) (answer : Answer) :
    (carryOut ctx answer).userData.response = answer.response ctx.userData.offset := by
  cases answer with
  | notFound => exact UserData.response_finalize Http.length_serve404_le false
  | file found verdict => exact response_answer rfl found.length_extension verdict

section

variable {fs : FileSystem} {ctx : HttpCtx} {acc : List UInt8} {n : ℕ} {arrival : Arrival}

/-- What has arrived is at the start of the buffer, and the memory behind it is as
it was. -/
theorem Receiving.memory_received (h : Receiving ctx acc n)
    (hfit : acc.length + arrival.bytes.length ≤ maxBufferSize) :
    (received ctx arrival).userData.memory =
      acc ++ arrival.bytes ++ behind ctx (acc.length + arrival.bytes.length) := by
  have hbuf := ctx.userData.buf.length_eq
  have htake := Buffer.take_write (b := ctx.userData.buf) hfit
  have hdrop := Buffer.drop_write (b := ctx.userData.buf) hfit
  rw [h.buf] at htake
  have hsplit : (ctx.userData.buf.write acc.length arrival.bytes).bytes =
      acc ++ arrival.bytes ++
        ctx.userData.buf.bytes.drop (acc.length + arrival.bytes.length) := by
    rw [← htake, ← hdrop, List.take_append_drop]
  have hbehind : behind ctx (acc.length + arrival.bytes.length) =
      ctx.userData.buf.bytes.drop (acc.length + arrival.bytes.length) ++
        (ctx.userData.responseBuf.bytes ++ [if ctx.userData.finalized then 1 else 0]) := by
    rw [behind, UserData.memory, List.append_assoc, List.drop_append_of_le_length (by omega)]
  rw [hbehind, ← List.append_assoc, ← hsplit, UserData.memory, received, h.readBuf,
    List.append_assoc]

theorem Receiving.parseBuffer_eq (h : Receiving ctx acc n)
    (hfit : acc.length + arrival.bytes.length ≤ maxBufferSize) {count : ℤ} {request : Request}
    (hp : phrParseRequest (acc ++ arrival.bytes) n acc.length = (count, request)) :
    parseBuffer (received ctx arrival).userData arrival.bytes.length =
      (count, (parsed ctx arrival request).userData) := by
  have htake := Buffer.take_write (b := ctx.userData.buf) hfit
  have hbytes : (received ctx arrival).userData.buf.bytes.take
      (acc.length + arrival.bytes.length) = acc ++ arrival.bytes := by
    rw [received, h.readBuf, htake, h.buf]
  have hcounter : (received ctx arrival).userData.counter = acc.length := h.counter
  have hn : (received ctx arrival).userData.parser.numHeaders = n := h.numHeaders
  have hcall : phrParseRequest ((received ctx arrival).userData.buf.bytes.take
        ((received ctx arrival).userData.counter + arrival.bytes.length))
      (received ctx arrival).userData.parser.numHeaders
      (received ctx arrival).userData.counter = (count, request) := by
    rw [hcounter, hn, hbytes, hp]
  rw [parseBuffer]
  simp only [hcall]
  rfl

variable (fs) in
/-- A read that the parser refuses. -/
theorem Receiving.readArrival_rejected (h : Receiving ctx acc n)
    (hfit : acc.length + arrival.bytes.length ≤ maxBufferSize) {request : Request}
    (hp : phrParseRequest (acc ++ arrival.bytes) n acc.length = (-1, request)) :
    readArrival fs ctx arrival =
      .ok (armResponse (refused ctx arrival request)) := by
  rw [readArrival, readCallbackHttp, h.parseBuffer_eq hfit hp]
  rfl

variable (fs) in
/-- A read after which the parser has accepted a request. -/
theorem Receiving.readArrival_accepted (h : Receiving ctx acc n)
    (hfit : acc.length + arrival.bytes.length ≤ maxBufferSize) {count : ℤ} {request : Request}
    (hcount : 0 < count)
    (hp : phrParseRequest (acc ++ arrival.bytes) n acc.length = (count, request)) :
    readArrival fs ctx arrival =
      (requestAnswer fs (acc ++ arrival.bytes ++ behind ctx (acc.length + arrival.bytes.length))
        request).map fun answer => armResponse (carryOut (parsed ctx arrival request) answer) := by
  have hfin : (parsed ctx arrival request).userData.finalized = false := h.finalized
  have hmem : (parsed ctx arrival request).userData.memory =
      acc ++ arrival.bytes ++ behind ctx (acc.length + arrival.bytes.length) :=
    h.memory_received hfit
  rw [readArrival, readCallbackHttp, h.parseBuffer_eq hfit hp]
  dsimp only
  rw [if_neg (by omega), if_pos hcount]
  have hctx : ({ received ctx arrival with userData := (parsed ctx arrival request).userData } :
      HttpCtx) = parsed ctx arrival request := rfl
  have hrequest : (parsed ctx arrival request).userData.parser.request = request := rfl
  rw [hctx, handleRequest_eq hfin, hmem, hrequest]
  cases requestAnswer fs (acc ++ arrival.bytes ++ behind ctx (acc.length + arrival.bytes.length))
      request with
  | error e => rfl
  | ok answer =>
    exact congrArg Except.ok (afterParse_of_finalized (finalized_carryOut _ answer) _ _)

variable (fs) in
/-- A read that leaves the request incomplete. -/
theorem Receiving.readArrival_incomplete (h : Receiving ctx acc n)
    (hfit : acc.length + arrival.bytes.length ≤ maxBufferSize) {count : ℤ} {request : Request}
    (hcount : count ≤ 0) (hne : count ≠ -1)
    (hp : phrParseRequest (acc ++ arrival.bytes) n acc.length = (count, request)) :
    readArrival fs ctx arrival =
      .ok (if acc.length + arrival.bytes.length = maxBufferSize then
          (httpFinishCallback (parsed ctx arrival request)).1
        else (parsed ctx arrival request).asyncRead .readCallbackHttp
          (acc.length + arrival.bytes.length)
          (maxBufferSize - (acc.length + arrival.bytes.length))) := by
  have hfin : (parsed ctx arrival request).userData.finalized = false := h.finalized
  have hcounter : (parsed ctx arrival request).userData.counter =
      acc.length + arrival.bytes.length := by
    rw [← h.counter]
    rfl
  have hafter : (afterParse (parsed ctx arrival request) ctx.readBuf arrival.bytes.length).1 =
      if acc.length + arrival.bytes.length = maxBufferSize then
        (httpFinishCallback (parsed ctx arrival request)).1
      else (parsed ctx arrival request).asyncRead .readCallbackHttp
        (acc.length + arrival.bytes.length)
        (maxBufferSize - (acc.length + arrival.bytes.length)) := by
    rw [afterParse]
    dsimp only
    rw [if_neg (by simp [hfin]), hcounter, h.readBuf]
    split_ifs <;> rfl
  rw [readArrival, readCallbackHttp, h.parseBuffer_eq hfit hp]
  dsimp only
  rw [if_neg hne, if_neg (by omega)]
  exact congrArg Except.ok hafter

/-- The connection reads on. -/
theorem Receiving.receiving_more (h : Receiving ctx acc n)
    (hfit : acc.length + arrival.bytes.length < maxBufferSize) (request : Request) :
    Receiving ((parsed ctx arrival request).asyncRead .readCallbackHttp
        (acc.length + arrival.bytes.length) (maxBufferSize - (acc.length + arrival.bytes.length)))
      (acc ++ arrival.bytes) request.headers.length := by
  have hlen : (acc ++ arrival.bytes).length = acc.length + arrival.bytes.length :=
    List.length_append
  have hbuf := Buffer.take_write (b := ctx.userData.buf) hfit.le
  rw [h.buf, ← h.readBuf] at hbuf
  exact
    { readCallback := rfl
      writeCallback := h.writeCallback
      readBuf := hlen.symm
      toRead := by rw [hlen]; rfl
      length_lt := by rwa [hlen]
      counter := by rw [hlen, ← h.counter]; rfl
      buf := by rw [hlen, ← h.readBuf]; exact hbuf
      finalized := h.finalized
      numHeaders := rfl
      fileFd := h.fileFd }

/-- What becomes of a connection that reads, rule by rule. -/
inductive ReadOutcome (fs : FileSystem) (ctx : HttpCtx) (acc : List UInt8) (n : ℕ)
    (arrival : Arrival) : HttpCtx → Prop
  /-- The request is incomplete. -/
  | more {count : ℤ} {request : Request} :
    phrParseRequest (acc ++ arrival.bytes) n acc.length = (count, request) → count ≤ 0 →
    count ≠ -1 → acc.length + arrival.bytes.length < maxBufferSize →
    ReadOutcome fs ctx acc n arrival
      ((parsed ctx arrival request).asyncRead .readCallbackHttp
        (acc.length + arrival.bytes.length)
        (maxBufferSize - (acc.length + arrival.bytes.length)))
  /-- The request is incomplete, and the buffer is full. -/
  | overflow {count : ℤ} {request : Request} :
    phrParseRequest (acc ++ arrival.bytes) n acc.length = (count, request) → count ≤ 0 →
    count ≠ -1 → acc.length + arrival.bytes.length = maxBufferSize →
    ReadOutcome fs ctx acc n arrival (httpFinishCallback (parsed ctx arrival request)).1
  | refused {request : Request} :
    phrParseRequest (acc ++ arrival.bytes) n acc.length = (-1, request) →
    ReadOutcome fs ctx acc n arrival (armResponse (refused ctx arrival request))
  | answered {count : ℤ} {request : Request} {answer : Answer} :
    phrParseRequest (acc ++ arrival.bytes) n acc.length = (count, request) → 0 < count →
    requestAnswer fs (acc ++ arrival.bytes ++ behind ctx (acc.length + arrival.bytes.length))
      request = .ok answer →
    ReadOutcome fs ctx acc n arrival (armResponse (carryOut (parsed ctx arrival request) answer))

/-- **Every read** is one of the rules. -/
theorem Receiving.readOutcome (h : Receiving ctx acc n)
    (hfit : acc.length + arrival.bytes.length ≤ maxBufferSize) {ctx' : HttpCtx}
    (hread : readArrival fs ctx arrival = .ok ctx') : ReadOutcome fs ctx acc n arrival ctx' := by
  rcases hp : phrParseRequest (acc ++ arrival.bytes) n acc.length with ⟨count, request⟩
  rcases lt_or_ge 0 count with hpos | hle
  · rw [h.readArrival_accepted _ hfit hpos hp] at hread
    cases hanswer : requestAnswer fs
        (acc ++ arrival.bytes ++ behind ctx (acc.length + arrival.bytes.length)) request with
    | error e => rw [hanswer] at hread; cases hread
    | ok answer =>
      rw [hanswer] at hread
      cases hread
      exact .answered hp hpos hanswer
  · by_cases hbad : count = -1
    · subst hbad
      rw [h.readArrival_rejected _ hfit hp] at hread
      cases hread
      exact .refused hp
    · rw [h.readArrival_incomplete _ hfit hle hbad hp] at hread
      split_ifs at hread with hfull
      · cases hread
        exact .overflow hp hle hbad hfull
      · cases hread
        exact .more hp hle hbad (by omega)

/-- **Every read** leaves the connection waiting, or finalizes it with a 400 or with
the answer to a request. -/
theorem Receiving.readArrival_cases (h : Receiving ctx acc n) (hb : arrival.bytes ≠ [])
    (hfit : acc.length + arrival.bytes.length ≤ maxBufferSize) {ctx' : HttpCtx}
    (hread : readArrival fs ctx arrival = .ok ctx') :
    Awaiting ctx' ∧ ctx'.userData.offset = ctx.userData.offset ∨
    (∃ request, ctx' = armResponse (refused ctx arrival request)) ∨
    ∃ count request answer, 0 < count ∧
      phrParseRequest (acc ++ arrival.bytes) n acc.length = (count, request) ∧
      requestAnswer fs (acc ++ arrival.bytes ++ behind ctx (acc.length + arrival.bytes.length))
        request = .ok answer ∧
      ctx' = armResponse (carryOut (parsed ctx arrival request) answer) := by
  cases h.readOutcome hfit hread with
  | more hp hle hbad hlt =>
    exact Or.inl ⟨⟨_, _, h.receiving_more hlt _, fun hnil => by simp [hb] at hnil⟩, rfl⟩
  | @overflow count request hp hle hbad hfull =>
    have hfinish : Receiving (httpFinishCallback (parsed ctx arrival request)).1 [] maxHeaders :=
      receiving_httpFinishCallback h.writeCallback
    exact Or.inl ⟨awaiting_of_receiving hfinish, offset_httpFinishCallback _⟩
  | refused hp => exact Or.inr (Or.inl ⟨_, rfl⟩)
  | answered hp hpos hanswer => exact Or.inr (Or.inr ⟨_, _, _, hpos, hp, hanswer, rfl⟩)

/-! ## One step -/

/-- What a step of a session does with its read. -/
theorem serveStep_eq_some {s t : HttpCtx × List Response} (hs : serveStep fs s arrival = some t) :
    arrival.bytes ≠ [] ∧ arrival.bytes.length ≤ s.1.toRead ∧
      ∃ ctx', readArrival fs s.1 arrival = .ok ctx' ∧
        t = if ctx'.userData.finalized then
          (sendResponse ctx', s.2 ++ [ctx'.userData.response]) else (ctx', s.2) := by
  rw [serveStep, serveRead] at hs
  split_ifs at hs with hguard
  refine ⟨hguard.1, hguard.2, ?_⟩
  cases hread : readArrival fs s.1 arrival with
  | error e => rw [hread] at hs; cases hs
  | ok ctx' =>
    rw [hread] at hs
    dsimp only [Except.map] at hs
    cases hs
    refine ⟨ctx', rfl, ?_⟩
    split_ifs
    · rfl
    · rw [List.append_nil]

theorem Receiving.fits (h : Receiving ctx acc n) (hb : arrival.bytes ≠ [])
    (hfit : acc.length + arrival.bytes.length ≤ maxBufferSize) :
    arrival.bytes ≠ [] ∧ arrival.bytes.length ≤ ctx.toRead := by
  rw [h.toRead]
  exact ⟨hb, by omega⟩

variable {rs : List Response}

variable (fs rs) in
theorem Receiving.serveStep_incomplete (h : Receiving ctx acc n) (hb : arrival.bytes ≠ [])
    (hfit : acc.length + arrival.bytes.length < maxBufferSize) {count : ℤ} {request : Request}
    (hcount : count ≤ 0) (hne : count ≠ -1)
    (hp : phrParseRequest (acc ++ arrival.bytes) n acc.length = (count, request)) :
    ∃ ctx', serveStep fs (ctx, rs) arrival = some (ctx', rs) ∧
      Receiving ctx' (acc ++ arrival.bytes) request.headers.length ∧
      (∀ k, (acc ++ arrival.bytes).length ≤ k → behind ctx' k = behind ctx k) ∧
      ctx'.userData.offset = ctx.userData.offset := by
  have hread := h.readArrival_incomplete fs hfit.le hcount hne hp
  rw [if_neg hfit.ne] at hread
  have hmem : (parsed ctx arrival request).userData.memory =
      acc ++ arrival.bytes ++ behind ctx (acc.length + arrival.bytes.length) :=
    h.memory_received hfit.le
  refine ⟨_, ?_, h.receiving_more hfit request, ?_, rfl⟩
  · have hfin : (parsed ctx arrival request).userData.finalized = false := h.finalized
    rw [serveStep, if_pos (h.fits hb hfit.le), serveRead, hread]
    dsimp only [Except.map, Ctx.asyncRead]
    rw [if_neg (by simp [hfin]), List.append_nil]
  · intro k hk
    obtain ⟨j, rfl⟩ := Nat.exists_eq_add_of_le hk
    simp only [behind, Ctx.asyncRead] at hmem ⊢
    rw [hmem, ← List.drop_drop, List.drop_left' rfl, List.drop_drop, List.length_append]

variable (fs rs) in
/-- A read that finalizes the connection sends the response. -/
theorem Receiving.serveStep_of_finalized (h : Receiving ctx acc n) (hb : arrival.bytes ≠ [])
    (hfit : acc.length + arrival.bytes.length ≤ maxBufferSize) {ctx' : HttpCtx}
    (hread : readArrival fs ctx arrival = .ok (armResponse ctx'))
    (hfin : ctx'.userData.finalized = true) :
    serveStep fs (ctx, rs) arrival =
      some (sendResponse (armResponse ctx'), rs ++ [ctx'.userData.response]) := by
  rw [serveStep, if_pos (h.fits hb hfit), serveRead, hread]
  dsimp only [Except.map]
  rw [userData_armResponse, if_pos hfin]

variable (fs rs) in
theorem Receiving.serveStep_rejected (h : Receiving ctx acc n) (hb : arrival.bytes ≠ [])
    (hfit : acc.length + arrival.bytes.length ≤ maxBufferSize) {request : Request}
    (hp : phrParseRequest (acc ++ arrival.bytes) n acc.length = (-1, request)) :
    ∃ ctx', serveStep fs (ctx, rs) arrival = some (ctx', rs ++ [badRequest]) ∧
      Receiving ctx' [] maxHeaders ∧ ctx'.userData.offset = ctx.userData.offset := by
  have hstep := h.serveStep_of_finalized fs rs hb hfit
    (h.readArrival_rejected _ hfit hp) rfl
  rw [response_refused] at hstep
  exact ⟨_, hstep, receiving_sendResponse _, offset_sendResponse _⟩

variable (fs rs) in
theorem Receiving.serveStep_accepted (h : Receiving ctx acc n) (hb : arrival.bytes ≠ [])
    (hfit : acc.length + arrival.bytes.length ≤ maxBufferSize) {count : ℤ} {request : Request}
    (hcount : 0 < count)
    (hp : phrParseRequest (acc ++ arrival.bytes) n acc.length = (count, request)) :
    serveStep fs (ctx, rs) arrival =
      (requestAnswer fs (acc ++ arrival.bytes ++ behind ctx (acc.length + arrival.bytes.length))
        request).toOption.map fun answer =>
          (sendResponse (armResponse (carryOut (parsed ctx arrival request) answer)),
            rs ++ [answer.response ctx.userData.offset]) := by
  have hread := h.readArrival_accepted fs hfit hcount hp
  cases hanswer : requestAnswer fs
      (acc ++ arrival.bytes ++ behind ctx (acc.length + arrival.bytes.length)) request with
  | error e =>
    rw [hanswer] at hread
    rw [serveStep, if_pos (h.fits hb hfit), serveRead, hread]
    rfl
  | ok answer =>
    rw [hanswer] at hread
    rw [h.serveStep_of_finalized _ _ hb hfit hread (finalized_carryOut _ _), response_carryOut]
    rfl

end

end Yotta.Server
