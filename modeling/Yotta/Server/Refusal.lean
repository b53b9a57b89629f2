import Yotta.Picohttp.Stalled
import Yotta.Server.Exchange
import Yotta.Server.KeepAlive

/-!
# Refused requests

What becomes of a connection behind a request that does not fit the buffer, and
behind a response that announces `Connection: close`.

Results:
* `oversized_dropped`: a request that fills the buffer without an end is dropped
  without an answer, and the bytes behind it are read as a new request.
* `badRequest_stays`: behind a 400, the connection waits for the next request.
-/

namespace Yotta.Server

open Yotta.Bytes Yotta.Core Yotta.Numeral Yotta.Picohttp

/-! ## Requests that do not fit -/

/-- A full buffer on every front of which the parser asks for more. -/
structure Oversized (q : List UInt8) : Prop where
  length_eq : q.length = maxBufferSize
  asks : ∀ k, 0 < k → k ≤ maxBufferSize → (phrParseRequest (q.take k) maxHeaders 0).1 = -2

theorem oversized_of_requestLine {q : List UInt8} (hlen : q.length = maxBufferSize)
    (h : requestLine q = .eof) : Oversized q where
  length_eq := hlen
  asks k _ _ := by
    have hfront : requestLine (q.take k) = .eof := by
      rw [← List.take_append_drop k q] at h
      exact extends_requestLine.eof_front h
    have hfit : (q.take k).length < 2 ^ 31 := by
      rw [List.length_take, hlen]
      exact (min_le_right _ _).trans_lt (by decide)
    rw [phrParseRequest_eq_neg_two hfit, parseRequest, hfront]

section

variable {fs : FileSystem} {ctx : HttpCtx} {acc q rest : List UInt8} {n : ℕ} {arrival : Arrival}
variable {rs : List Response}

/-- Every call on a front of such a buffer asks for more, whatever room an earlier one has
left. -/
theorem Oversized.asks_again (hq : Oversized q) (hn : acc = [] → n = maxHeaders)
    (hb : arrival.bytes ≠ []) (hread : acc ++ arrival.bytes ++ rest = q) :
    ∃ request, phrParseRequest (acc ++ arrival.bytes) n acc.length = (-2, request) := by
  have hpos := List.length_pos_of_ne_nil hb
  have hlen := congrArg List.length hread
  rw [hq.length_eq, List.length_append, List.length_append] at hlen
  cases acc with
  | nil =>
    have hfirst := hq.asks arrival.bytes.length hpos (by simp at hlen; omega)
    rw [← hread, List.nil_append, List.take_left' rfl] at hfirst
    rw [hn rfl]
    exact ⟨_, Prod.ext hfirst rfl⟩
  | cons c acc =>
    have hwhole := hq.asks maxBufferSize (by decide) le_rfl
    rw [← hq.length_eq, List.take_length] at hwhole
    have hfit : q.length < 2 ^ 31 := hq.length_eq ▸ (by decide : maxBufferSize < 2 ^ 31)
    exact ⟨_, phrParseRequest_stalled hfit hwhole hread n (Nat.succ_ne_zero _)⟩

variable (fs rs) in
/-- The read that fills the buffer. -/
theorem Receiving.serveStep_overflow (h : Receiving ctx acc n) (hb : arrival.bytes ≠ [])
    (hfull : acc.length + arrival.bytes.length = maxBufferSize) {request : Request}
    (hp : phrParseRequest (acc ++ arrival.bytes) n acc.length = (-2, request)) :
    ∃ ctx', serveStep fs (ctx, rs) arrival = some (ctx', rs) ∧ Receiving ctx' [] maxHeaders := by
  have hread := h.readArrival_incomplete fs hfull.le (by decide) (by decide) hp
  rw [if_pos hfull] at hread
  have hfinish : Receiving (httpFinishCallback (parsed ctx arrival request)).1 [] maxHeaders :=
    receiving_httpFinishCallback h.writeCallback
  refine ⟨_, ?_, hfinish⟩
  rw [serveStep, if_pos (h.fits hb hfull.le), serveRead, hread]
  dsimp only [Except.map]
  rw [hfinish.finalized, if_neg (by decide), List.append_nil]

/-- Some of the reads bring exactly the buffer, and no response. -/
theorem Receiving.exec_oversized (hq : Oversized q) {tail : List UInt8} {arrivals : List Arrival}
    {s : HttpCtx × List Response} (h : Receiving ctx acc n) (hn : acc = [] → n = maxHeaders)
    (hread : acc ++ arrived arrivals = q ++ tail)
    (hs : exec (serveStep fs) (ctx, rs) arrivals = some s) :
    ∃ front back ctx', arrivals = front ++ back ∧ acc ++ arrived front = q ∧
      exec (serveStep fs) (ctx, rs) front = some (ctx', rs) ∧ Receiving ctx' [] maxHeaders := by
  induction arrivals generalizing ctx acc n with
  | nil =>
    have hlen := congrArg List.length hread
    have hlt := h.length_lt
    rw [arrived_nil, List.append_nil, List.length_append, hq.length_eq] at hlen
    omega
  | cons arrival arrivals ih =>
    obtain ⟨t, hstep, hs⟩ := Option.bind_eq_some_iff.mp hs
    obtain ⟨hb, hfit, -⟩ := serveStep_eq_some hstep
    have hlt := h.length_lt
    dsimp only at hfit
    rw [h.toRead] at hfit
    rw [arrived_cons, ← List.append_assoc] at hread
    have hbefore : acc ++ arrival.bytes <+: q :=
      List.prefix_of_prefix_length_le (by rw [← hread]; exact List.prefix_append _ _)
        (List.prefix_append q tail)
        (by rw [hq.length_eq, List.length_append]; omega)
    obtain ⟨rest, hrest⟩ := hbefore
    obtain ⟨request, hp⟩ := hq.asks_again hn hb hrest
    by_cases hfull : acc.length + arrival.bytes.length = maxBufferSize
    · obtain ⟨ctx', hstep', h'⟩ := h.serveStep_overflow fs rs hb hfull hp
      refine ⟨[arrival], arrivals, ctx', rfl, ?_, ?_, h'⟩
      · have hlen := congrArg List.length hrest
        rw [hq.length_eq, List.length_append, List.length_append] at hlen
        rw [List.length_eq_zero_iff.mp (by omega : rest.length = 0), List.append_nil] at hrest
        rw [arrived_cons, arrived_nil, List.append_nil, hrest]
      · rw [exec, hstep']
        rfl
    · obtain ⟨ctx', hstep', h', -, -⟩ := h.serveStep_incomplete fs rs hb (by omega)
        (by decide) (by decide) hp
      rw [hstep'] at hstep
      obtain rfl := Option.some.inj hstep
      obtain ⟨front, back, ctx'', hsplit, hfront, hexec, hrec⟩ := ih h'
        (fun hnil => absurd (List.append_eq_nil_iff.mp hnil).2 hb) hread hs
      refine ⟨arrival :: front, back, ctx'', by rw [hsplit]; rfl, ?_, ?_, hrec⟩
      · rw [arrived_cons, ← List.append_assoc, hfront]
      · rw [exec, hstep']
        exact hexec

end

/-- **Oversized requests** are dropped. Of all reads that bring one and more bytes behind
it, some bring exactly the bytes that fill the buffer; no response is sent behind
them, and the next read is parsed as the beginning of a request. -/
theorem oversized_dropped {fs : FileSystem} {ctx : HttpCtx} {q tail : List UInt8}
    {arrivals : List Arrival} {rs : List Response} {s : HttpCtx × List Response}
    (hctx : Receiving ctx [] maxHeaders) (hq : Oversized q) (hread : arrived arrivals = q ++ tail)
    (hs : exec (serveStep fs) (ctx, rs) arrivals = some s) :
    ∃ front back ctx', arrivals = front ++ back ∧ arrived front = q ∧ arrived back = tail ∧
      exec (serveStep fs) (ctx, rs) front = some (ctx', rs) ∧
      exec (serveStep fs) (ctx', rs) back = some s ∧
      ∀ arrival : Arrival, arrival.bytes.length ≤ maxBufferSize →
        (parseBuffer (received ctx' arrival).userData arrival.bytes.length).1 =
          (phrParseRequest arrival.bytes maxHeaders 0).1 := by
  obtain ⟨front, back, ctx', rfl, hfront, hexec, hrec⟩ :=
    hctx.exec_oversized hq (fun _ => rfl) (by rwa [List.nil_append]) hs
  rw [List.nil_append] at hfront
  rw [exec_append, hexec] at hs
  rw [arrived_append, hfront] at hread
  refine ⟨front, back, ctx', rfl, hfront, List.append_cancel_left hread, hexec, hs,
    fun arrival hfit => ?_⟩
  have hparse := hrec.parseBuffer_eq (by simpa using hfit) (Prod.ext rfl rfl)
  rw [hparse]
  rfl

/-- A request line that fills the buffer. -/
def endlessRequest : List UInt8 := ascii "GET /" ++ List.replicate 2043 97

theorem oversized_endlessRequest : Oversized endlessRequest :=
  oversized_of_requestLine (by decide +kernel) (by decide +kernel)

/-- A fresh connection that reads the request line. -/
theorem serveStep_endlessRequest :
    ∃ ctx', serveStep (fun _ => none) (acceptCallbackHttp .zero, []) ⟨7, endlessRequest⟩ =
      some (ctx', []) ∧ Receiving ctx' [] maxHeaders := by
  let arrival : Arrival := ⟨7, endlessRequest⟩
  have hne : arrival.bytes ≠ [] := by decide
  have hread : [] ++ arrival.bytes ++ [] = endlessRequest := by simp [arrival]
  obtain ⟨request, hp⟩ := oversized_endlessRequest.asks_again (fun _ => rfl) hne hread
  exact (receiving_new .zero).serveStep_overflow (fun _ => none) [] hne
    (by simpa using oversized_endlessRequest.length_eq) hp

/-- The reads of the request line are dropped. -/
theorem oversized_dropped_endless :
    ∃ front back ctx', [⟨7, endlessRequest⟩] = front ++ back ∧ arrived front = endlessRequest ∧
      exec (serveStep fun _ => none) (acceptCallbackHttp .zero, []) front = some (ctx', []) := by
  obtain ⟨ctx', hstep, -⟩ := serveStep_endlessRequest
  have hread : arrived [⟨7, endlessRequest⟩] = endlessRequest ++ [] := by simp
  obtain ⟨front, back, ctx'', hsplit, hfront, -, hexec, -⟩ := oversized_dropped
    (receiving_new .zero) oversized_endlessRequest hread (by rw [exec, hstep]; rfl)
  exact ⟨front, back, ctx'', hsplit, hfront, hexec⟩

/-- What stands behind the request line is answered, and the request line is not. -/
theorem oversized_answered :
    ¬ ∀ (fs : FileSystem) (mem : UserData) (q tail : List UInt8) (arrivals : List Arrival)
      (ctx : HttpCtx) (responses : List Response), Oversized q → arrived arrivals = q ++ tail →
      exec (serveStep fs) (acceptCallbackHttp mem, []) arrivals = some (ctx, responses) →
      badRequest ∈ responses := by
  intro hall
  obtain ⟨ctx', hstep, h'⟩ := serveStep_endlessRequest
  have hread : [] ++ (Arrival.mk 7 plainRequest).bytes = plainRequest ++ [] := by simp
  obtain ⟨after, -, hstep'⟩ := h'.serveStep_rest (fun _ => none) [] accepts_plainRequest
    (by decide) (by decide) hread (by decide)
  rw [requestAnswer_none] at hstep'
  have hmem := hall (fun _ => none) .zero endlessRequest plainRequest
    [⟨7, endlessRequest⟩, ⟨7, plainRequest⟩] _ _ oversized_endlessRequest (by simp)
    (by rw [exec, hstep, Option.bind_some, exec, hstep']; rfl)
  obtain hbad : badRequest = (Answer.notFound.response ctx'.userData.offset) := by simpa using hmem
  exact Http.serve404_ne_serve400 (congrArg Response.head hbad).symm

/-! ## Behind a 400 -/

/-- The connection sends a 400. -/
structure SendsBadRequest (ctx : HttpCtx) : Prop where
  writeCallback : ctx.writeCallback = some .writeHeaderCallback
  response : ctx.userData.response = badRequest

/-- **A 400** does not close the connection. Whatever has happened on it, the step that
transfers the last byte of a 400 leaves it waiting for a request, and a request that
arrives is answered. -/
theorem badRequest_stays {fs : FileSystem} {mem : UserData} {recvQueue : List UInt8} {eof : Bool}
    {c c' : HttpConn} (h : Reaches (Conn.step (app fs)) (accepted mem recvQueue eof) c)
    (h400 : SendsBadRequest c.ctx) {n : ℕ} {full : Bool}
    (hlast : c.ctx.alreadyWritten + (n + 1) = c.ctx.toWrite)
    (hs : c.step (app fs) (.write (.count (n + 1)) full) = some c') :
    c'.live ∧ ReadArmed c'.ctx ∧ c'.ctx.userData.counter = 0 ∧
      ∀ (arrival : Arrival) (request : Request), Accepts maxHeaders arrival.bytes request →
        arrival.bytes.length ≤ maxBufferSize →
        readArrival fs c'.ctx arrival =
          (requestAnswer fs (arrival.bytes ++ behind c'.ctx arrival.bytes.length) request).map
            fun answer => armResponse (carryOut (parsed c'.ctx arrival request) answer) := by
  obtain ⟨hlive, hrule⟩ := Conn.steps_of_step hs
  have hmode := (connInv_of_reaches h).mode hlive
  have hwrite : c.ctx.writeCallback.isSome := by rw [h400.writeCallback]; rfl
  have hcontent : c.ctx.userData.content = false := by
    have hbody := congrArg Response.body h400.response
    simpa [UserData.response, badRequest] using hbody
  obtain ⟨ctx', hhandled, hwaiting, hrec⟩ := hmode.writeHandle_completes fs hwrite
    ⟨hlast, fun _ => hcontent⟩
  cases hrule with
  | write sent writable hphase _ hallowed =>
    rw [hhandled]
    refine ⟨rfl, hwaiting.readArmed, hrec.counter, fun arrival request hq hfit => ?_⟩
    have hpos := List.length_pos_of_ne_nil hq.ne_nil
    have hfit' : ([] : List UInt8).length + arrival.bytes.length ≤ maxBufferSize := by
      simpa using hfit
    have hread := hrec.readArrival_accepted fs hfit' (by omega) hq
    rw [List.nil_append, List.length_nil, Nat.zero_add] at hread
    exact hread

/-- A request line without a version. -/
def badLine : List UInt8 := ascii "GET /\n\n"

/-- The steps up to the response to a request that has arrived. -/
def answerLabels (request : List UInt8) : List Label :=
  [.wait, .advance, .read request.length 7, .advance]

/-- A connection on which a malformed request is refused, and where a request that arrives
behind it is answered. -/
theorem exec_badLine :
    ((exec (Conn.step (app fun _ => none)) (accepted .zero badLine false)
        (answerLabels badLine)).bind fun c =>
      (c.step (app fun _ => none) (.write (.count 66) false)).bind fun c' =>
        (exec (Conn.step (app fun _ => none)) c' (.advance :: .send plainRequest ::
          answerLabels plainRequest ++ [.write (.count 1) false])).map fun c'' =>
            (c.ctx.writeCallback, c.ctx.userData.response,
              c.ctx.alreadyWritten + 66 == c.ctx.toWrite, c''.sent == c'.sent)) =
      some (some .writeHeaderCallback, badRequest, true, false) := by
  decide

/-- A malformed request is refused, and one that arrives behind it is answered. -/
theorem badRequest_answers :
    ¬ ∀ (fs : FileSystem) (mem : UserData) (recvQueue : List UInt8) (eof : Bool)
      (c c' c'' : HttpConn) (n : ℕ) (full : Bool),
      Reaches (Conn.step (app fs)) (accepted mem recvQueue eof) c → SendsBadRequest c.ctx →
      c.ctx.alreadyWritten + (n + 1) = c.ctx.toWrite →
      c.step (app fs) (.write (.count (n + 1)) full) = some c' →
      Reaches (Conn.step (app fs)) c' c'' → c''.sent = c'.sent := by
  intro hall
  obtain ⟨c, hc, h⟩ := Option.bind_eq_some_iff.mp exec_badLine
  obtain ⟨c', hc', h⟩ := Option.bind_eq_some_iff.mp h
  obtain ⟨c'', hc'', h⟩ := Option.map_eq_some_iff.mp h
  simp only [Prod.mk.injEq, beq_iff_eq, beq_eq_false_iff_ne] at h
  obtain ⟨hcallback, hresponse, hlast, hsent⟩ := h
  exact hsent (hall _ _ _ _ c c' c'' 65 false (run_of_exec hc) ⟨hcallback, hresponse⟩ hlast hc'
    (run_of_exec hc''))

theorem badRequest_stays_badLine :
    ∃ c', ((exec (Conn.step (app fun _ => none)) (accepted .zero badLine false)
      (answerLabels badLine)).bind fun c =>
        c.step (app fun _ => none) (.write (.count 66) false)) = some c' ∧ c'.live := by
  obtain ⟨c, hc, h⟩ := Option.bind_eq_some_iff.mp exec_badLine
  obtain ⟨c', hc', h⟩ := Option.bind_eq_some_iff.mp h
  obtain ⟨c'', -, h⟩ := Option.map_eq_some_iff.mp h
  simp only [Prod.mk.injEq, beq_iff_eq] at h
  obtain ⟨hcallback, hresponse, hlast, -⟩ := h
  refine ⟨c', by rw [hc, Option.bind_some, hc'], ?_⟩
  exact (badRequest_stays (n := 65) (run_of_exec hc) ⟨hcallback, hresponse⟩ hlast hc').1

end Yotta.Server
