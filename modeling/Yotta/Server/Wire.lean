import Yotta.Core.Delivery
import Yotta.Server.Heads
import Yotta.Server.Writes

/-!
# What is on the socket

A connection reads and writes in pieces of any size, and `serve_sockets` may leave it at any
point of a response. `sessionStep` is the connection of one whole exchange after the other:
a read, and at once all of the response to the request that it completes.

Results:
* `Progress.write` and `Waiting.progress_read`: what one system call adds.
* `conn_session`: at any time, a connection has read what a session has read, and has sent
  the replies of the session, up to an end of the last of them.
-/

namespace Yotta.Server

open Yotta.Bytes Yotta.Core Yotta.Http Yotta.Numeral Yotta.Picohttp

/-! ## Replies -/

namespace Response

/-- The bytes behind the head, which are read from a file with the content `data`. -/
def content (r : Response) (data : List UInt8) : List UInt8 :=
  match r.body with
  | none => []
  | some (offset, n) => (data.drop offset).take n

/-- How many bytes are to stand behind the head. -/
def announced (r : Response) : ℕ :=
  match r.body with
  | none => 0
  | some (_, n) => n

end Response

/-- A response, and the content of the file in `file_fd`. -/
structure Reply where
  response : Response
  data : List UInt8

namespace Reply

/-- The bytes behind the head. -/
def content (m : Reply) : List UInt8 := m.response.content m.data

/-- The reply on the wire. -/
def wire (m : Reply) : List UInt8 := m.response.head ++ m.content

/-- All the bytes that the response announces are there. -/
def Complete (m : Reply) : Prop := m.content.length = m.response.announced

end Reply

/-- The content of the file in `file_fd`. -/
def servedData (ctx : HttpCtx) : List UInt8 :=
  match ctx.sys.file ctx.userData.fileFd with
  | some file => file.data
  | none => []

/-- The reply that a finalized connection has to send. -/
def reply (ctx : HttpCtx) : Reply := { response := ctx.userData.response, data := servedData ctx }

/-- A read, and the reply to the request that it completes. -/
def sessionStep (fs : FileSystem) (s : HttpCtx × List Reply) (arrival : Arrival) :
    Option (HttpCtx × List Reply) :=
  if arrival.bytes ≠ [] ∧ arrival.bytes.length ≤ s.1.toRead then
    match readArrival fs s.1 arrival with
    | .ok ctx =>
      some (if ctx.userData.finalized then (sendResponse ctx, s.2 ++ [reply ctx]) else (ctx, s.2))
    | .error _ => none
  else none

/-- The file that an answer is sent from. -/
def Answer.data : Answer → List UInt8
  | .notFound => []
  | .file found _ => found.file.data

/-- A reply that the server gives: to a request that it refuses, or the answer to a request. -/
inductive Answers (fs : FileSystem) : Reply → Prop
  | refused : Answers fs { response := badRequest, data := [] }
  | answered {memory : List UInt8} {request : Request} {answer : Answer} {offset : ℕ} :
    requestAnswer fs memory request = .ok answer →
    Answers fs { response := answer.response offset, data := answer.data }

theorem Answers.bounds {fs : FileSystem} {m : Reply} (h : Answers fs m) {offset n : ℕ}
    (hbody : m.response.body = some (offset, n)) : n < 2 ^ 64 ∧ m.data.length < 2 ^ 63 := by
  cases h with
  | refused => cases hbody
  | @answered memory request answer o h =>
    cases answer with
    | notFound => cases hbody
    | file found verdict =>
      have hsize : found.fileStat.stSize = found.file.data.length :=
        found.file.size_eq found.fileStat found.fstat_eq found.isReg
      have hlt := found.fileStat.size_lt
      have hdata : found.file.data.length < 2 ^ 63 := hsize ▸ hlt
      cases verdict with
      | badRequest => cases hbody
      | notModified => cases hbody
      | partialContent first last =>
        obtain ⟨rfl, rfl⟩ := Prod.mk.inj (Option.some.inj hbody)
        exact ⟨toSize_lt _, hdata⟩
      | full =>
        obtain ⟨rfl, rfl⟩ := Prod.mk.inj (Option.some.inj hbody)
        exact ⟨by omega, hdata⟩

section

variable {fs : FileSystem} {ctx ctx' s s' : HttpCtx} {arrival : Arrival}

/-! ## Progress -/

/-- What a connection has sent of the reply that is under way, if there is one: nothing while
it waits for a request, then a part of the head, then the head and a part of the file. The
first index is what becomes of the connection once the rest is out. -/
inductive Progress (fs : FileSystem) (ctx : HttpCtx) : HttpCtx → List Reply → List UInt8 → Prop
  | waiting (h : Waiting ctx) : Progress fs ctx ctx [] []
  | head {part rest : List UInt8} (h : SendingHead ctx) (hanswer : Answers fs (reply ctx))
      (hparts : part ++ rest = ctx.userData.response.head)
      (harmed : ctx.Armed .writeHeaderCallback rest) :
      Progress fs ctx (sendResponse ctx) [reply ctx] part
  | body {part : List UInt8} (h : SendingBody ctx) (hanswer : Answers fs (reply ctx))
      (hpart : part = ((servedData ctx).drop ctx.userData.offset).take part.length)
      (hlt : part = [] ∨ part.length < ctx.userData.fileSize)
      (hwritten : ctx.alreadyWritten = ctx.userData.offset + part.length)
      (hwrite : ctx.toWrite = toSize (ctx.userData.fileSize + ctx.userData.offset)) :
      Progress fs ctx (bodySent ctx) [reply ctx] (ctx.userData.response.head ++ part)

/-- The first index and the replies behind a system call: the reply is still under way, or it
is complete, and the connection waits for the next request. -/
inductive Sends (fs : FileSystem) (ctx' s : HttpCtx) : List Reply → List UInt8 → Prop
  | more {pending : List Reply} {front : List UInt8} (h : Progress fs ctx' s pending front) :
    Sends fs ctx' s pending front
  | last {m : Reply} (hanswer : Answers fs m) (hcomplete : m.Complete)
      (h : Progress fs ctx' s [] []) : Sends fs ctx' s [m] m.wire

variable {pending : List Reply} {front : List UInt8}

theorem Progress.mode (h : Progress fs ctx s pending front) : Mode ctx := by
  cases h with
  | waiting h => exact .waiting h
  | head h => exact .head h
  | body h => exact .body h

theorem response_body (hcontent : ctx.userData.content = true) :
    ctx.userData.response.body = some (ctx.userData.offset, ctx.userData.fileSize) := by
  rw [UserData.response, if_pos hcontent]

theorem response_noBody (hcontent : ctx.userData.content = false) :
    ctx.userData.response.body = none := by
  rw [UserData.response, if_neg (by simp [hcontent])]

theorem content_reply (hcontent : ctx.userData.content = true) :
    (reply ctx).content =
      ((servedData ctx).drop ctx.userData.offset).take ctx.userData.fileSize := by
  rw [Reply.content, Response.content, reply, response_body hcontent]

theorem content_reply_noBody (hcontent : ctx.userData.content = false) :
    (reply ctx).content = [] := by
  rw [Reply.content, Response.content, reply, response_noBody hcontent]

theorem announced_reply (hcontent : ctx.userData.content = true) :
    (reply ctx).response.announced = ctx.userData.fileSize := by
  rw [Response.announced, reply, response_body hcontent]

/-- What has been sent is a front of the reply. -/
theorem Progress.front_prefix (h : Progress fs ctx s pending front) :
    front <+: pending.flatMap Reply.wire := by
  cases h with
  | waiting h => exact List.prefix_rfl
  | @head _ rest h hanswer hparts harmed =>
    have hhead : (reply ctx).response.head = front ++ rest := hparts.symm
    rw [List.flatMap_singleton, Reply.wire, hhead, List.append_assoc]
    exact List.prefix_append _ _
  | @body part h hanswer hpart hlt hwritten hwrite =>
    have hle : part.length ≤ ctx.userData.fileSize := by
      rcases hlt with rfl | hlt
      · exact Nat.zero_le _
      · exact hlt.le
    rw [List.flatMap_singleton, Reply.wire, content_reply h.content]
    refine (List.prefix_append_right_inj _).mpr ?_
    rw [hpart]
    exact List.take_prefix_take_left hle

theorem Progress.length_pending_le (h : Progress fs ctx s pending front) : pending.length ≤ 1 := by
  cases h with
  | waiting h => exact Nat.zero_le 1
  | head h => exact le_rfl
  | body h => exact le_rfl

theorem Progress.answers (h : Progress fs ctx s pending front) : ∀ m ∈ pending, Answers fs m := by
  cases h with
  | waiting h => exact nofun
  | head h hanswer => simpa using hanswer
  | body h hanswer => simpa using hanswer

/-! ## One system call -/

theorem Sends.put_nil {r : SysResult} (h : Progress fs ctx s pending front) (hr : ctx.put r = []) :
    Sends fs ctx s pending (front ++ ctx.put r) := by
  rw [hr, List.append_nil]
  exact .more h

/-- The last byte of a head. -/
theorem SendingHead.sends_headSent (h : SendingHead ctx) (hanswer : Answers fs (reply ctx)) :
    Sends fs (headSent ctx) (sendResponse ctx) [reply ctx] ctx.userData.response.head := by
  cases hcontent : ctx.userData.content with
  | false =>
    have hsent : sendResponse ctx = headSent ctx := by
      rw [sendResponse]
      refine if_neg ?_
      change ¬ (headSent ctx).writeCallback.isSome
      rw [headSent_of_not_content hcontent]
      simp [h.toSending.waiting_bodySent.readArmed.writeCallback]
    have hwire : (reply ctx).wire = ctx.userData.response.head := by
      rw [Reply.wire, content_reply_noBody hcontent]
      exact List.append_nil _
    rw [hsent, headSent_of_not_content hcontent, ← hwire]
    refine .last hanswer ?_ (.waiting h.toSending.waiting_bodySent)
    rw [Reply.Complete, content_reply_noBody hcontent, Response.announced, reply,
      response_noBody hcontent]
    rfl
  | true =>
    have heq : headSent ctx = ctx.completed.asyncSendfile .httpFinishCallback ctx.userData.fileFd
        ctx.userData.fileSize ctx.userData.offset := by
      rw [headSent, writeHeaderCallback]
      exact congrArg Prod.fst (if_pos hcontent)
    have hsent : sendResponse ctx = bodySent (headSent ctx) := by
      rw [sendResponse]
      refine if_pos ?_
      change (headSent ctx).writeCallback.isSome
      rw [heq]
      rfl
    have hreply : reply (headSent ctx) = reply ctx := by rw [heq]; rfl
    have huser : (headSent ctx).userData = ctx.userData := by rw [heq]; rfl
    have hprogress : Progress fs (headSent ctx) (bodySent (headSent ctx)) [reply (headSent ctx)]
        ((headSent ctx).userData.response.head ++ []) := by
      refine .body (h.sendingBody hcontent) (hreply ▸ hanswer) rfl (Or.inl rfl) ?_ ?_
      · rw [huser, heq]
        rfl
      · rw [huser, heq]
        rfl
    rw [List.append_nil, huser, hreply] at hprogress
    rw [hsent]
    exact .more hprogress

/-- A system call while a head is sent. -/
theorem SendingHead.sends {part rest : List UInt8} (h : SendingHead ctx)
    (hanswer : Answers fs (reply ctx)) (hparts : part ++ rest = ctx.userData.response.head)
    (harmed : ctx.Armed .writeHeaderCallback rest) {r : SysResult}
    (hallowed : Allowed ctx.available r) {status : LoopStatus}
    (hhandled : Core.writeHandle (app fs) ctx r = .status ctx' status) :
    Sends fs ctx' (sendResponse ctx) [reply ctx] (part ++ ctx.put r) := by
  have hsame : Progress fs ctx (sendResponse ctx) [reply ctx] part :=
    .head h hanswer hparts harmed
  have htotal := harmed.toWrite
  rw [harmed.available] at hallowed
  have hrule := writeHandled (app fs) harmed.writeCallback r
  rw [hhandled] at hrule
  generalize hx : Handled.status ctx' status = x at hrule
  cases hrule with
  | again | error =>
    cases hx
    exact .put_nil hsame rfl
  | zero => cases hx
  | @part n hne =>
    cases hx
    have hle := le_of_allowed hallowed
    rw [Ctx.put, harmed.transferred hle]
    refine .more (Progress.head { h with held := ⟨h.held.files, h.held.badClose⟩ } hanswer ?_
      (harmed.advance (by omega)))
    rw [List.append_assoc, List.take_append_drop]
    exact hparts
  | @complete n hdone =>
    rw [onHeadSent] at hx
    cases hx
    have hn : n + 1 = rest.length := by omega
    rw [Ctx.put, harmed.transferred hn.le, hn, List.take_length, hparts]
    exact h.sends_headSent hanswer

/-- The file that is sent. -/
theorem SendingBody.file_eq (h : SendingBody ctx) :
    ∃ file, ctx.sys.file ctx.userData.fileFd = some file ∧ servedData ctx = file.data := by
  obtain ⟨file, hfile⟩ := Option.isSome_iff_exists.mp (h.held.isSome_file h.fileFd)
  exact ⟨file, hfile, by rw [servedData, hfile]⟩

/-- What is left of the file. -/
theorem SendingBody.available (h : SendingBody ctx) :
    ctx.available = some (min ctx.requested ((servedData ctx).length - ctx.alreadyWritten)) := by
  obtain ⟨file, hfile, hdata⟩ := h.file_eq
  rw [Ctx.available, h.wdata, hdata]
  dsimp only
  rw [hfile]
  rfl

theorem SendingBody.transferred (h : SendingBody ctx) (k : ℕ) :
    ctx.transferred k = ((servedData ctx).drop ctx.alreadyWritten).take k := by
  obtain ⟨file, hfile, hdata⟩ := h.file_eq
  rw [Ctx.transferred, h.wdata, hdata]
  dsimp only
  rw [hfile]

/-- A system call while a file is sent. -/
theorem SendingBody.sends {part : List UInt8} (h : SendingBody ctx)
    (hanswer : Answers fs (reply ctx))
    (hpart : part = ((servedData ctx).drop ctx.userData.offset).take part.length)
    (hlt : part = [] ∨ part.length < ctx.userData.fileSize)
    (hwritten : ctx.alreadyWritten = ctx.userData.offset + part.length)
    (hwrite : ctx.toWrite = toSize (ctx.userData.fileSize + ctx.userData.offset))
    {r : SysResult} (hallowed : Allowed ctx.available r) {status : LoopStatus}
    (hhandled : Core.writeHandle (app fs) ctx r = .status ctx' status) :
    Sends fs ctx' (bodySent ctx) [reply ctx]
      (ctx.userData.response.head ++ part ++ ctx.put r) := by
  have hsame : Progress fs ctx (bodySent ctx) [reply ctx] (ctx.userData.response.head ++ part) :=
    .body h hanswer hpart hlt hwritten hwrite
  obtain ⟨hsize, hdata⟩ := hanswer.bounds (response_body h.content)
  change (servedData ctx).length < 2 ^ 63 at hdata
  have hle : part.length ≤ ctx.userData.fileSize := by
    rcases hlt with rfl | hlt
    · exact Nat.zero_le _
    · exact hlt.le
  -- both counts wrap around, their difference does not
  have hrequested : ctx.requested = ctx.userData.fileSize - part.length := by
    rw [Ctx.requested, hwrite, hwritten]
    simp only [toSize]
    omega
  rw [h.available] at hallowed
  have hnext (n : ℕ) : part ++ ((servedData ctx).drop ctx.alreadyWritten).take n =
      ((servedData ctx).drop ctx.userData.offset).take (part.length + n) := by
    rw [List.take_add, ← hpart, List.drop_drop, hwritten]
  have hcount {n : ℕ}
      (hn : n + 1 ≤ min ctx.requested ((servedData ctx).length - ctx.alreadyWritten)) :
      (((servedData ctx).drop ctx.userData.offset).take (part.length + (n + 1))).length =
        part.length + (n + 1) := by
    rw [List.length_take, List.length_drop]
    omega
  have hrule := writeHandled (app fs) h.writeCallback r
  rw [hhandled] at hrule
  generalize hx : Handled.status ctx' status = x at hrule
  cases hrule with
  | again | error =>
    cases hx
    exact .put_nil hsame rfl
  | zero => cases hx
  | @part n hne =>
    cases hx
    have hroom := le_of_allowed hallowed
    have hlen := hcount hroom
    have hmore : part.length + (n + 1) ≠ ctx.userData.fileSize := by
      intro heq
      apply hne
      rw [hwrite, hwritten]
      simp only [toSize]
      omega
    rw [Ctx.put, h.transferred, List.append_assoc, hnext]
    refine .more (Progress.body { h with held := ⟨h.held.files, h.held.badClose⟩ } hanswer ?_ ?_ ?_
      hwrite)
    · rw [hlen]
      rfl
    · rw [hlen]
      dsimp only
      omega
    · rw [hlen]
      dsimp only
      omega
  | @complete n hdone =>
    rw [onBodySent] at hx
    cases hx
    have hroom := le_of_allowed hallowed
    have hlen := hcount hroom
    have hall : part.length + (n + 1) = ctx.userData.fileSize := by
      rw [hwrite, hwritten] at hdone
      simp only [toSize] at hdone
      omega
    have hcontent : (reply ctx).content =
        ((servedData ctx).drop ctx.userData.offset).take (part.length + (n + 1)) := by
      rw [content_reply h.content, hall]
    rw [Ctx.put, h.transferred, List.append_assoc, hnext, ← hcontent]
    refine .last hanswer ?_ (.waiting h.toSending.waiting_bodySent)
    rw [Reply.Complete, hcontent, hlen, announced_reply h.content]
    exact hall

/-- **A system call** puts the next bytes of the reply under way on the socket. -/
theorem Progress.write (h : Progress fs ctx s pending front) (hwrite : ctx.writeCallback.isSome)
    {r : SysResult} (hallowed : Allowed ctx.available r) {status : LoopStatus}
    (hhandled : Core.writeHandle (app fs) ctx r = .status ctx' status) :
    Sends fs ctx' s pending (front ++ ctx.put r) := by
  cases h with
  | waiting h => simp [h.readArmed.writeCallback] at hwrite
  | head h hanswer hparts harmed => exact h.sends hanswer hparts harmed hallowed hhandled
  | body h hanswer hpart hlt hwritten hwrite =>
    exact h.sends hanswer hpart hlt hwritten hwrite hallowed hhandled

/-! ## Reads -/

/-- A response that has been armed and not begun. -/
theorem armed_armResponse
    (h : 0 < ctx.userData.responseSize ∧ ctx.userData.responseSize ≤ maxBufferSize) :
    (armResponse ctx).Armed .writeHeaderCallback ctx.userData.response.head := by
  have hlen := ctx.userData.responseBuf.length_eq
  have hvalid : (Arming.write IoCallback.writeHeaderCallback ctx.userData.responseBuf.bytes
      ctx.userData.responseSize).Valid { ctx.sys with cork := true } :=
    ⟨h.1, h.2.trans_eq hlen.symm, h.2.trans_lt (by decide)⟩
  exact @Arming.Valid.armed _ _ _ { ctx with sys := { ctx.sys with cork := true } } hvalid

theorem Waiting.servedData_parsed (h : Waiting ctx) (arrival : Arrival) (request : Request) :
    servedData (parsed ctx arrival request) = [] := by
  have hfiles : (parsed ctx arrival request).sys.files = [] := h.files_eq_nil
  rw [servedData, Sys.file, hfiles]
  rfl

/-- The file behind an answer. -/
theorem Waiting.servedData_carryOut (h : Waiting ctx) (request : Request) (answer : Answer) :
    servedData (armResponse (carryOut (parsed ctx arrival request) answer)) = answer.data := by
  cases answer with
  | notFound => exact h.servedData_parsed arrival request
  | file found verdict =>
    have hfd : (carryOut (parsed ctx arrival request) (.file found verdict)).userData.fileFd =
        arrival.fd := fileFd_answer _ verdict
    have hopen : (carryOut (parsed ctx arrival request) (.file found verdict)).sys.file
        arrival.fd = some found.file := Sys.file_openFile _ _
    rw [servedData, userData_armResponse, hfd]
    change (match (carryOut (parsed ctx arrival request) (.file found verdict)).sys.file
      arrival.fd with | some file => file.data | none => []) = found.file.data
    rw [hopen]

/-- **A read** is a read of the session, and the reply that it makes is under way. -/
theorem Waiting.progress_read (h : Waiting ctx) (hfd : arrival.fd ≠ 0) (hb : arrival.bytes ≠ [])
    (hfit : arrival.bytes.length ≤ ctx.toRead) (hread : readArrival fs ctx arrival = .ok ctx')
    (done : List Reply) :
    ∃ s pending, sessionStep fs (ctx, done) arrival = some (s, done ++ pending) ∧
      Progress fs ctx' s pending [] := by
  have hstep : sessionStep fs (ctx, done) arrival =
      some (if ctx'.userData.finalized then (sendResponse ctx', done ++ [reply ctx'])
        else (ctx', done)) := by
    rw [sessionStep, if_pos ⟨hb, hfit⟩, hread]
  rcases h.mode_read hfd hb hfit hread with hwait | hhead
  · refine ⟨ctx', [], ?_, .waiting hwait⟩
    rw [hstep, if_neg (by simp [hwait.readArmed.finalized]), List.append_nil]
  · refine ⟨sendResponse ctx', [reply ctx'], by rw [hstep, if_pos hhead.finalized], ?_⟩
    obtain ⟨n, hrec, -⟩ := id h.awaiting
    have hlt := hrec.length_lt
    have hroom := hfit
    rw [hrec.toRead] at hroom
    cases hrec.readOutcome (by omega) hread with
    | more =>
      exact absurd hhead.finalized (by simp [Ctx.asyncRead, parsed, received, hrec.finalized])
    | @overflow count request =>
      have hwait : Receiving (httpFinishCallback (parsed ctx arrival request)).1 [] maxHeaders :=
        receiving_httpFinishCallback hrec.writeCallback
      exact absurd hhead.finalized (by simp [hwait.finalized])
    | @refused request hp =>
      refine .head hhead ?_ rfl
        (armed_armResponse (responseSize_bounds _ false serve400_ne_nil length_serve400_le))
      rw [reply, userData_armResponse, response_refused]
      have hdata : servedData (armResponse (refused ctx arrival request)) = [] :=
        h.servedData_parsed arrival request
      rw [hdata]
      exact .refused
    | @answered count request answer hp hpos hanswer =>
      refine .head hhead ?_ rfl (armed_armResponse (responseSize_carryOut _ _))
      rw [reply, h.servedData_carryOut, userData_armResponse, response_carryOut]
      exact .answered hanswer

/-! ## Sessions -/

/-- After the session `arrivals`, which ends in `s`, the replies `done` have been sent, and
`front` of the replies `pending`, of which there is at most one. -/
structure Replied (fs : FileSystem) (mem : UserData) (arrivals : List Arrival)
    (sent : List UInt8) (s : HttpCtx) (done pending : List Reply) (front : List UInt8) :
    Prop where
  session : exec (sessionStep fs) (acceptCallbackHttp mem, []) arrivals = some (s, done ++ pending)
  sent : sent = done.flatMap Reply.wire ++ front
  complete : ∀ m ∈ done, Answers fs m ∧ m.Complete
  answers : ∀ m ∈ pending, Answers fs m
  length_le : pending.length ≤ 1
  front_prefix : front <+: pending.flatMap Reply.wire

variable {mem : UserData} {arrivals : List Arrival} {sent : List UInt8} {done : List Reply}
variable {status : LoopStatus}

theorem replied_new (mem : UserData) :
    Replied fs mem [] [] (acceptCallbackHttp mem) [] [] [] where
  session := rfl
  sent := rfl
  complete := nofun
  answers := nofun
  length_le := Nat.zero_le 1
  front_prefix := List.prefix_rfl

/-- A `read` whose handler returns. -/
theorem Replied.read_step (h : Replied fs mem arrivals sent s done pending front)
    (hprogress : Progress fs ctx s pending front) (hread : ctx.readCallback.isSome)
    {xs : List UInt8} {fd : ℕ} (hne : xs ≠ []) (hroom : xs.length ≤ ctx.toRead) (hfd : fd ≠ 0)
    (hhandled : onRead (app fs) { ctx with sys := { ctx.sys with nextFd := fd } } xs =
      .status ctx' status) :
    ∃ s' pending', Replied fs mem (arrivals ++ [⟨fd, xs⟩]) sent s' done pending' [] ∧
      Progress fs ctx' s' pending' [] := by
  have hwait := hprogress.mode.waiting_of_readCallback hread
  have hr := readArrival_of_onRead hwait.readArmed.readCallback hhandled
  obtain ⟨rfl, rfl, rfl⟩ : s = ctx ∧ pending = [] ∧ front = [] := by
    cases hprogress with
    | waiting => exact ⟨rfl, rfl, rfl⟩
    | head hhead => simp [hhead.readCallback] at hread
    | body hbody => simp [hbody.readCallback] at hread
  obtain ⟨s', pending', hstep, hnext⟩ := hwait.progress_read hfd hne hroom hr done
  refine ⟨s', pending', ⟨?_, h.sent, h.complete, hnext.answers, hnext.length_pending_le,
    List.nil_prefix⟩, hnext⟩
  have hsession := h.session
  rw [List.append_nil] at hsession
  rw [exec_append, hsession, Option.bind_some, exec, hstep]
  rfl

/-- A `write` or `sendfile` whose handler returns. -/
theorem Replied.write_step (h : Replied fs mem arrivals sent s done pending front)
    (hprogress : Progress fs ctx s pending front) (hwrite : ctx.writeCallback.isSome)
    {r : SysResult} (hallowed : Allowed ctx.available r)
    (hhandled : Core.writeHandle (app fs) ctx r = .status ctx' status) :
    ∃ done' pending' front', Replied fs mem arrivals (sent ++ ctx.put r) s done' pending' front' ∧
      Progress fs ctx' s pending' front' := by
  have hsends := hprogress.write hwrite hallowed hhandled
  have hsent : sent ++ ctx.put r = done.flatMap Reply.wire ++ (front ++ ctx.put r) := by
    rw [h.sent, List.append_assoc]
  generalize front ++ ctx.put r = front' at hsends hsent
  cases hsends with
  | more hnext =>
    exact ⟨done, pending, front', ⟨h.session, hsent, h.complete, h.answers, h.length_le,
      hnext.front_prefix⟩, hnext⟩
  | @last m hanswer hcomplete hnext =>
    refine ⟨done ++ [m], [], [], ⟨?_, ?_, ?_, nofun, Nat.zero_le 1, List.nil_prefix⟩, hnext⟩
    · rw [List.append_nil]
      exact h.session
    · rw [hsent, List.flatMap_append, List.flatMap_singleton, List.append_nil]
    · intro m' hm'
      rcases List.mem_append.mp hm' with hm' | hm'
      · exact h.complete m' hm'
      · obtain rfl := List.mem_singleton.mp hm'
        exact ⟨hanswer, hcomplete⟩

/-- A handler that does not go on has transferred nothing. -/
theorem Mode.put_nil (h : Mode ctx) (hwrite : ctx.writeCallback.isSome) {r : SysResult}
    (hstop : ∀ ctx', Core.writeHandle (app fs) ctx r ≠ .status ctx' .continue) :
    ctx.put r = [] := by
  obtain ⟨callback, hcallback⟩ := Option.isSome_iff_exists.mp hwrite
  have hrule := writeHandled (app fs) hcallback r
  generalize Core.writeHandle (app fs) ctx r = handled at hrule hstop
  cases hrule with
  | again | error => rfl
  | zero =>
    rw [Ctx.put, Ctx.transferred]
    split
    · exact List.take_zero
    · split
      · exact List.take_zero
      · rfl
  | part => exact absurd rfl (hstop _)
  | complete =>
    cases h with
    | waiting h => simp [h.readArmed.writeCallback] at hcallback
    | head h =>
      obtain rfl := Option.some.inj (h.writeCallback.symm.trans hcallback)
      exact absurd (onHeadSent _ _ _) (hstop _)
    | body h =>
      obtain rfl := Option.some.inj (h.writeCallback.symm.trans hcallback)
      exact absurd (onBodySent _ _ _) (hstop _)

/-! ## Runs of a connection -/

/-- The connection `c`, whose client has sent `total`, after the session `arrivals`. -/
structure OnWire (fs : FileSystem) (mem : UserData) (total : List UInt8) (c : HttpConn)
    (arrivals : List Arrival) (s : HttpCtx) (done pending : List Reply) (front : List UInt8) : Prop
    extends Replied fs mem arrivals c.sent s done pending front where
  read_prefix : arrivals.flatMap Arrival.bytes <+: total
  unread : c.live → arrivals.flatMap Arrival.bytes ++ c.recvQueue = total
  progress : c.live → Progress fs c.ctx s pending front

variable {total : List UInt8} {c c' : HttpConn} {l : Label}

/-- A step that transfers nothing. -/
theorem OnWire.keep (h : OnWire fs mem total c arrivals s done pending front) {xs : List UInt8}
    (hsent : c'.sent = c.sent)
    (hlive : c'.live → c.live ∧ c'.ctx = c.ctx ∧ c'.recvQueue = c.recvQueue ++ xs) :
    OnWire fs mem (total ++ xs) c' arrivals s done pending front where
  session := h.session
  sent := hsent.trans h.sent
  complete := h.complete
  answers := h.answers
  length_le := h.length_le
  front_prefix := h.front_prefix
  read_prefix := h.read_prefix.trans (List.prefix_append _ _)
  unread hlive' := by
    obtain ⟨hlive, -, hqueue⟩ := hlive hlive'
    rw [hqueue, ← h.unread hlive, List.append_assoc]
  progress hlive' := by
    obtain ⟨hlive, hctx, -⟩ := hlive hlive'
    rw [hctx]
    exact h.progress hlive

/-- A read that the connection survives. -/
theorem OnWire.read_step (h : OnWire fs mem total c arrivals s done pending front)
    (hlive : c.live) {n fd : ℕ} (hread : c.ctx.readCallback.isSome) (hpos : 0 < n)
    (hroom : n ≤ c.ctx.toRead) (hlen : n ≤ c.recvQueue.length) (hfd : fd ≠ 0)
    (hhandled : onRead (app fs) { c.ctx with sys := { c.ctx.sys with nextFd := fd } }
      (c.recvQueue.take n) = .status c'.ctx status)
    (hqueue : c'.recvQueue = c.recvQueue.drop n) (hsent : c'.sent = c.sent) :
    ∃ arrivals s done pending front, OnWire fs mem total c' arrivals s done pending front := by
  have hcount : (c.recvQueue.take n).length = n := List.length_take_of_le hlen
  have hne : c.recvQueue.take n ≠ [] := List.ne_nil_of_length_pos (by omega)
  obtain ⟨s', pending', hreplied, hprogress⟩ :=
    h.toReplied.read_step (h.progress hlive) hread hne (hcount.trans_le hroom) hfd hhandled
  have hunread : (arrivals ++ [Arrival.mk fd (c.recvQueue.take n)]).flatMap Arrival.bytes ++
      c'.recvQueue = total := by
    rw [List.flatMap_append, List.flatMap_singleton, hqueue, List.append_assoc,
      List.take_append_drop]
    exact h.unread hlive
  refine ⟨_, s', done, pending', [], ⟨hsent ▸ hreplied, ?_, fun _ => hunread, fun _ => hprogress⟩⟩
  rw [← hunread]
  exact List.prefix_append _ _

/-- A write that the connection survives. -/
theorem OnWire.write_step (h : OnWire fs mem total c arrivals s done pending front)
    (hlive : c.live) (hwrite : c.ctx.writeCallback.isSome) {r : SysResult}
    (hallowed : Allowed c.ctx.available r)
    (hhandled : Core.writeHandle (app fs) c.ctx r = .status c'.ctx status)
    (hqueue : c'.recvQueue = c.recvQueue) (hsent : c'.sent = c.sent ++ c.ctx.put r) :
    ∃ arrivals s done pending front, OnWire fs mem total c' arrivals s done pending front := by
  obtain ⟨done', pending', front', hreplied, hprogress⟩ :=
    h.toReplied.write_step (h.progress hlive) hwrite hallowed hhandled
  refine ⟨arrivals, s, done', pending', front', ⟨hsent ▸ hreplied, h.read_prefix, fun _ => ?_,
    fun _ => hprogress⟩⟩
  rw [hqueue]
  exact h.unread hlive

/-- **Every step** is a step of the session, or sends a part of its last reply. -/
theorem OnWire.step (h : OnWire fs mem total c arrivals s done pending front)
    (hs : c.step (app fs) l = some c') :
    ∃ arrivals s done pending front,
      OnWire fs mem (total ++ l.bytes) c' arrivals s done pending front := by
  obtain ⟨hlive, hrule⟩ := Conn.steps_of_step hs
  have hsent := Conn.sent_of_step hs
  have hkeep {xs : List UInt8} (hput : c.put l = [])
      (hctx : c'.live → c'.ctx = c.ctx ∧ c'.recvQueue = c.recvQueue ++ xs) :
      ∃ arrivals s done pending front,
        OnWire fs mem (total ++ xs) c' arrivals s done pending front := by
    rw [hput, List.append_nil] at hsent
    exact ⟨_, _, _, _, _, h.keep hsent fun hlive' => ⟨hlive, hctx hlive'⟩⟩
  have hidle {d : HttpConn} (hqueue : d.recvQueue = c.recvQueue) :
      d.recvQueue = c.recvQueue ++ [] := by
    rw [hqueue, List.append_nil]
  cases hrule with
  | send => exact hkeep rfl fun _ => ⟨rfl, rfl⟩
  | shutdown | drain | wait | enter | finish | skip | leave =>
    exact hkeep rfl fun _ => ⟨rfl, hidle rfl⟩
  | expire | hangup | readError => exact hkeep rfl fun hlive' => by cases hlive'
  | @read n fd out hphase hread hpos hroom hlen hfd hfree =>
    have hbytes : (Label.read n fd).bytes = [] := rfl
    rw [hbytes, List.append_nil]
    by_cases hlive' : (Conn.handled (app fs) { c with recvQueue := c.recvQueue.drop n }
        (.reading out) (onRead (app fs) { c.ctx with sys := { c.ctx.sys with nextFd := fd } }
          (c.recvQueue.take n))).live
    · obtain ⟨_, status, hhandled, rfl⟩ := Conn.ctx_of_live_handled hlive'
      exact h.read_step hlive hread hpos hroom hlen hfd hhandled (Conn.recvQueue_handled _ _)
        (Conn.sent_handled _ _)
    · have hdead := @hkeep [] rfl fun h => absurd h hlive'
      rwa [List.append_nil] at hdead
  | @write r full sent writable hphase hwrite hallowed =>
    have hbytes : (Label.write r full).bytes = [] := rfl
    rw [hbytes, List.append_nil]
    by_cases hlive' : (Conn.handled (app fs) { c with sent, writable } .writing
        (Core.writeHandle (app fs) c.ctx r)).live
    · obtain ⟨_, status, hhandled, rfl⟩ := Conn.ctx_of_live_handled hlive'
      exact h.write_step hlive hwrite hallowed hhandled (Conn.recvQueue_handled _ _) hsent
    · have hstop (ctx' : HttpCtx) :
          Core.writeHandle (app fs) c.ctx r ≠ .status ctx' .continue := by
        intro hhandled
        rw [hhandled] at hlive'
        exact hlive' rfl
      have hput : c.put (.write r full) = [] := (h.progress hlive).mode.put_nil hwrite hstop
      have hdead := @hkeep [] hput fun h => absurd h hlive'
      rwa [List.append_nil] at hdead

theorem onWire_accepted (mem : UserData) (recvQueue : List UInt8) (eof : Bool) :
    OnWire fs mem recvQueue (accepted mem recvQueue eof) [] (acceptCallbackHttp mem) [] [] [] where
  toReplied := replied_new mem
  read_prefix := List.nil_prefix
  unread _ := rfl
  progress _ := .waiting (waiting_new mem)

theorem OnWire.exec {labels : List Label}
    (h : OnWire fs mem total c arrivals s done pending front)
    (hs : exec (Conn.step (app fs)) c labels = some c') :
    ∃ arrivals s done pending front,
      OnWire fs mem (total ++ labels.flatMap Label.bytes) c' arrivals s done pending front := by
  induction labels generalizing c total arrivals s done pending front with
  | nil =>
    obtain rfl := Option.some.inj hs
    rw [List.flatMap_nil, List.append_nil]
    exact ⟨_, _, _, _, _, h⟩
  | cons l labels ih =>
    obtain ⟨d, hd, hs⟩ := Option.bind_eq_some_iff.mp hs
    obtain ⟨_, _, _, _, _, h⟩ := h.step hd
    rw [List.flatMap_cons, ← List.append_assoc]
    exact ih h hs

end

/-- **Sessions on the wire.** However the reads, the writes and the client interleave, and
whatever the system calls transfer, a connection has read what a session has read, its socket
holds the replies of the session, each with all its bytes, and a front of the last one where
that is under way, and a connection that waits for a request is in the state of the session. -/
theorem conn_session {fs : FileSystem} {mem : UserData} {recvQueue : List UInt8} {eof : Bool}
    {labels : List Label} {c : HttpConn}
    (h : exec (Conn.step (app fs)) (accepted mem recvQueue eof) labels = some c) :
    ∃ arrivals s done pending front,
      OnWire fs mem (recvQueue ++ labels.flatMap Label.bytes) c arrivals s done pending front ∧
        (c.live → c.ctx.readCallback.isSome → c.ctx = s ∧ pending = []) := by
  obtain ⟨arrivals, s, done, pending, front, hwire⟩ := (onWire_accepted mem recvQueue eof).exec h
  refine ⟨arrivals, s, done, pending, front, hwire, fun hlive hread => ?_⟩
  cases hwire.progress hlive with
  | waiting => exact ⟨rfl, rfl⟩
  | head h => simp [h.readCallback] at hread
  | body h => simp [h.readCallback] at hread

theorem exec_twoBytesSent :
    ∃ c, exec (Conn.step (app threeBytes)) (accepted .zero plainRequest false) twoBytesSent =
      some c := by
  apply Option.isSome_iff_exists.mp
  decide +kernel

theorem conn_session_threeBytes :
    ∃ c arrivals s done pending front,
      OnWire threeBytes .zero plainRequest c arrivals s done pending front ∧
        (c.live → c.ctx.readCallback.isSome → c.ctx = s ∧ pending = []) := by
  obtain ⟨c, hc⟩ := exec_twoBytesSent
  exact ⟨c, conn_session hc⟩

end Yotta.Server
