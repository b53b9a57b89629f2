import Yotta.Server.Session

/-!
# Exchanges

A connection is in one of three modes: it waits for a request, it sends a response
head, or it sends a file behind its head. The mode is not stored anywhere, it is
left in the two callbacks that the event loop clears and that the callbacks of
`yotta.cpp` set again.

Results:
* `Mode.step`: every step of a connection ends in one of the modes.
* `conn_mode`: what the modes say about the members of the context.
* `conn_files`: the descriptor of the served file is open exactly as long as it is
  held in `file_fd`, and is closed once.
-/

namespace Yotta.Server

open Yotta.Bytes Yotta.Core Yotta.Numeral Yotta.Picohttp

abbrev HttpConn := Conn IoCallback UserData

/-- A connection that has just been accepted, in memory that holds `mem`. The client
may have sent bytes and its end of file, and adding the socket to the epoll set
makes an event pending. -/
def accepted (mem : UserData) (recvQueue : List UInt8) (eof : Bool) : HttpConn where
  ctx := acceptCallbackHttp mem
  recvQueue := recvQueue
  eof := eof
  pending := true
  writable := true
  phase := .idle
  sent := []

/-! ## Handlers -/

theorem status_httpFinishCallback (ctx : HttpCtx) : (httpFinishCallback ctx).2 = .ok := rfl

theorem status_writeHeaderCallback (ctx : HttpCtx) : (writeHeaderCallback ctx).2 = .ok := by
  unfold writeHeaderCallback
  dsimp only
  split_ifs
  · rfl
  · exact status_httpFinishCallback ctx

theorem status_afterParse (ctx : HttpCtx) (buf read : ℕ) : (afterParse ctx buf read).2 = .ok := by
  unfold afterParse
  dsimp only
  split_ifs
  · rfl
  · exact status_httpFinishCallback ctx
  · rfl

theorem status_readCallbackHttp {fs : FileSystem} {ctx : HttpCtx} {buf read : ℕ}
    {x : HttpCtx × CallbackStatus} (h : readCallbackHttp fs ctx buf read = .ok x) : x.2 = .ok := by
  rw [readCallbackHttp] at h
  dsimp only at h
  split_ifs at h
  · cases h
    exact status_afterParse _ _ _
  · cases hhandle : handleRequest fs
        { ctx with userData := (parseBuffer ctx.userData read).2 } with
    | error e =>
      rw [hhandle] at h
      cases h
    | ok ctx' =>
      rw [hhandle] at h
      cases h
      exact status_afterParse _ _ _
  · cases h
    exact status_afterParse _ _ _

section

variable {fs : FileSystem} {ctx : HttpCtx}

/-- `read_loop` calls `read_callback_http` on what `read` has returned. -/
theorem onRead_app (h : ctx.readCallback = some .readCallbackHttp) (fd : ℕ) (xs : List UInt8) :
    onRead (app fs) { ctx with sys := { ctx.sys with nextFd := fd } } xs =
      match readArrival fs ctx ⟨fd, xs⟩ with
      | .ok ctx' => .status ctx' .continue
      | .error e => .raise e := by
  rw [onRead]
  dsimp only
  rw [h]
  change afterCallback (readCallbackHttp fs (received ctx ⟨fd, xs⟩) ctx.readBuf xs.length) = _
  rw [readArrival]
  cases hread : readCallbackHttp fs (received ctx ⟨fd, xs⟩) ctx.readBuf xs.length with
  | error e => rfl
  | ok x => exact afterCallback_ok (status_readCallbackHttp hread)

/-- A `read` that has been handled has had an outcome. -/
theorem readArrival_of_onRead (h : ctx.readCallback = some .readCallbackHttp) {fd : ℕ}
    {xs : List UInt8} {ctx' : HttpCtx} {status : LoopStatus}
    (hhandled : onRead (app fs) { ctx with sys := { ctx.sys with nextFd := fd } } xs =
      .status ctx' status) : readArrival fs ctx ⟨fd, xs⟩ = .ok ctx' := by
  rw [onRead_app h] at hhandled
  cases hr : readArrival fs ctx ⟨fd, xs⟩ with
  | error e => rw [hr] at hhandled; cases hhandled
  | ok ctx'' =>
    rw [hr] at hhandled
    cases hhandled
    rfl

/-- The context after the last byte of a response head. -/
def headSent (ctx : HttpCtx) : HttpCtx := (writeHeaderCallback ctx.completed).1

/-- The context after the last byte of a file. -/
def bodySent (ctx : HttpCtx) : HttpCtx := (httpFinishCallback ctx.completed).1

theorem onHeadSent (ctx : HttpCtx) (buf written : ℕ) :
    afterCallback ((app fs).io .writeHeaderCallback ctx.completed buf written) =
      .status (headSent ctx) .continue :=
  afterCallback_ok (status_writeHeaderCallback _)

theorem onBodySent (ctx : HttpCtx) (buf written : ℕ) :
    afterCallback ((app fs).io .httpFinishCallback ctx.completed buf written) =
      .status (bodySent ctx) .continue :=
  afterCallback_ok (status_httpFinishCallback _)

end

/-! ## Modes -/

/-- At most the one file in `file_fd` is open, and every descriptor that was closed
was open. -/
structure Held (ctx : HttpCtx) : Prop where
  files : ctx.userData.fileFd = 0 ∧ ctx.sys.files = [] ∨
    ctx.userData.fileFd ≠ 0 ∧ ∃ file, ctx.sys.files = [(ctx.userData.fileFd, file)]
  badClose : ctx.sys.badClose = false

/-- The connection waits for a request, or for the rest of one. -/
structure Waiting (ctx : HttpCtx) : Prop where
  awaiting : ∃ n, Receiving ctx ctx.userData.sinceAccept n ∧
    (ctx.userData.sinceAccept = [] → n = maxHeaders)
  cork : ctx.sys.cork = false
  held : Held ctx

/-- The connection sends a response. -/
structure Sending (ctx : HttpCtx) (callback : IoCallback) (wdata : WriteData) : Prop where
  readCallback : ctx.readCallback = none
  writeCallback : ctx.writeCallback = some callback
  wdata : ctx.wdata = wdata
  finalized : ctx.userData.finalized = true
  cork : ctx.sys.cork = true
  held : Held ctx

/-- The connection sends a response head. -/
structure SendingHead (ctx : HttpCtx) : Prop extends
    Sending ctx .writeHeaderCallback (.basic ctx.userData.responseBuf.bytes) where
  toWrite : ctx.toWrite = ctx.userData.responseSize
  fileFd : ctx.userData.content = true → ctx.userData.fileFd ≠ 0

/-- The connection sends a file. -/
structure SendingBody (ctx : HttpCtx) : Prop extends
    Sending ctx .httpFinishCallback (.sendfile ctx.userData.fileFd) where
  content : ctx.userData.content = true
  fileFd : ctx.userData.fileFd ≠ 0

/-- **The modes** of a connection outside its callbacks. -/
inductive Mode (ctx : HttpCtx) : Prop
  | waiting (h : Waiting ctx)
  | head (h : SendingHead ctx)
  | body (h : SendingBody ctx)

section

variable {fs : FileSystem} {ctx ctx' : HttpCtx} {arrival : Arrival}

theorem Mode.held (h : Mode ctx) : Held ctx := by
  cases h with
  | waiting h => exact h.held
  | head h => exact h.held
  | body h => exact h.held

theorem Waiting.files_eq_nil (h : Waiting ctx) : ctx.sys.files = [] := by
  obtain ⟨n, hrec, -⟩ := h.awaiting
  rcases h.held.files with ⟨-, hfiles⟩ | ⟨hfd, -⟩
  · exact hfiles
  · exact absurd hrec.fileFd hfd

theorem Mode.waiting_of_readCallback (h : Mode ctx) (hread : ctx.readCallback.isSome) :
    Waiting ctx := by
  cases h with
  | waiting h => exact h
  | head h => simp [h.readCallback] at hread
  | body h => simp [h.readCallback] at hread

/-- Closing the file that is held leaves none open. -/
theorem Held.close (h : Held ctx) (hfd : ctx.userData.fileFd ≠ 0) :
    (ctx.sys.close ctx.userData.fileFd).files = [] ∧
      (ctx.sys.close ctx.userData.fileFd).badClose = false := by
  obtain ⟨file, hfiles⟩ := (h.files.resolve_left fun h0 => hfd h0.1).2
  constructor
  · simp [Sys.close, hfiles]
  · simp [Sys.close, Sys.file, hfiles, h.badClose]

theorem Held.files_eq_nil (h : Held ctx) (hfd : ctx.userData.fileFd = 0) : ctx.sys.files = [] := by
  rcases h.files with ⟨-, hfiles⟩ | ⟨hne, -⟩
  · exact hfiles
  · exact absurd hfd hne

/-- The file that is held is open. -/
theorem Held.isSome_file (h : Held ctx) (hfd : ctx.userData.fileFd ≠ 0) :
    (ctx.sys.file ctx.userData.fileFd).isSome := by
  obtain ⟨file, hfiles⟩ := (h.files.resolve_left fun h0 => hfd h0.1).2
  simp [Sys.file, hfiles]

theorem waiting_acceptLogic (hwrite : ctx.writeCallback = none) (hcork : ctx.sys.cork = false)
    (hfiles : ctx.sys.files = []) (hclose : ctx.sys.badClose = false) :
    Waiting (acceptLogic ctx) where
  awaiting := ⟨maxHeaders, receiving_acceptLogic hwrite, fun _ => rfl⟩
  cork := hcork
  held := ⟨Or.inl ⟨rfl, hfiles⟩, hclose⟩

theorem waiting_new (mem : UserData) : Waiting (acceptCallbackHttp mem) :=
  waiting_acceptLogic rfl rfl rfl rfl

theorem Held.waiting_httpFinishCallback (h : Held ctx) (hwrite : ctx.writeCallback = none) :
    Waiting (httpFinishCallback ctx).1 := by
  rw [httpFinishCallback]
  dsimp only
  split_ifs with hfd
  · obtain ⟨hfiles, hclose⟩ := h.close hfd
    exact waiting_acceptLogic hwrite rfl hfiles hclose
  · exact waiting_acceptLogic hwrite rfl (h.files_eq_nil (not_not.mp hfd)) h.badClose

theorem Sending.waiting_bodySent {callback : IoCallback} {wdata : WriteData}
    (h : Sending ctx callback wdata) : Waiting (bodySent ctx) := by
  have hheld : Held ctx.completed := ⟨h.held.files, h.held.badClose⟩
  exact hheld.waiting_httpFinishCallback rfl

/-- Behind a head comes the file, where there is one to send. -/
theorem SendingHead.sendingBody (h : SendingHead ctx) (hcontent : ctx.userData.content = true) :
    SendingBody (headSent ctx) := by
  rw [headSent, writeHeaderCallback]
  rw [if_pos (by exact hcontent)]
  exact
    { readCallback := h.readCallback
      writeCallback := rfl
      wdata := rfl
      finalized := h.finalized
      cork := h.cork
      held := ⟨h.held.files, h.held.badClose⟩
      content := hcontent
      fileFd := h.fileFd hcontent }

theorem headSent_of_not_content (hcontent : ctx.userData.content = false) :
    headSent ctx = bodySent ctx := by
  rw [headSent, bodySent, writeHeaderCallback]
  exact congrArg Prod.fst (if_neg (by simp [Ctx.completed, hcontent]))

theorem SendingHead.mode_headSent (h : SendingHead ctx) : Mode (headSent ctx) := by
  cases hcontent : ctx.userData.content with
  | true => exact .body (h.sendingBody hcontent)
  | false =>
    rw [headSent_of_not_content hcontent]
    exact .waiting h.toSending.waiting_bodySent

/-! ## Reads -/

/-- A finalized connection sends its response head. -/
theorem sendingHead_armResponse (hread : ctx.readCallback = none)
    (hfin : ctx.userData.finalized = true) (hheld : Held ctx)
    (hfd : ctx.userData.content = true → ctx.userData.fileFd ≠ 0) :
    SendingHead (armResponse ctx) where
  readCallback := hread
  writeCallback := rfl
  wdata := rfl
  finalized := hfin
  cork := rfl
  held := ⟨hheld.files, hheld.badClose⟩
  toWrite := rfl
  fileFd := hfd

theorem Waiting.held_parsed (h : Waiting ctx) (arrival : Arrival) (request : Request) :
    Held (parsed ctx arrival request) :=
  ⟨h.held.files, h.held.badClose⟩

theorem fileFd_finalize (u : UserData) (head : List UInt8) (content : Bool) :
    (u.finalize head content).fileFd = u.fileFd := rfl

theorem fileFd_answer (u : UserData) (verdict : Verdict) :
    (u.answer verdict).fileFd = u.fileFd := by
  cases verdict with
  | badRequest => exact fileFd_finalize u _ false
  | notModified => exact fileFd_finalize u _ false
  | partialContent first last => exact fileFd_finalize _ _ true
  | full => exact fileFd_finalize u _ true

/-- A file that is answered with is held. -/
theorem Waiting.held_carryOut (h : Waiting ctx) (hfd : arrival.fd ≠ 0) (request : Request)
    (answer : Answer) : Held (carryOut (parsed ctx arrival request) answer) := by
  cases answer with
  | notFound => exact ⟨h.held.files, h.held.badClose⟩
  | file found verdict =>
    refine ⟨Or.inr ?_, h.held.badClose⟩
    have hfileFd := fileFd_answer (openFound (parsed ctx arrival request) found).userData verdict
    rw [carryOut]
    dsimp only
    rw [hfileFd]
    refine ⟨hfd, found.file, ?_⟩
    change (arrival.fd, found.file) :: ctx.sys.files = _
    rw [h.files_eq_nil]
    rfl

/-- Only an answer with a file sets the `content` flag. -/
theorem fileFd_carryOut (hfd : arrival.fd ≠ 0) (request : Request) (answer : Answer)
    (hcontent : (carryOut (parsed ctx arrival request) answer).userData.content = true) :
    (carryOut (parsed ctx arrival request) answer).userData.fileFd ≠ 0 := by
  cases answer with
  | notFound => cases hcontent
  | file found verdict =>
    rw [carryOut]
    dsimp only
    rw [fileFd_answer]
    exact hfd

/-- A read leads from the first mode to the first or to the second. -/
theorem Waiting.mode_read (h : Waiting ctx) (hfd : arrival.fd ≠ 0) (hb : arrival.bytes ≠ [])
    (hfit : arrival.bytes.length ≤ ctx.toRead) (hread : readArrival fs ctx arrival = .ok ctx') :
    Waiting ctx' ∨ SendingHead ctx' := by
  obtain ⟨n, hrec, -⟩ := h.awaiting
  have hlt := hrec.length_lt
  rw [hrec.toRead] at hfit
  cases hrec.readOutcome (by omega) hread with
  | @more count request hp hle hbad hroom =>
    refine Or.inl ⟨⟨_, hrec.receiving_more hroom request, fun hnil => ?_⟩, h.cork,
      ⟨h.held.files, h.held.badClose⟩⟩
    exact absurd (List.append_eq_nil_iff.mp hnil).2 hb
  | @overflow count request hp hle hbad hfull =>
    exact Or.inl ((h.held_parsed arrival request).waiting_httpFinishCallback hrec.writeCallback)
  | @refused request hp =>
    exact Or.inr (sendingHead_armResponse rfl rfl ⟨h.held.files, h.held.badClose⟩ nofun)
  | @answered count request answer hp hpos hanswer =>
    refine Or.inr (sendingHead_armResponse ?_ (finalized_carryOut _ _)
      (h.held_carryOut hfd request answer) (fileFd_carryOut hfd request answer))
    cases answer <;> rfl

/-! ## Writes -/

/-- A write leads from the second mode to the second, the third or the first, and from
the third to the third or the first. -/
theorem Mode.writeHandle (h : Mode ctx) (hwrite : ctx.writeCallback.isSome) {r : SysResult}
    {status : LoopStatus} (hhandled : Core.writeHandle (app fs) ctx r = .status ctx' status) :
    Mode ctx' := by
  obtain ⟨callback, hcallback⟩ := Option.isSome_iff_exists.mp hwrite
  have hrule := writeHandled (app fs) hcallback r
  rw [hhandled] at hrule
  cases h with
  | waiting h =>
    obtain ⟨n, hrec, -⟩ := h.awaiting
    rw [hrec.writeCallback] at hcallback
    cases hcallback
  | head h =>
    rw [h.writeCallback] at hcallback
    cases hcallback
    generalize hx : Handled.status ctx' status = x at hrule
    cases hrule with
    | again | error => cases hx; exact .head h
    | zero => cases hx
    | part hne =>
      cases hx
      exact .head { h with held := ⟨h.held.files, h.held.badClose⟩ }
    | complete hdone =>
      rw [onHeadSent] at hx
      cases hx
      exact h.mode_headSent
  | body h =>
    rw [h.writeCallback] at hcallback
    cases hcallback
    generalize hx : Handled.status ctx' status = x at hrule
    cases hrule with
    | again | error => cases hx; exact .body h
    | zero => cases hx
    | part hne =>
      cases hx
      exact .body { h with held := ⟨h.held.files, h.held.badClose⟩ }
    | complete hdone =>
      rw [onBodySent] at hx
      cases hx
      exact .waiting h.toSending.waiting_bodySent

/-- The system call transfers the last byte of a response. -/
def CompletesResponse (ctx : HttpCtx) (n : ℕ) : Prop :=
  ctx.alreadyWritten + n = ctx.toWrite ∧
    (ctx.writeCallback = some .writeHeaderCallback → ctx.userData.content = false)

theorem receiving_bodySent (ctx : HttpCtx) : Receiving (bodySent ctx) [] maxHeaders :=
  receiving_httpFinishCallback rfl

variable (fs) in
/-- The last byte of a response leaves the connection waiting for the next request. -/
theorem Mode.writeHandle_completes (h : Mode ctx) (hwrite : ctx.writeCallback.isSome) {n : ℕ}
    (hdone : CompletesResponse ctx (n + 1)) :
    ∃ ctx', Core.writeHandle (app fs) ctx (.count (n + 1)) = .status ctx' .continue ∧
      Waiting ctx' ∧ Receiving ctx' [] maxHeaders := by
  obtain ⟨hlast, hcontent⟩ := hdone
  cases h with
  | waiting h =>
    obtain ⟨m, hrec, -⟩ := h.awaiting
    simp [hrec.writeCallback] at hwrite
  | head h =>
    have hrule := writeHandled (app fs) h.writeCallback (.count (n + 1))
    generalize Core.writeHandle (app fs) ctx (.count (n + 1)) = x at hrule
    cases hrule with
    | part hne => exact absurd hlast hne
    | complete =>
      refine ⟨_, onHeadSent _ _ _, ?_⟩
      rw [headSent_of_not_content (hcontent h.writeCallback)]
      exact ⟨h.toSending.waiting_bodySent, receiving_bodySent ctx⟩
  | body h =>
    have hrule := writeHandled (app fs) h.writeCallback (.count (n + 1))
    generalize Core.writeHandle (app fs) ctx (.count (n + 1)) = x at hrule
    cases hrule with
    | part hne => exact absurd hlast hne
    | complete =>
      exact ⟨_, onBodySent _ _ _, h.toSending.waiting_bodySent, receiving_bodySent ctx⟩

/-! ## Runs -/

variable {c c' : HttpConn} {l : Label}

/-- Whatever a handler returns is in one of the modes. -/
theorem Mode.of_returns (h : Mode c.ctx) (hreturns : c.Returns (app fs) l ctx') : Mode ctx' := by
  cases hreturns with
  | @read n fd ctx status hread hpos hroom hlen hfd hfree hhandled =>
    have hwait := h.waiting_of_readCallback hread
    obtain ⟨m, hrec, -⟩ := hwait.awaiting
    have hcount : (c.recvQueue.take n).length = n := List.length_take_of_le hlen
    have hne : c.recvQueue.take n ≠ [] := List.ne_nil_of_length_pos (by omega)
    have hr := readArrival_of_onRead hrec.readCallback hhandled
    rcases hwait.mode_read hfd hne (by rw [hcount]; exact hroom) hr with h | h
    · exact .waiting h
    · exact .head h
  | write hwrite hallowed hhandled => exact h.writeHandle hwrite hhandled

/-- **Modes along a step.** -/
theorem Mode.step (h : Mode c.ctx) (hs : c.step (app fs) l = some c') (hlive : c'.live) :
    Mode c'.ctx := by
  rcases (Conn.steps_of_step hs).2.ctx_of_live hlive with hctx | hreturns
  · rwa [hctx]
  · exact h.of_returns hreturns

/-- What is held is closed when the connection is cleaned up. -/
theorem Held.httpCleanup (h : Held ctx) :
    (httpCleanup ctx).sys.files = [] ∧ (httpCleanup ctx).sys.badClose = false := by
  rw [Server.httpCleanup]
  split_ifs with hfd
  · exact h.close hfd
  · exact ⟨h.files_eq_nil (not_not.mp hfd), h.badClose⟩

/-- What holds of a connection at any time. -/
structure ConnInv (c : HttpConn) : Prop where
  mode : c.live → Mode c.ctx
  closed : c.phase = .closed → c.ctx.sys.files = [] ∧ c.ctx.sys.badClose = false

theorem connInv_accepted (mem : UserData) (recvQueue : List UInt8) (eof : Bool) :
    ConnInv (accepted mem recvQueue eof) where
  mode _ := .waiting (waiting_new mem)
  closed := nofun

theorem ConnInv.step (h : ConnInv c) (hs : c.step (app fs) l = some c') : ConnInv c' := by
  obtain ⟨hlive, hrule⟩ := Conn.steps_of_step hs
  refine ⟨(h.mode hlive).step hs, fun hclosed => ?_⟩
  obtain ⟨ctx, hctx, hclose⟩ := hrule.ctx_of_closed hlive hclosed
  have hmode : Mode ctx := by
    rcases hctx with rfl | hreturns
    · exact h.mode hlive
    · exact (h.mode hlive).of_returns hreturns
  rw [hclose]
  exact hmode.held.httpCleanup

/-- **Any run** of a connection keeps the invariant. -/
theorem connInv_of_reaches {mem : UserData} {recvQueue : List UInt8} {eof : Bool}
    (h : Reaches (Conn.step (app fs)) (accepted mem recvQueue eof) c) : ConnInv c :=
  h.invariant (connInv_accepted mem recvQueue eof) fun _ _ _ hinv _ hs => hinv.step hs

end

/-! ## The members of the context -/

/-- The read is armed. -/
structure ReadArmed (ctx : HttpCtx) : Prop where
  readCallback : ctx.readCallback = some .readCallbackHttp
  writeCallback : ctx.writeCallback = none
  finalized : ctx.userData.finalized = false
  fileFd : ctx.userData.fileFd = 0
  cork : ctx.sys.cork = false
  counter_lt : ctx.userData.counter < maxBufferSize
  readBuf : ctx.readBuf = ctx.userData.counter
  toRead : ctx.toRead = maxBufferSize - ctx.userData.counter
  buf : ctx.userData.buf.bytes.take ctx.userData.counter = ctx.userData.sinceAccept

/-- The write is armed. -/
structure WriteArmed (ctx : HttpCtx) : Prop where
  readCallback : ctx.readCallback = none
  writeCallback : ctx.writeCallback.isSome
  finalized : ctx.userData.finalized = true
  cork : ctx.sys.cork = true
  wdata :
    ctx.wdata = .basic ctx.userData.responseBuf.bytes ∧ ctx.toWrite = ctx.userData.responseSize ∧
        ctx.writeCallback = some .writeHeaderCallback ∨
      ctx.wdata = .sendfile ctx.userData.fileFd ∧ (ctx.sys.file ctx.userData.fileFd).isSome ∧
        ctx.userData.content = true ∧ ctx.writeCallback = some .httpFinishCallback

theorem Waiting.readArmed {ctx : HttpCtx} (h : Waiting ctx) : ReadArmed ctx := by
  obtain ⟨n, hrec, -⟩ := h.awaiting
  have hcounter := hrec.counter
  exact
    { readCallback := hrec.readCallback
      writeCallback := hrec.writeCallback
      finalized := hrec.finalized
      fileFd := hrec.fileFd
      cork := h.cork
      counter_lt := by rw [hcounter]; exact hrec.length_lt
      readBuf := by rw [hcounter]; exact hrec.readBuf
      toRead := by rw [hcounter]; exact hrec.toRead
      buf := by rw [hcounter]; exact hrec.buf }

theorem Mode.armed {ctx : HttpCtx} (h : Mode ctx) : ReadArmed ctx ∨ WriteArmed ctx := by
  cases h with
  | waiting h => exact Or.inl h.readArmed
  | head h =>
    exact Or.inr ⟨h.readCallback, by rw [h.writeCallback]; rfl, h.finalized, h.cork,
      Or.inl ⟨h.wdata, h.toWrite, h.writeCallback⟩⟩
  | body h =>
    exact Or.inr ⟨h.readCallback, by rw [h.writeCallback]; rfl, h.finalized, h.cork,
      Or.inr ⟨h.wdata, h.held.isSome_file h.fileFd, h.content, h.writeCallback⟩⟩

/-- **The mode of a connection.** In every state that a live connection reaches, exactly
one of its two callbacks is set, and the members of the context belong to it. -/
theorem conn_mode {fs : FileSystem} {mem : UserData} {recvQueue : List UInt8} {eof : Bool}
    {c : HttpConn} (h : Reaches (Conn.step (app fs)) (accepted mem recvQueue eof) c)
    (hlive : c.live) :
    (c.ctx.readCallback.isSome ↔ c.ctx.writeCallback.isNone) ∧
      (c.ctx.readCallback.isSome → ReadArmed c.ctx) ∧
      (c.ctx.writeCallback.isSome → WriteArmed c.ctx) := by
  rcases ((connInv_of_reaches h).mode hlive).armed with harmed | harmed
  · have hread := harmed.readCallback
    have hwrite := harmed.writeCallback
    exact ⟨by simp [hread, hwrite], fun _ => harmed, by simp [hwrite]⟩
  · have hread := harmed.readCallback
    have hwrite := harmed.writeCallback
    exact ⟨by simpa [hread] using Option.isSome_iff_ne_none.mp hwrite, by simp [hread],
      fun _ => harmed⟩

/-- Two bytes of the file are sent, and the third is not. -/
def twoBytesSent : List Label :=
  [.wait, .advance, .read plainRequest.length 7, .advance, .write (.count 134) false,
    .write (.count 2) true]

/-- The socket takes no more for a while, and then the third byte is sent. -/
def lastByteSent : List Label :=
  [.write .again false, .drain, .wait, .advance, .write (.count 1) false, .advance]

/-- What the connection is like after both. -/
theorem exec_served :
    ((exec (Conn.step (app threeBytes)) (accepted .zero plainRequest false) twoBytesSent).map
        fun c => (c.live, c.ctx.writeCallback, c.sent.length)) =
      some (true, some .httpFinishCallback, 136) ∧
    ((exec (Conn.step (app threeBytes)) (accepted .zero plainRequest false)
        (twoBytesSent ++ lastByteSent)).map fun c => (c.live, c.ctx.readCallback, c.sent.length)) =
      some (true, some .readCallbackHttp, 137) := by
  constructor <;> decide +kernel

theorem conn_mode_served :
    (∃ c, Reaches (Conn.step (app threeBytes)) (accepted .zero plainRequest false) c ∧
      c.sent.length = 136 ∧ WriteArmed c.ctx) ∧
    ∃ c, Reaches (Conn.step (app threeBytes)) (accepted .zero plainRequest false) c ∧
      c.sent.length = 137 ∧ ReadArmed c.ctx := by
  obtain ⟨hfirst, hsecond⟩ := exec_served
  obtain ⟨c, hc, hstate⟩ := Option.map_eq_some_iff.mp hfirst
  obtain ⟨c', hc', hstate'⟩ := Option.map_eq_some_iff.mp hsecond
  simp only [Prod.mk.injEq] at hstate hstate'
  obtain ⟨hlive, hwrite, hsent⟩ := hstate
  obtain ⟨hlive', hread, hsent'⟩ := hstate'
  have hmode := conn_mode (run_of_exec hc) hlive
  have hmode' := conn_mode (run_of_exec hc') hlive'
  exact ⟨⟨c, run_of_exec hc, hsent, hmode.2.2 (by rw [hwrite]; rfl)⟩,
    c', run_of_exec hc', hsent', hmode'.2.1 (by rw [hread]; rfl)⟩

/-- **The served file.** Whatever happens on a connection, at most the file in `file_fd`
is open, none while it waits for a request and none once it is cleaned up; what
`sendfile` reads is open; and no descriptor is closed that is not open. -/
theorem conn_files {fs : FileSystem} {mem : UserData} {recvQueue : List UInt8} {eof : Bool}
    {c : HttpConn} (h : Reaches (Conn.step (app fs)) (accepted mem recvQueue eof) c)
    (hphase : c.phase ≠ .aborted ∧ c.phase ≠ .raised) :
    c.ctx.sys.badClose = false ∧
      (c.ctx.sys.files = [] ∨ ∃ file, c.ctx.sys.files = [(c.ctx.userData.fileFd, file)]) ∧
      (c.live → c.ctx.readCallback.isSome → c.ctx.sys.files = []) ∧
      (c.live → ∀ fd, c.ctx.writeCallback.isSome → c.ctx.wdata = .sendfile fd →
        (c.ctx.sys.file fd).isSome) ∧
      (c.phase = .closed → c.ctx.sys.files = []) := by
  have hinv := connInv_of_reaches h
  by_cases hclosed : c.phase = .closed
  · obtain ⟨hfiles, hclose⟩ := hinv.closed hclosed
    refine ⟨hclose, Or.inl hfiles, ?_, ?_, fun _ => hfiles⟩ <;> simp [Conn.live, hclosed]
  · have hlive : c.live := by simp [Conn.live, hclosed, hphase]
    have hmode := hinv.mode hlive
    refine ⟨hmode.held.badClose, ?_, fun _ hread => ?_, fun _ fd hwrite hwdata => ?_,
      fun h => absurd h hclosed⟩
    · exact hmode.held.files.imp And.right fun h => h.2
    · exact (hmode.waiting_of_readCallback hread).files_eq_nil
    · cases hmode with
      | waiting h => simp [h.readArmed.writeCallback] at hwrite
      | head h => simp [h.wdata] at hwdata
      | body h =>
        obtain rfl := WriteData.sendfile.inj (h.wdata.symm.trans hwdata)
        exact h.held.isSome_file h.fileFd

/-- The file is open while it is sent, and closed behind its last byte or when the
connection expires in front of it. -/
theorem conn_files_served :
    (∃ c, Reaches (Conn.step (app threeBytes)) (accepted .zero plainRequest false) c ∧
      c.sent.length = 136 ∧ (c.ctx.sys.file 7).isSome ∧
      ∃ c', c.step (app threeBytes) .expire = some c' ∧ c'.ctx.sys.files = [] ∧
        c'.ctx.sys.badClose = false) ∧
    ∃ c, Reaches (Conn.step (app threeBytes)) (accepted .zero plainRequest false) c ∧
      c.sent.length = 137 ∧ c.ctx.sys.files = [] ∧ c.ctx.sys.badClose = false := by
  have hstate : ((exec (Conn.step (app threeBytes)) (accepted .zero plainRequest false)
      (twoBytesSent ++ [.write .again false])).map fun c => (c.live, c.phase, c.ctx.writeCallback,
        c.ctx.wdata, c.sent.length)) =
      some (true, .idle, some .httpFinishCallback, .sendfile 7, 136) := by
    decide +kernel
  obtain ⟨c, hc, hstate⟩ := Option.map_eq_some_iff.mp hstate
  simp only [Prod.mk.injEq] at hstate
  obtain ⟨hlive, hphase, hwrite, hwdata, hsent⟩ := hstate
  have hrun : Reaches (Conn.step (app threeBytes)) (accepted .zero plainRequest false) c :=
    run_of_exec hc
  have hidle : c.phase ≠ .aborted ∧ c.phase ≠ .raised := by
    rw [hphase]
    constructor <;> intro h <;> cases h
  have hopen := (conn_files hrun hidle).2.2.2.1 hlive 7
    (by rw [hwrite]; rfl) hwdata
  -- the timer expires
  have hexpire : c.step (app threeBytes) .expire = some (c.cleanup (app threeBytes)) := by
    have hinside : c.inside (app threeBytes) .expire = some (c.cleanup (app threeBytes)) :=
      if_pos hphase
    have houtside : c.outside .expire = none := rfl
    rw [Conn.step, if_pos hlive, houtside, Option.none_or, hinside]
  have hclosing : (c.cleanup (app threeBytes)).phase ≠ .aborted ∧
      (c.cleanup (app threeBytes)).phase ≠ .raised := by
    constructor <;> intro h <;> cases h
  have hclosed := conn_files (hrun.tail trivial hexpire) hclosing
  -- the last byte is sent
  obtain ⟨c', hc', hstate'⟩ := Option.map_eq_some_iff.mp exec_served.2
  simp only [Prod.mk.injEq] at hstate'
  obtain ⟨hlive', hread, hsent'⟩ := hstate'
  have hrun' : Reaches (Conn.step (app threeBytes)) (accepted .zero plainRequest false) c' :=
    run_of_exec hc'
  have hphase' : c'.phase ≠ .aborted ∧ c'.phase ≠ .raised := by
    constructor <;> intro h <;> rw [Conn.live, h] at hlive' <;> exact absurd hlive' (by decide)
  have hfiles := conn_files hrun' hphase'
  exact ⟨⟨c, hrun, hsent, hopen, _, hexpire, hclosed.2.2.2.2 rfl, hclosed.1⟩,
    c', hrun', hsent', hfiles.2.2.1 hlive' (by rw [hread]; rfl), hfiles.1⟩

end Yotta.Server
