import Yotta.Core.Connection
import Yotta.Server.Headers
import Yotta.Server.Url

/-!
# The callbacks

Model of the callbacks of `yotta.cpp` (lines 304–413), and the application they
make for the event loop. `setsockopt` succeeds on the socket of a connection.

Result:
* `handleRequest_eq`: what becomes of a parsed request is decided by the file it
  names and by the verdict on its headers.
-/

namespace Yotta.Server

open Yotta.Bytes Yotta.Core Yotta.Numeral Yotta.Picohttp

/-! ## Model of the code -/

/-- `accept_logic` (lines 395–401). -/
def acceptLogic (ctx : HttpCtx) : HttpCtx :=
  { ctx with
    userData := { ctx.userData with
      parser := .init, counter := 0, finalized := false, fileFd := 0
      sinceAccept := [] } }.asyncRead .readCallbackHttp 0 maxBufferSize

/-- `http_finish_callback` (lines 306–323). -/
def httpFinishCallback (ctx : HttpCtx) : HttpCtx × CallbackStatus :=
  let ctx :=
    if ctx.userData.fileFd ≠ 0 then
      { ctx with sys := ctx.sys.close ctx.userData.fileFd
                 userData := { ctx.userData with fileFd := 0 } }
    else ctx
  let ctx := { ctx with sys := { ctx.sys with cork := false } }
  (acceptLogic ctx, .ok)

/-- `write_header_callback` (lines 325–334). -/
def writeHeaderCallback (ctx : HttpCtx) : HttpCtx × CallbackStatus :=
  let u := ctx.userData
  if u.content then (ctx.asyncSendfile .httpFinishCallback u.fileFd u.fileSize u.offset, .ok)
  else httpFinishCallback ctx

/-- `parse_url` and `parse_headers`, as `read_callback_http` calls them (lines
351–352). -/
def handleRequest (fs : FileSystem) (ctx : HttpCtx) : Except Fault HttpCtx := do
  let ctx := parseUrl fs ctx (ctx.userData.parser.request.path.getD [])
  let u ← parseHeaders ctx.userData
  .ok { ctx with userData := u }

/-- The end of `read_callback_http` (lines 355–374). -/
def afterParse (ctx : HttpCtx) (buf read : ℕ) : HttpCtx × CallbackStatus :=
  let u := ctx.userData
  if u.finalized then
    let ctx := { ctx with sys := { ctx.sys with cork := true } }
    (ctx.asyncWrite .writeHeaderCallback u.responseBuf.bytes u.responseSize, .ok)
  else if u.counter = maxBufferSize then httpFinishCallback ctx
  else (ctx.asyncRead .readCallbackHttp (buf + read) (maxBufferSize - u.counter), .ok)

/-- `phr_parse_request` on the first `counter` bytes of `buf` (lines 339–346): what
it returns, and the connection with the parser's output. -/
def parseBuffer (u : UserData) (read : ℕ) : ℤ × UserData :=
  let prevCount := u.counter
  let counter := u.counter + read
  let (parsed, request) :=
    phrParseRequest (u.buf.bytes.take counter) u.parser.numHeaders prevCount
  (parsed, { u with counter, parser := { request, numHeaders := request.headers.length } })

/-- `read_callback_http` (lines 336–375). -/
def readCallbackHttp (fs : FileSystem) (ctx : HttpCtx) (buf read : ℕ) :
    Except Fault (HttpCtx × CallbackStatus) := do
  let (parsed, u) := parseBuffer ctx.userData read
  let ctx := { ctx with userData := u }
  let ctx ←
    if parsed = -1 then .ok { ctx with userData := ctx.userData.return400 }
    else if parsed > 0 then handleRequest fs ctx
    else .ok ctx
  .ok (afterParse ctx buf read)

/-- `http_cleanup` (lines 377–388); the connection is deleted with its memory. -/
def httpCleanup (ctx : HttpCtx) : HttpCtx :=
  if ctx.userData.fileFd ≠ 0 then
    { ctx with sys := ctx.sys.close ctx.userData.fileFd
               userData := { ctx.userData with fileFd := 0 } }
  else ctx

/-- `accept_callback_http` (lines 403–413) on the context that `accept_loop` has
cleared, with a new connection in memory that holds `mem`. -/
def acceptCallbackHttp (mem : UserData) : HttpCtx :=
  acceptLogic
    { userData := .new mem, readCallback := none, readBuf := 0, toRead := 0, writeCallback := none,
      wdata := .basic [], alreadyWritten := 0, toWrite := 0,
      sys := { cork := false, nextFd := 0, files := [], badClose := false } }

/-- The application of `yotta.cpp`. -/
def app (fs : FileSystem) : App IoCallback UserData Fault where
  io
    | .readCallbackHttp, ctx, buf, read => readCallbackHttp fs ctx buf read
    | .writeHeaderCallback, ctx, _, _ => .ok (writeHeaderCallback ctx)
    | .httpFinishCallback, ctx, _, _ => .ok (httpFinishCallback ctx)
  close := httpCleanup
  store u pos xs := { u with buf := u.buf.write pos xs, sinceAccept := u.sinceAccept ++ xs }

/-! ## Requests -/

/-- What a request is answered with. -/
inductive Answer
  | notFound
  | file (found : Found) (verdict : Verdict)

/-- The answer to a request, with the memory from the start of the read buffer. -/
def requestAnswer (fs : FileSystem) (memory : List UInt8) (request : Request) :
    Except Fault Answer :=
  match findFile fs (request.path.getD []) with
  | none => .ok .notFound
  | some found =>
    (headerVerdict found.fileStat memory request.headers).map (Answer.file found)

/-- The connection once an answer is carried out. -/
def carryOut (ctx : HttpCtx) : Answer → HttpCtx
  | .notFound => { ctx with userData := ctx.userData.return404 }
  | .file found verdict =>
    let ctx := openFound ctx found
    { ctx with userData := ctx.userData.answer verdict }

/-- What an answer sends, on a connection whose member `offset` holds `offset`. -/
def Answer.response (offset : ℕ) : Answer → Response
  | .notFound => { head := Http.serve404, body := none }
  | .file found verdict => verdict.response found.fileStat found.extension offset

theorem handleHeaders_of_finalized {u : UserData} (hu : u.finalized = true)
    (headers : List PhrHeader) : handleHeaders u headers = .ok u := by
  cases headers with
  | nil => rfl
  | cons header headers => rw [handleHeaders, if_pos hu]

theorem parseHeaders_of_finalized {u : UserData} (hu : u.finalized = true) :
    parseHeaders u = .ok u := by
  rw [parseHeaders, handleHeaders_of_finalized hu]
  simp [bind, Except.bind, hu]

/-- **A parsed request** is answered by the file it names and its headers. -/
theorem handleRequest_eq {fs : FileSystem} {ctx : HttpCtx} (hu : ctx.userData.finalized = false) :
    handleRequest fs ctx =
      (requestAnswer fs ctx.userData.memory ctx.userData.parser.request).map (carryOut ctx) := by
  rw [handleRequest, requestAnswer, parseUrl_eq]
  cases findFile fs (ctx.userData.parser.request.path.getD []) with
  | none =>
    dsimp only
    rw [parseHeaders_of_finalized rfl]
    rfl
  | some found =>
    dsimp only
    rw [parseHeaders_eq (by exact hu)]
    have hverdict : headerVerdict (openFound ctx found).userData.fileStat
        (openFound ctx found).userData.memory
        (openFound ctx found).userData.parser.request.headers =
      headerVerdict found.fileStat ctx.userData.memory ctx.userData.parser.request.headers := rfl
    rw [hverdict]
    cases headerVerdict found.fileStat ctx.userData.memory
      ctx.userData.parser.request.headers <;> rfl

end Yotta.Server
