import Yotta.Core.EventLoop
import Yotta.Http.Response
import Yotta.Picohttp.Parser

/-!
# The state of an HTTP connection

`user_data` of `yotta.cpp` (lines 19–69), the responses it holds, and the
memory that a pointer into its read buffer leads to.
-/

namespace Yotta.Server

open Yotta.Bytes Yotta.Core Yotta.Http Yotta.Picohttp

/-- `MAX_URL_SIXE` -/
def maxUrlSize : ℕ := 1024

/-- `MAX_HEADERS` -/
def maxHeaders : ℕ := 30

/-- `MAX_BUFFER_SIZE` -/
abbrev maxBufferSize : ℕ := 2048

/-- The `yta_io_callback`s of `yotta.cpp`. -/
inductive IoCallback
  | readCallbackHttp
  | writeHeaderCallback
  | httpFinishCallback
deriving DecidableEq

/-- `parser_data` (lines 25–34). -/
structure ParserData where
  request : Request
  numHeaders : ℕ

/-- `parser_data{}` -/
def ParserData.init : ParserData :=
  { request := { method := none, path := none, minorVersion := 0, headers := [] }
    numHeaders := maxHeaders }

/-- `user_data` (lines 36–55). `sinceAccept` is not a member of it: it records what
has been put into `buf` since `accept_logic` was last called. -/
structure UserData where
  counter : ℕ
  buf : Buffer maxBufferSize
  responseBuf : Buffer maxBufferSize
  finalized : Bool
  responseSize : ℕ
  content : Bool
  extension : List UInt8
  fileFd : ℕ
  fileSize : ℕ
  offset : ℕ
  parser : ParserData
  fileStat : FileStat
  sinceAccept : List UInt8

/-- A connection in zeroed memory. -/
def UserData.zero : UserData where
  counter := 0
  buf := Buffer.zero maxBufferSize
  responseBuf := Buffer.zero maxBufferSize
  finalized := false
  responseSize := 0
  content := false
  extension := []
  fileFd := 0
  fileSize := 0
  offset := 0
  parser := .init
  fileStat := { isReg := true, stSize := 0, stMtime := 0, size_lt := by decide
                mtime_bounds := FileStat.epoch_bounds }
  sinceAccept := []

abbrev HttpCtx := Ctx IoCallback UserData

/-- What a finalized connection sends: the response head, and the offset and
length handed to `yta_async_sendfile` when the `content` flag is set. -/
structure Response where
  head : List UInt8
  body : Option (ℕ × ℕ)
deriving DecidableEq

namespace UserData

/-- `new user_data`, in memory that holds `mem`: only the members with an
initializer are set. -/
def new (mem : UserData) : UserData := { mem with offset := 0, parser := .init }

/-- A response head is written to `response_buf`, and the connection is
finalized. -/
def finalize (u : UserData) (head : List UInt8) (content : Bool) : UserData :=
  { u with responseBuf := u.responseBuf.write 0 head, responseSize := head.length,
           content := content, finalized := true }

/-- `return_400` (lines 57–62). -/
def return400 (u : UserData) : UserData := u.finalize serve400 false

/-- `return_404` (lines 64–69). -/
def return404 (u : UserData) : UserData := u.finalize serve404 false

/-- The memory from the start of `buf`: `response_buf` follows, and `finalized`
after it. -/
def memory (u : UserData) : List UInt8 :=
  u.buf.bytes ++ u.responseBuf.bytes ++ [if u.finalized then 1 else 0]

def response (u : UserData) : Response :=
  { head := u.responseBuf.bytes.take u.responseSize
    body := if u.content then some (u.offset, u.fileSize) else none }

theorem response_finalize {u : UserData} {head : List UInt8} (h : head.length ≤ maxBufferSize)
    (content : Bool) : (u.finalize head content).response =
      { head, body := if content then some (u.offset, u.fileSize) else none } := by
  rw [response, finalize]
  exact congrArg₂ Response.mk (Buffer.take_write_zero h) rfl

end UserData

end Yotta.Server
