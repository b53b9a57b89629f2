import Yotta.Core.System

/-!
# The event loop

Model of `core/yta_event_loop.c` for one connection (lines 293–383 and 489–514)
over an application of callbacks. A callback is a name from `κ`, and a pointer
into the application's memory is its distance from the start of that memory.

The results of the system calls are inputs: `Allowed` is what the kernel may
answer to `write` and `sendfile`.
-/

namespace Yotta.Core

open Yotta.Numeral

/-- `yta_callback_status` -/
inductive CallbackStatus
  | ok
  | exit
deriving DecidableEq

/-- `enum yta_loop_status` -/
inductive LoopStatus
  | continue
  | again
  | error
deriving DecidableEq

/-- `wtype` and `wdata`. Nobody writes to the memory at `write_buf` while the
write is pending, and it is kept as it was when the write was armed. -/
inductive WriteData
  | basic (writeBuf : List UInt8)
  | sendfile (fileFd : ℕ)
deriving DecidableEq

/-- `struct yta_ctx` (`yta_event_loop.h`, lines 34–59), and the part of the
operating system that belongs to it. -/
structure Ctx (κ υ : Type) where
  userData : υ
  readCallback : Option κ
  readBuf : ℕ
  toRead : ℕ
  writeCallback : Option κ
  wdata : WriteData
  alreadyWritten : ℕ
  toWrite : ℕ
  sys : Sys

/-- The code behind the callbacks of a context. A callback may raise `ε`. -/
structure App (κ υ ε : Type) where
  /-- Calls a `yta_io_callback` with its `buf` and its count. -/
  io : κ → Ctx κ υ → ℕ → ℕ → Except ε (Ctx κ υ × CallbackStatus)
  /-- `close_callback` -/
  close : Ctx κ υ → Ctx κ υ
  /-- Puts the bytes of a `read` at `read_buf`. -/
  store : υ → ℕ → List UInt8 → υ

variable {κ υ ε : Type}

namespace Ctx

/-- `yta_async_read` (lines 489–495). -/
def asyncRead (ctx : Ctx κ υ) (callback : κ) (buf toRead : ℕ) : Ctx κ υ :=
  { ctx with readCallback := some callback, readBuf := buf, toRead := toRead }

/-- `yta_async_write` (lines 497–504). -/
def asyncWrite (ctx : Ctx κ υ) (callback : κ) (buf : List UInt8) (toWrite : ℕ) : Ctx κ υ :=
  { ctx with wdata := .basic buf, writeCallback := some callback, toWrite := toWrite,
             alreadyWritten := 0 }

/-- `yta_async_sendfile` (lines 506–514). -/
def asyncSendfile (ctx : Ctx κ υ) (callback : κ) (fd toWrite offset : ℕ) : Ctx κ υ :=
  { ctx with wdata := .sendfile fd, writeCallback := some callback,
             toWrite := toSize (toWrite + offset), alreadyWritten := offset }

/-- The count that the write handlers ask for. -/
def requested (ctx : Ctx κ υ) : ℕ := toSize (ctx.toWrite - ctx.alreadyWritten)

/-- The context once all of the write is out, as the callback finds it. -/
def completed (ctx : Ctx κ υ) : Ctx κ υ :=
  { ctx with writeCallback := none, alreadyWritten := ctx.toWrite }

/-- How many bytes the pending system call can transfer, `none` where the
descriptor is not open. -/
def available (ctx : Ctx κ υ) : Option ℕ :=
  match ctx.wdata with
  | .basic _ => some ctx.requested
  | .sendfile fd =>
    (ctx.sys.file fd).map fun f => min ctx.requested (f.data.length - ctx.alreadyWritten)

/-- The bytes a system call transfers when it returns `count`. -/
def transferred (ctx : Ctx κ υ) (count : ℕ) : List UInt8 :=
  match ctx.wdata with
  | .basic buf => (buf.drop ctx.alreadyWritten).take count
  | .sendfile fd =>
    match ctx.sys.file fd with
    | some f => (f.data.drop ctx.alreadyWritten).take count
    | none => []

theorem requested_eq {ctx : Ctx κ υ} (h : ctx.alreadyWritten ≤ ctx.toWrite)
    (hlt : ctx.toWrite < 2 ^ 64) : ctx.requested = ctx.toWrite - ctx.alreadyWritten := by
  have hsize := toSize_eq (x := (ctx.toWrite : ℤ) - ctx.alreadyWritten) (by omega)
  rw [requested]
  omega

end Ctx

/-! ## System calls -/

/-- What `write` or `sendfile` returns; `again` and `error` are `-1` with `EAGAIN`
and with another `errno`. -/
inductive SysResult
  | count (n : ℕ)
  | again
  | error
deriving DecidableEq

/-- What the kernel may answer to a call that can transfer `available` bytes: a
failure, or at least one and at most that many bytes when there are any, and `0`
when there are none. -/
def Allowed : Option ℕ → SysResult → Bool
  | none, .error => true
  | none, _ => false
  | some 0, .count n => n == 0
  | some 0, _ => true
  | some (k + 1), .count n => 0 < n && n ≤ k + 1
  | some (_ + 1), _ => true

/-! ## Handlers -/

/-- How a handler ends. -/
inductive Handled (κ υ ε : Type)
  /-- It returns. -/
  | status (ctx : Ctx κ υ) (status : LoopStatus)
  /-- `assert(0)` fails. -/
  | abort
  /-- A callback raises. -/
  | raise (e : ε)

/-- A callback has returned: everything but `YTA_OK` ends the loop. -/
def afterCallback : Except ε (Ctx κ υ × CallbackStatus) → Handled κ υ ε
  | .ok (ctx, .ok) => .status ctx .continue
  | .ok (ctx, .exit) => .status ctx .error
  | .error e => .raise e

/-- The body of `read_loop` once `read` has returned the bytes `xs` (lines
307–311). -/
def onRead (app : App κ υ ε) (ctx : Ctx κ υ) (xs : List UInt8) : Handled κ υ ε :=
  match ctx.readCallback with
  | none => .status ctx .continue
  | some callback =>
    let ctx := { ctx with userData := app.store ctx.userData ctx.readBuf xs, readCallback := none }
    afterCallback (app.io callback ctx ctx.readBuf xs.length)

/-- The completion of a write (lines 334–339 and 362–366). No callback reads the
pointer it is given. -/
def onComplete (app : App κ υ ε) (ctx : Ctx κ υ) : Handled κ υ ε :=
  match ctx.writeCallback with
  | none => .status ctx .continue
  | some callback =>
    let ctx := { ctx with writeCallback := none }
    afterCallback (app.io callback ctx 0 ctx.alreadyWritten)

/-- `write_handle_basic` (lines 317–343) and `write_handle_sendfile` (lines
345–370) once the system call has returned: from there on both do the same. -/
def writeHandle (app : App κ υ ε) (ctx : Ctx κ υ) : SysResult → Handled κ υ ε
  | .again => .status ctx .again
  | .error => .status ctx .error
  | .count 0 => .abort
  | .count (n + 1) =>
    let ctx := { ctx with alreadyWritten := ctx.alreadyWritten + (n + 1) }
    if ctx.alreadyWritten = ctx.toWrite then onComplete app ctx else .status ctx .continue

/-- What the write handlers do with the result of a system call, rule by rule. -/
inductive WriteHandled (app : App κ υ ε) (ctx : Ctx κ υ) (callback : κ) :
    SysResult → Handled κ υ ε → Prop
  | again : WriteHandled app ctx callback .again (.status ctx .again)
  | error : WriteHandled app ctx callback .error (.status ctx .error)
  | zero : WriteHandled app ctx callback (.count 0) .abort
  | part {n : ℕ} : ctx.alreadyWritten + (n + 1) ≠ ctx.toWrite →
    WriteHandled app ctx callback (.count (n + 1))
      (.status { ctx with alreadyWritten := ctx.alreadyWritten + (n + 1) } .continue)
  | complete {n : ℕ} : ctx.alreadyWritten + (n + 1) = ctx.toWrite →
    WriteHandled app ctx callback (.count (n + 1))
      (afterCallback (app.io callback ctx.completed 0 ctx.toWrite))

theorem writeHandled (app : App κ υ ε) {ctx : Ctx κ υ} {callback : κ}
    (h : ctx.writeCallback = some callback) (r : SysResult) :
    WriteHandled app ctx callback r (writeHandle app ctx r) := by
  cases r with
  | again => exact .again
  | error => exact .error
  | count n =>
    cases n with
    | zero => exact .zero
    | succ n =>
      rw [writeHandle]
      dsimp only
      split_ifs with hdone
      · rw [onComplete, h]
        dsimp only
        rw [hdone]
        exact .complete hdone
      · exact .part hdone

theorem afterCallback_ok {x : Ctx κ υ × CallbackStatus} (h : x.2 = .ok) :
    afterCallback (.ok x : Except ε _) = .status x.1 .continue := by
  obtain ⟨ctx, status⟩ := x
  obtain rfl := h
  rfl

theorem afterCallback_ne_abort (x : Except ε (Ctx κ υ × CallbackStatus)) :
    afterCallback x ≠ .abort := by
  rcases x with e | ⟨ctx, _ | _⟩ <;> exact nofun

theorem onRead_ne_abort (app : App κ υ ε) (ctx : Ctx κ υ) (xs : List UInt8) :
    onRead app ctx xs ≠ .abort := by
  rw [onRead]
  split
  · exact nofun
  · exact afterCallback_ne_abort _

/-- A callback does not make a handler wait for the socket. -/
theorem afterCallback_ne_again (x : Except ε (Ctx κ υ × CallbackStatus)) (ctx : Ctx κ υ) :
    afterCallback x ≠ .status ctx .again := by
  rcases x with e | ⟨ctx, _ | _⟩ <;> exact nofun

theorem onRead_ne_again (app : App κ υ ε) (ctx : Ctx κ υ) (xs : List UInt8) (ctx' : Ctx κ υ) :
    onRead app ctx xs ≠ .status ctx' .again := by
  rw [onRead]
  split
  · exact nofun
  · exact afterCallback_ne_again _ _

/-- Only a system call that returns `0` fails the assertion. -/
theorem writeHandle_eq_abort {app : App κ υ ε} {ctx : Ctx κ υ} {r : SysResult}
    (h : writeHandle app ctx r = .abort) : r = .count 0 := by
  cases r with
  | again => cases h
  | error => cases h
  | count n =>
    cases n with
    | zero => rfl
    | succ n =>
      rw [writeHandle] at h
      dsimp only at h
      split_ifs at h
      rw [onComplete] at h
      split at h
      · cases h
      · exact absurd h (afterCallback_ne_abort _)

/-- No more is transferred than there is. -/
theorem le_of_allowed {available n : ℕ} (h : Allowed (some available) (.count n)) :
    n ≤ available := by
  cases available with
  | zero => simpa [Allowed] using h
  | succ k => exact (by simpa [Allowed] using h : 0 < n ∧ n ≤ k + 1).2

/-- A system call returns `0` only where nothing can be transferred. -/
theorem available_of_allowed_zero {available : Option ℕ} (h : Allowed available (.count 0)) :
    available = some 0 := by
  rcases available with _ | _ | k
  · cases h
  · rfl
  · cases h

end Yotta.Core
