import Yotta.Core.EventLoop
import Yotta.Lib.Run
import Mathlib.Logic.Function.Basic

/-!
# The reactor

Model of `serve` (lines 454–487) and of what it calls: `serve_sockets`,
`serve_timers`, `accept_loop` and `cleanup_context`, one system call at a time. The
system calls may return whatever the kernel may answer, so a client, a timer and a
signal are the answers that they cause.

A context is named by the number of its allocation, which stays its own when its
memory is used again. `0` is `listen_fd_ctx`. Of the kernel it is assumed that `close`
takes a descriptor out of its epoll set, that `epoll_wait` names a descriptor of its
set at most once, and that a new descriptor is the lowest that is not open.

The members `added` to `listenFrees` are not in the source: they record what has
happened.
-/

namespace Yotta.Core

variable {κ υ ε μ : Type}

/-- `struct yta_ctx`: the members that `EventLoop` leaves out, and those it has. -/
structure Entry (κ υ : Type) where
  fd : ℕ
  /-- `timer_fd`, `0` where there is no timer -/
  timerFd : ℕ
  /-- `close_callback` is set. -/
  closeCallback : Bool
  io : Ctx κ υ

/-- What `accept_callback` does to a cleared context. -/
structure Admission (κ υ : Type) where
  io : Ctx κ υ
  /-- It calls `yta_set_close_callback`. -/
  setsClose : Bool
  /-- It calls `yta_async_timer`. -/
  armsTimer : Bool
  status : CallbackStatus

/-- The context that `accept_loop` has allocated for `infd`; `timerFd` is what
`timerfd_create` returns. -/
def Admission.entry (a : Admission κ υ) (infd timerFd : ℕ) : Entry κ υ where
  fd := infd
  timerFd := if a.armsTimer then timerFd else 0
  closeCallback := a.setsClose
  io := a.io

/-- The application of a reactor. `accept_callback` depends on what is in the memory
that it is given. -/
structure Service (κ υ ε μ : Type) extends App κ υ ε where
  accept : μ → Admission κ υ
  timer : Ctx κ υ → Except ε (Ctx κ υ × CallbackStatus)

/-- The members of `events` in `struct epoll_event` that decide something. -/
structure Flags where
  /-- `EPOLLIN` -/
  inp : Bool
  /-- `EPOLLOUT` -/
  out : Bool
  /-- `EPOLLERR` -/
  err : Bool
  /-- `EPOLLRDHUP` -/
  rdhup : Bool
deriving DecidableEq

/-- The test of `serve_timers` and `serve_sockets` (lines 392–393 and 422–423). -/
def Flags.failed (f : Flags) : Bool := (f.err || f.rdhup) && !(f.inp || f.out)

/-- The members of the master epoll set. -/
inductive MasterEvent
  /-- `socket_epoll_fd` -/
  | sockets
  /-- `timer_epoll_fd` -/
  | timers
  /-- `signal_fd` -/
  | signal
deriving DecidableEq

/-- Contexts and what was reported of them. -/
abbrev Batch := List (ℕ × Flags)

/-- Where the worker is. -/
inductive Stage
  /-- before the condition of the loop in `serve` -/
  | test
  /-- in `epoll_wait` on the master set -/
  | wait
  /-- before the branches on `master_event` -/
  | branch
  /-- in `epoll_wait` on the socket set -/
  | socketWait
  /-- in `epoll_wait` on the timer set -/
  | timerWait
  /-- in the loop of `serve_sockets` -/
  | sockets (batch : Batch)
  /-- in `accept_loop` -/
  | accepting (batch : Batch)
  /-- in `read_loop`; `EPOLLOUT` was reported as given -/
  | reading (id : ℕ) (out : Bool) (batch : Batch)
  /-- in `write_loop` -/
  | writing (id : ℕ) (batch : Batch)
  /-- in the loop of `serve_timers` -/
  | timers (batch : Batch)
  /-- The loop of `serve` has ended. -/
  | left
  /-- `exit(1)` -/
  | exited
  /-- `assert(0)` has failed. -/
  | aborted
  /-- An exception has been raised. -/
  | raised
  /-- Memory has been used or freed after it was freed. -/
  | undefined
deriving DecidableEq

/-- `struct loop_core`, the contexts it has allocated, and its epoll sets. -/
structure Reactor (κ υ : Type) where
  listenFd : ℕ
  heap : ℕ → Option (Entry κ υ)
  nextId : ℕ
  /-- The descriptors of the listening socket, the connections and their timers. -/
  openFds : List ℕ
  /-- `socket_epoll_fd`: descriptors, and the contexts behind `data.ptr` -/
  socketSet : List (ℕ × ℕ)
  /-- `timer_epoll_fd` -/
  timerSet : List (ℕ × ℕ)
  currentClients : ℤ
  terminated : Bool
  /-- `none` before the first write -/
  masterEvent : Option MasterEvent
  stage : Stage
  /-- The contexts that have been added to the socket set by `accept_loop`. -/
  added : List ℕ
  /-- The contexts that have been passed to `cleanup_context`. -/
  cleaned : List ℕ
  /-- The contexts that have been passed to their close callback. -/
  closeCalls : List ℕ
  /-- What `epoll_wait` on the master set has delivered. -/
  delivered : List MasterEvent
  /-- The branches that have been taken. -/
  handled : List MasterEvent
  /-- How many times `epoll_wait` on the master set has failed. -/
  interrupts : ℕ
  /-- `master_event` has been read before it was written. -/
  uninitRead : Bool
  /-- How many times the termination branch has freed `listen_fd_ctx`. -/
  listenFrees : ℕ

/-- What a `read` that does not transfer anything returns. -/
inductive ReadFailure
  /-- `-1` with `EAGAIN` -/
  | again
  /-- `-1` with another `errno` -/
  | error
  /-- `0` -/
  | eof
deriving DecidableEq

namespace Reactor

inductive Label (μ : Type)
  /-- The worker goes on without a system call. -/
  | next
  /-- `epoll_wait` on the master set delivers an event. -/
  | deliver (e : MasterEvent)
  /-- `epoll_wait` on the master set fails with `EINTR`. -/
  | interrupt
  /-- The branches on `master_event`; `garbage` is what it holds before the first write. -/
  | branch (garbage : Option MasterEvent)
  /-- `epoll_wait` on the socket set or the timer set returns members of the set. -/
  | epoll (events : List ((ℕ × ℕ) × Flags))
  /-- `epoll_wait` on the socket set or the timer set fails. -/
  | epollError
  /-- `accept` returns `infd`; `timerFd` is what `timerfd_create` would return next. -/
  | accept (mem : μ) (infd timerFd : ℕ)
  /-- `accept` fails. -/
  | acceptError
  /-- `accept` returns, and a call that `accept_loop` does not outlive fails. -/
  | acceptExit
  /-- `read` returns bytes; `fd` is what `open` would return next. -/
  | read (xs : List UInt8) (fd : ℕ)
  | readFailure (r : ReadFailure)
  /-- `write` or `sendfile` returns. -/
  | write (r : SysResult)

/-! ## Contexts -/

/-- `close(fd)` -/
def closeFd (s : Reactor κ υ) (fd : ℕ) : Reactor κ υ :=
  { s with openFds := s.openFds.filter (· ≠ fd)
           socketSet := s.socketSet.filter (·.1 ≠ fd)
           timerSet := s.timerSet.filter (·.1 ≠ fd) }

/-- `free(ctx)` -/
def free (s : Reactor κ υ) (id : ℕ) : Reactor κ υ :=
  { s with heap := Function.update s.heap id none }

/-- The context `id` after a callback. -/
def setIo (s : Reactor κ υ) (id : ℕ) (e : Entry κ υ) (io : Ctx κ υ) : Reactor κ υ :=
  { s with heap := Function.update s.heap id (some { e with io }) }

/-- `close_callback` -/
def callClose (s : Reactor κ υ) (id : ℕ) (e : Entry κ υ) : Reactor κ υ :=
  if e.closeCallback then { s with closeCalls := s.closeCalls ++ [id] } else s

/-- `cleanup_context` (lines 115–128), and then `stage`. -/
def cleanupContext (s : Reactor κ υ) (id : ℕ) (e : Entry κ υ) (stage : Stage) : Reactor κ υ :=
  let s := s.closeFd e.fd
  let s := if e.timerFd ≠ 0 then s.closeFd e.timerFd else s
  let s := (s.callClose id e).free id
  { s with currentClients := s.currentClients - 1, cleaned := s.cleaned ++ [id], stage }

/-- `accept_loop` once `accept` has returned `infd` (lines 245–289). -/
def acceptContext (svc : Service κ υ ε μ) (s : Reactor κ υ) (mem : μ) (infd timerFd : ℕ) :
    Reactor κ υ :=
  let id := s.nextId
  let a := svc.accept mem
  let s := { s with nextId := id + 1, openFds := infd :: s.openFds
                    heap := Function.update s.heap id (some (a.entry infd timerFd)) }
  let s :=
    if a.armsTimer then
      { s with openFds := timerFd :: s.openFds, timerSet := (timerFd, id) :: s.timerSet }
    else s
  match a.status with
  | .exit => (s.free id).closeFd infd
  | .ok =>
    { s with socketSet := (infd, id) :: s.socketSet, currentClients := s.currentClients + 1
             added := s.added ++ [id] }

/-! ## Events -/

/-- The worker goes on after a handler of the context `id`: at `stage` if the handler
wants to go on as well, else at `rest`. -/
def settle (s : Reactor κ υ) (id : ℕ) (e : Entry κ υ) (stage rest : Stage) :
    Handled κ υ ε → Reactor κ υ
  | .status io .continue => { s.setIo id e io with stage }
  | .status io .again => { s.setIo id e io with stage := rest }
  | .status io .error => (s.setIo id e io).cleanupContext id { e with io } rest
  | .abort => { s with stage := .aborted }
  | .raise _ => { s with stage := .raised }

/-- `read_loop` is done (lines 442–444). -/
def leaveReadLoop (s : Reactor κ υ) (id : ℕ) (out : Bool) (batch : Batch) : Reactor κ υ :=
  { s with stage := if out then .writing id batch else .sockets batch }

/-- The body of the loop in `serve_sockets` (lines 419–451), up to the first system call
or the next round. -/
def serveSocket (s : Reactor κ υ) (id : ℕ) (f : Flags) (batch : Batch) : Reactor κ υ :=
  match s.heap id with
  | none => { s with stage := .undefined }
  | some e =>
    if f.failed then s.cleanupContext id e (.sockets batch)
    else if !s.terminated && s.listenFd == e.fd then { s with stage := .accepting batch }
    else if f.inp then { s with stage := .reading id f.out batch }
    else s.leaveReadLoop id f.out batch

/-- The body of the loop in `serve_timers` (lines 389–412). -/
def serveTimer (svc : Service κ υ ε μ) (s : Reactor κ υ) (id : ℕ) (f : Flags) (batch : Batch) :
    Reactor κ υ :=
  match s.heap id with
  | none => { s with stage := .undefined }
  | some e =>
    if f.failed then s.cleanupContext id e (.timers batch)
    else if f.inp then
      s.settle id e (.timers batch) (.timers batch) (afterCallback (svc.timer e.io))
    else { s with stage := .aborted }

/-- The termination branch (lines 473–478). -/
def terminate (s : Reactor κ υ) : Reactor κ υ :=
  { s.free 0 with
    socketSet := s.socketSet.filter (·.1 ≠ s.listenFd)
    terminated := true
    listenFrees := s.listenFrees + 1
    stage := if (s.heap 0).isSome then .test else .undefined }

/-- The branches on `master_event` (lines 469–478). -/
def branchOn (s : Reactor κ υ) : Option MasterEvent → Reactor κ υ
  | none => { s with stage := .test }
  | some .sockets => { s with handled := s.handled ++ [.sockets], stage := .socketWait }
  | some .timers => { s with handled := s.handled ++ [.timers], stage := .timerWait }
  | some .signal => terminate { s with handled := s.handled ++ [.signal] }

/-- The worker goes on without a system call. -/
def next (svc : Service κ υ ε μ) (s : Reactor κ υ) : Option (Reactor κ υ) :=
  match s.stage with
  | .test =>
    some { s with stage := if !s.terminated || s.currentClients != 0 then .wait else .left }
  | .sockets [] => some { s with stage := .test }
  | .sockets ((id, f) :: batch) => some (s.serveSocket id f batch)
  | .timers [] => some { s with stage := .test }
  | .timers ((id, f) :: batch) => some (s.serveTimer svc id f batch)
  | .reading id out batch =>
    match s.heap id with
    | none => some { s with stage := .undefined }
    | some e => if e.io.readCallback.isNone then some (s.leaveReadLoop id out batch) else none
  | .writing id batch =>
    match s.heap id with
    | none => some { s with stage := .undefined }
    | some e => if e.io.writeCallback.isNone then some { s with stage := .sockets batch } else none
  | _ => none

/-- `epoll_wait` may return these members of a set: no descriptor twice, and no more than
`MAX_EVENT_COUNT`. -/
def Harvest (set : List (ℕ × ℕ)) (events : List ((ℕ × ℕ) × Flags)) : Prop :=
  events.length ≤ 1024 ∧ (events.map fun ev => ev.1.1).Nodup ∧ ∀ ev ∈ events, ev.1 ∈ set

instance (set : List (ℕ × ℕ)) (events : List ((ℕ × ℕ) × Flags)) :
    Decidable (Harvest set events) :=
  inferInstanceAs (Decidable (_ ∧ _ ∧ _))

/-- The contexts behind `data.ptr`. -/
def batchOf (events : List ((ℕ × ℕ) × Flags)) : Batch := events.map fun ev => (ev.1.2, ev.2)

/-- One step of the worker. -/
def step (svc : Service κ υ ε μ) (s : Reactor κ υ) : Label μ → Option (Reactor κ υ)
  | .next => s.next svc
  | .deliver e =>
    if s.stage = .wait then
      some { s with masterEvent := some e, delivered := s.delivered ++ [e], stage := .branch }
    else none
  | .interrupt =>
    if s.stage = .wait then some { s with interrupts := s.interrupts + 1, stage := .branch }
    else none
  | .branch garbage =>
    if s.stage = .branch then
      match s.masterEvent with
      | none => some { s.branchOn garbage with uninitRead := true }
      | some e => some (s.branchOn (some e))
    else none
  | .epoll events =>
    match s.stage with
    | .socketWait =>
      if Harvest s.socketSet events then some { s with stage := .sockets (batchOf events) }
      else none
    | .timerWait =>
      if Harvest s.timerSet events then some { s with stage := .timers (batchOf events) }
      else none
    | _ => none
  | .epollError =>
    if s.stage = .socketWait ∨ s.stage = .timerWait then some { s with stage := .test } else none
  | .accept mem infd timerFd =>
    match s.stage with
    | .accepting _ =>
      -- both are new, and the second is what is then the lowest
      if infd ∉ s.openFds ∧ timerFd ∉ s.openFds ∧ infd < timerFd then
        some (s.acceptContext svc mem infd timerFd)
      else none
    | _ => none
  | .acceptError =>
    match s.stage with
    | .accepting batch => some { s with stage := .sockets batch }
    | _ => none
  | .acceptExit =>
    match s.stage with
    | .accepting _ => some { s with stage := .exited }
    | _ => none
  | .read xs fd =>
    match s.stage with
    | .reading id out batch =>
      match s.heap id with
      | none => none
      | some e =>
        if e.io.readCallback.isSome ∧ xs ≠ [] ∧ xs.length ≤ e.io.toRead ∧ fd ≠ 0 ∧
            e.io.sys.file fd = none then
          some (s.settle id e (.reading id out batch) (.sockets batch)
            (onRead svc.toApp { e.io with sys := { e.io.sys with nextFd := fd } } xs))
        else none
    | _ => none
  | .readFailure r =>
    match s.stage with
    | .reading id out batch =>
      match s.heap id with
      | none => none
      | some e =>
        if e.io.readCallback.isSome then
          match r with
          | .again => some (s.leaveReadLoop id out batch)
          | .error => some (s.cleanupContext id e (.sockets batch))
          | .eof => some (s.cleanupContext id e (.sockets batch))
        else none
    | _ => none
  | .write r =>
    match s.stage with
    | .writing id batch =>
      match s.heap id with
      | none => none
      | some e =>
        if e.io.writeCallback.isSome ∧ Allowed e.io.available r then
          some (s.settle id e (.writing id batch) (.sockets batch)
            (writeHandle svc.toApp e.io r))
        else none
    | _ => none

/-- `create_reactor` (lines 130–227). `ctx` is a context that has been cleared. -/
def create (listenFd : ℕ) (ctx : Ctx κ υ) : Reactor κ υ where
  listenFd := listenFd
  heap := Function.update (fun _ => none) 0
    (some { fd := listenFd, timerFd := 0, closeCallback := false, io := ctx })
  nextId := 1
  openFds := [listenFd]
  socketSet := [(listenFd, 0)]
  timerSet := []
  currentClients := 0
  terminated := false
  masterEvent := none
  stage := .test
  added := []
  cleaned := []
  closeCalls := []
  delivered := []
  handled := []
  interrupts := 0
  uninitRead := false
  listenFrees := 0

/-! ## Steps -/

/-- What a step does, rule by rule. -/
inductive Steps (svc : Service κ υ ε μ) (s : Reactor κ υ) : Label μ → Reactor κ υ → Prop
  | loop : s.stage = .test →
    Steps svc s .next
      { s with stage := if !s.terminated || s.currentClients != 0 then .wait else .left }
  | socketsDone : s.stage = .sockets [] → Steps svc s .next { s with stage := .test }
  | timersDone : s.stage = .timers [] → Steps svc s .next { s with stage := .test }
  | socket {id : ℕ} {f : Flags} {batch : Batch} : s.stage = .sockets ((id, f) :: batch) →
    Steps svc s .next (s.serveSocket id f batch)
  | timer {id : ℕ} {f : Flags} {batch : Batch} : s.stage = .timers ((id, f) :: batch) →
    Steps svc s .next (s.serveTimer svc id f batch)
  | readLost {id : ℕ} {out : Bool} {batch : Batch} : s.stage = .reading id out batch →
    s.heap id = none → Steps svc s .next { s with stage := .undefined }
  | writeLost {id : ℕ} {batch : Batch} : s.stage = .writing id batch →
    s.heap id = none → Steps svc s .next { s with stage := .undefined }
  | readDone {id : ℕ} {out : Bool} {batch : Batch} (l : Label μ) :
    s.stage = .reading id out batch → l = .next ∨ l = .readFailure .again →
    Steps svc s l (s.leaveReadLoop id out batch)
  | writeDone {id : ℕ} {batch : Batch} : s.stage = .writing id batch →
    Steps svc s .next { s with stage := .sockets batch }
  | deliver {e : MasterEvent} : s.stage = .wait →
    Steps svc s (.deliver e)
      { s with masterEvent := some e, delivered := s.delivered ++ [e], stage := .branch }
  | interrupt : s.stage = .wait →
    Steps svc s .interrupt { s with interrupts := s.interrupts + 1, stage := .branch }
  | branch {e : MasterEvent} {garbage : Option MasterEvent} : s.stage = .branch →
    s.masterEvent = some e → Steps svc s (.branch garbage) (s.branchOn (some e))
  | branchUninit {garbage : Option MasterEvent} : s.stage = .branch → s.masterEvent = none →
    Steps svc s (.branch garbage) { s.branchOn garbage with uninitRead := true }
  | socketEvents {events : List ((ℕ × ℕ) × Flags)} : s.stage = .socketWait →
    Harvest s.socketSet events →
    Steps svc s (.epoll events) { s with stage := .sockets (batchOf events) }
  | timerEvents {events : List ((ℕ × ℕ) × Flags)} : s.stage = .timerWait →
    Harvest s.timerSet events →
    Steps svc s (.epoll events) { s with stage := .timers (batchOf events) }
  | epollError : s.stage = .socketWait ∨ s.stage = .timerWait →
    Steps svc s .epollError { s with stage := .test }
  | accept {batch : Batch} {mem : μ} {infd timerFd : ℕ} : s.stage = .accepting batch →
    infd ∉ s.openFds → timerFd ∉ s.openFds → infd < timerFd →
    Steps svc s (.accept mem infd timerFd) (s.acceptContext svc mem infd timerFd)
  | acceptError {batch : Batch} : s.stage = .accepting batch →
    Steps svc s .acceptError { s with stage := .sockets batch }
  | acceptExit {batch : Batch} : s.stage = .accepting batch →
    Steps svc s .acceptExit { s with stage := .exited }
  | read {id : ℕ} {out : Bool} {batch : Batch} {e : Entry κ υ} {xs : List UInt8} {fd : ℕ} :
    s.stage = .reading id out batch → s.heap id = some e →
    Steps svc s (.read xs fd)
      (s.settle id e (.reading id out batch) (.sockets batch)
        (onRead svc.toApp { e.io with sys := { e.io.sys with nextFd := fd } } xs))
  | readClose {id : ℕ} {out : Bool} {batch : Batch} {e : Entry κ υ} {r : ReadFailure} :
    s.stage = .reading id out batch → s.heap id = some e →
    Steps svc s (.readFailure r) (s.cleanupContext id e (.sockets batch))
  | write {id : ℕ} {batch : Batch} {e : Entry κ υ} {r : SysResult} :
    s.stage = .writing id batch → s.heap id = some e →
    Steps svc s (.write r)
      (s.settle id e (.writing id batch) (.sockets batch) (writeHandle svc.toApp e.io r))

variable {svc : Service κ υ ε μ} {s t : Reactor κ υ}

theorem steps_of_next (h : s.next svc = some t) : s.Steps svc .next t := by
  unfold next at h
  split at h
  case h_1 hstage =>
    cases h
    exact .loop hstage
  case h_2 hstage =>
    cases h
    exact .socketsDone hstage
  case h_3 hstage =>
    cases h
    exact .socket hstage
  case h_4 hstage =>
    cases h
    exact .timersDone hstage
  case h_5 hstage =>
    cases h
    exact .timer hstage
  case h_6 hstage =>
    split at h
    · cases h
      exact .readLost hstage ‹_›
    · split_ifs at h
      cases h
      exact .readDone .next hstage (Or.inl rfl)
  case h_7 hstage =>
    split at h
    · cases h
      exact .writeLost hstage ‹_›
    · split_ifs at h
      cases h
      exact .writeDone hstage
  case h_8 => cases h

/-- **Inversion.** Every step is one of the rules. -/
theorem steps_of_step {l : Label μ} (h : step svc s l = some t) : s.Steps svc l t := by
  cases l with
  | next => exact steps_of_next h
  | deliver e =>
    unfold step at h
    dsimp only at h
    split_ifs at h with hstage
    cases h
    exact .deliver hstage
  | interrupt =>
    unfold step at h
    dsimp only at h
    split_ifs at h with hstage
    cases h
    exact .interrupt hstage
  | branch garbage =>
    unfold step at h
    dsimp only at h
    split_ifs at h with hstage
    cases hmaster : s.masterEvent with
    | none =>
      rw [hmaster] at h
      cases h
      exact .branchUninit hstage hmaster
    | some e =>
      rw [hmaster] at h
      cases h
      exact .branch hstage hmaster
  | epoll events =>
    unfold step at h
    dsimp only at h
    split at h
    case h_1 hstage =>
      split_ifs at h with hevents
      cases h
      exact .socketEvents hstage hevents
    case h_2 hstage =>
      split_ifs at h with hevents
      cases h
      exact .timerEvents hstage hevents
    case h_3 => cases h
  | epollError =>
    unfold step at h
    dsimp only at h
    split_ifs at h with hstage
    cases h
    exact .epollError hstage
  | accept mem infd timerFd =>
    unfold step at h
    dsimp only at h
    split at h
    case h_1 hstage =>
      split_ifs at h with hfds
      cases h
      exact .accept hstage hfds.1 hfds.2.1 hfds.2.2
    case h_2 => cases h
  | acceptError =>
    unfold step at h
    dsimp only at h
    split at h
    case h_1 hstage =>
      cases h
      exact .acceptError hstage
    case h_2 => cases h
  | acceptExit =>
    unfold step at h
    dsimp only at h
    split at h
    case h_1 hstage =>
      cases h
      exact .acceptExit hstage
    case h_2 => cases h
  | read xs fd =>
    unfold step at h
    dsimp only at h
    split at h
    case h_1 hstage =>
      split at h
      · cases h
      · split_ifs at h
        cases h
        exact .read hstage ‹_›
    case h_2 => cases h
  | readFailure r =>
    unfold step at h
    dsimp only at h
    split at h
    case h_1 hstage =>
      split at h
      · cases h
      · split_ifs at h
        cases r with
        | again =>
          cases h
          exact .readDone _ hstage (Or.inr rfl)
        | error =>
          cases h
          exact .readClose hstage ‹_›
        | eof =>
          cases h
          exact .readClose hstage ‹_›
    case h_2 => cases h
  | write r =>
    unfold step at h
    dsimp only at h
    split at h
    case h_1 hstage =>
      split at h
      · cases h
      · split_ifs at h
        cases h
        exact .write hstage ‹_›
    case h_2 => cases h

/-! ## What a handler leaves alone -/

/-- The worker has not been in the master loop. -/
structure Frame (s t : Reactor κ υ) : Prop where
  stage_ne : t.stage ≠ .branch
  terminated : t.terminated = s.terminated
  masterEvent : t.masterEvent = s.masterEvent
  delivered : t.delivered = s.delivered
  handled : t.handled = s.handled
  interrupts : t.interrupts = s.interrupts
  uninitRead : t.uninitRead = s.uninitRead
  listenFrees : t.listenFrees = s.listenFrees

theorem frame_withStage (s : Reactor κ υ) {stage : Stage} (hstage : stage ≠ .branch) :
    s.Frame { s with stage } := ⟨hstage, rfl, rfl, rfl, rfl, rfl, rfl, rfl⟩

theorem frame_cleanupContext (s : Reactor κ υ) (id : ℕ) (e : Entry κ υ) {stage : Stage}
    (hstage : stage ≠ .branch) : s.Frame (s.cleanupContext id e stage) := by
  unfold cleanupContext callClose
  split_ifs <;> exact ⟨hstage, rfl, rfl, rfl, rfl, rfl, rfl, rfl⟩

theorem frame_leaveReadLoop (s : Reactor κ υ) (id : ℕ) (out : Bool) (batch : Batch) :
    s.Frame (s.leaveReadLoop id out batch) := by
  apply frame_withStage
  split_ifs <;> exact Stage.noConfusion

theorem frame_settle (s : Reactor κ υ) (id : ℕ) (e : Entry κ υ) {stage rest : Stage}
    (hstage : stage ≠ .branch) (hrest : rest ≠ .branch) (handled : Handled κ υ ε) :
    s.Frame (s.settle id e stage rest handled) := by
  rcases handled with ⟨io, _ | _ | _⟩ | _ | _
  · exact ⟨hstage, rfl, rfl, rfl, rfl, rfl, rfl, rfl⟩
  · exact ⟨hrest, rfl, rfl, rfl, rfl, rfl, rfl, rfl⟩
  · obtain ⟨h1, h2, h3, h4, h5, h6, h7, h8⟩ :=
      frame_cleanupContext (s.setIo id e io) id { e with io } hrest
    exact ⟨h1, h2, h3, h4, h5, h6, h7, h8⟩
  · exact frame_withStage s Stage.noConfusion
  · exact frame_withStage s Stage.noConfusion

theorem frame_serveSocket (s : Reactor κ υ) (id : ℕ) (f : Flags) (batch : Batch) :
    s.Frame (s.serveSocket id f batch) := by
  unfold serveSocket
  split
  · exact frame_withStage s Stage.noConfusion
  · split_ifs
    · exact frame_cleanupContext s id _ Stage.noConfusion
    · exact frame_withStage s Stage.noConfusion
    · exact frame_withStage s Stage.noConfusion
    · exact frame_leaveReadLoop s id f.out batch

theorem frame_serveTimer (svc : Service κ υ ε μ) (s : Reactor κ υ) (id : ℕ) (f : Flags)
    (batch : Batch) : s.Frame (s.serveTimer svc id f batch) := by
  unfold serveTimer
  split
  · exact frame_withStage s Stage.noConfusion
  · split_ifs
    · exact frame_cleanupContext s id _ Stage.noConfusion
    · exact frame_settle s id _ Stage.noConfusion Stage.noConfusion _
    · exact frame_withStage s Stage.noConfusion

theorem frame_admit (svc : Service κ υ ε μ) (s : Reactor κ υ) (hstage : s.stage ≠ .branch)
    (mem : μ) (infd timerFd : ℕ) : s.Frame (s.acceptContext svc mem infd timerFd) := by
  unfold acceptContext
  dsimp only
  split <;> split_ifs <;> exact ⟨hstage, rfl, rfl, rfl, rfl, rfl, rfl, rfl⟩

/-- The labels of the master loop. -/
def Label.isMaster : Label μ → Bool
  | .deliver _ => true
  | .interrupt => true
  | .branch _ => true
  | _ => false

/-- **Frame.** The other steps are neither taken at the branches on `master_event` nor
lead there, and leave the record of the master loop alone. -/
theorem Steps.frame {l : Label μ} (h : s.Steps svc l t) (hl : l.isMaster = false) :
    s.stage ≠ .branch ∧ s.Frame t := by
  have hne : ∀ {stage}, s.stage = stage → stage ≠ .branch → s.stage ≠ .branch := by
    intro stage heq hne hbranch
    exact hne (heq.symm.trans hbranch)
  cases h with
  | loop h =>
    refine ⟨hne h Stage.noConfusion, frame_withStage s ?_⟩
    split_ifs <;> exact Stage.noConfusion
  | socketsDone h => exact ⟨hne h Stage.noConfusion, frame_withStage s Stage.noConfusion⟩
  | timersDone h => exact ⟨hne h Stage.noConfusion, frame_withStage s Stage.noConfusion⟩
  | socket h => exact ⟨hne h Stage.noConfusion, frame_serveSocket ..⟩
  | timer h => exact ⟨hne h Stage.noConfusion, frame_serveTimer ..⟩
  | readLost h => exact ⟨hne h Stage.noConfusion, frame_withStage s Stage.noConfusion⟩
  | writeLost h => exact ⟨hne h Stage.noConfusion, frame_withStage s Stage.noConfusion⟩
  | readDone l h => exact ⟨hne h Stage.noConfusion, frame_leaveReadLoop ..⟩
  | writeDone h => exact ⟨hne h Stage.noConfusion, frame_withStage s Stage.noConfusion⟩
  | deliver => cases hl
  | interrupt => cases hl
  | branch => cases hl
  | branchUninit => cases hl
  | socketEvents h => exact ⟨hne h Stage.noConfusion, frame_withStage s Stage.noConfusion⟩
  | timerEvents h => exact ⟨hne h Stage.noConfusion, frame_withStage s Stage.noConfusion⟩
  | epollError h =>
    refine ⟨?_, frame_withStage s Stage.noConfusion⟩
    rcases h with h | h
    · exact hne h Stage.noConfusion
    · exact hne h Stage.noConfusion
  | accept h =>
    have hstage := hne h Stage.noConfusion
    exact ⟨hstage, frame_admit svc s hstage ..⟩
  | acceptError h => exact ⟨hne h Stage.noConfusion, frame_withStage s Stage.noConfusion⟩
  | acceptExit h => exact ⟨hne h Stage.noConfusion, frame_withStage s Stage.noConfusion⟩
  | read h =>
    exact ⟨hne h Stage.noConfusion, frame_settle s _ _ Stage.noConfusion Stage.noConfusion _⟩
  | readClose h => exact ⟨hne h Stage.noConfusion, frame_cleanupContext s _ _ Stage.noConfusion⟩
  | write h =>
    exact ⟨hne h Stage.noConfusion, frame_settle s _ _ Stage.noConfusion Stage.noConfusion _⟩

end Reactor

end Yotta.Core
