import Yotta.Core.EventLoop
import Yotta.Lib.Run

/-!
# Connections and their worker

A connection is a context with the two ends of its socket: the bytes the client
has sent and nobody has read, whether the client has sent its end of file,
whether an event is pending in the edge-triggered epoll set, and whether the
socket takes more bytes. `step` is everything the client, the kernel and
`serve_sockets` (lines 415–452) can do to it, one system call at a time.

An event becomes pending when bytes or the end of file arrive and when the
socket turns writable again; `epoll_wait` takes it and reports what is ready at
that time. A worker is a family of connections, in which the steps of different
ones interleave (`workerStep`), and it dies as a whole.
-/

namespace Yotta.Core

variable {κ υ ε : Type}

/-- Where the worker is in serving a connection. -/
inductive Phase
  /-- at the top of the loop in `serve` -/
  | idle
  /-- `epoll_wait` has reported `EPOLLIN` and `EPOLLOUT` as given -/
  | ready (inp out : Bool)
  /-- in `read_loop`; `EPOLLOUT` was reported as given -/
  | reading (out : Bool)
  /-- in `write_loop` -/
  | writing
  /-- after `cleanup_context` -/
  | closed
  /-- `assert(0)` has stopped the worker -/
  | aborted
  /-- an exception has stopped the worker -/
  | raised
deriving DecidableEq

structure Conn (κ υ : Type) where
  ctx : Ctx κ υ
  /-- sent by the client and not read -/
  recvQueue : List UInt8
  /-- The client has sent its end of file. -/
  eof : Bool
  /-- An event is pending. -/
  pending : Bool
  /-- The socket takes more bytes. -/
  writable : Bool
  phase : Phase
  /-- everything written to the socket -/
  sent : List UInt8

inductive Label
  /-- The client sends bytes. -/
  | send (xs : List UInt8)
  /-- The client sends its end of file. -/
  | shutdown
  /-- The socket turns writable again. -/
  | drain
  /-- `epoll_wait` takes the event. -/
  | wait
  /-- An error is reported, or the timer expires. -/
  | expire
  /-- The worker goes on without a transfer. -/
  | advance
  /-- `read` returns `n` bytes; `fd` is what `open` would return next. -/
  | read (n fd : ℕ)
  /-- `read` fails. -/
  | readError
  /-- `write` or `sendfile` returns; `full` says that the socket takes no more. -/
  | write (r : SysResult) (full : Bool)
deriving DecidableEq

namespace Conn

/-- Not cleaned up, in a worker that runs. -/
def live (c : Conn κ υ) : Bool :=
  c.phase != .closed && c.phase != .aborted && c.phase != .raised

/-- Something to read: bytes or the end of file. -/
def unread (c : Conn κ υ) : Bool := c.recvQueue != [] || c.eof

/-- `cleanup_context` (lines 115–128). -/
def cleanup (app : App κ υ ε) (c : Conn κ υ) : Conn κ υ :=
  { c with ctx := app.close c.ctx, phase := .closed }

/-- `read_loop` is done (lines 442–444). -/
def leaveReadLoop (c : Conn κ υ) (out : Bool) : Conn κ υ :=
  { c with phase := if out then .writing else .idle }

/-- The worker goes on after a handler; `phase` is where it continues. -/
def handled (app : App κ υ ε) (c : Conn κ υ) (phase : Phase) : Handled κ υ ε → Conn κ υ
  | .status ctx .continue => { c with ctx, phase }
  | .status ctx .again => { c with ctx, phase := .idle }
  | .status ctx .error => { c with ctx }.cleanup app
  | .abort => { c with phase := .aborted }
  | .raise _ => { c with phase := .raised }

/-- The worker goes on without a transfer: it enters a loop of `serve_sockets`, or
leaves one, or finds the end of file. -/
def advance (app : App κ υ ε) (c : Conn κ υ) : Option (Conn κ υ) :=
  match c.phase with
  | .ready inp out => some (if inp then { c with phase := .reading out } else c.leaveReadLoop out)
  | .reading out =>
    if c.ctx.readCallback.isNone then some (c.leaveReadLoop out)
    else if c.recvQueue ≠ [] then none
    else if c.eof then some (c.cleanup app)
    else some (c.leaveReadLoop out)
  | .writing => if c.ctx.writeCallback.isNone then some { c with phase := .idle } else none
  | _ => none

/-- The steps of the client and of the kernel. -/
def outside (c : Conn κ υ) : Label → Option (Conn κ υ)
  | .send xs =>
    if c.eof ∨ xs = [] then none
    else some { c with recvQueue := c.recvQueue ++ xs, pending := true }
  | .shutdown => if c.eof then none else some { c with eof := true, pending := true }
  | .drain => if c.writable then none else some { c with writable := true, pending := true }
  | _ => none

/-- The steps of the worker. -/
def inside (app : App κ υ ε) (c : Conn κ υ) : Label → Option (Conn κ υ)
  | .wait =>
    if c.phase = .idle ∧ c.pending then
      some { c with phase := .ready c.unread c.writable, pending := false }
    else none
  | .expire => if c.phase = .idle then some (c.cleanup app) else none
  | .advance => c.advance app
  | .read n fd =>
    match c.phase with
    | .reading out =>
      if c.ctx.readCallback.isSome ∧ 0 < n ∧ n ≤ c.ctx.toRead ∧ n ≤ c.recvQueue.length ∧
          fd ≠ 0 ∧ c.ctx.sys.file fd = none then
        let ctx := { c.ctx with sys := { c.ctx.sys with nextFd := fd } }
        some ({ c with recvQueue := c.recvQueue.drop n }.handled app (.reading out)
          (onRead app ctx (c.recvQueue.take n)))
      else none
    | _ => none
  | .readError =>
    match c.phase with
    | .reading _ => if c.ctx.readCallback.isSome then some (c.cleanup app) else none
    | _ => none
  | .write r full =>
    if c.phase = .writing ∧ c.ctx.writeCallback.isSome ∧ Allowed c.ctx.available r then
      let sent := match r with
        | .count n => c.sent ++ c.ctx.transferred n
        | _ => c.sent
      let writable := match r with
        | .count _ => !full
        | .again => false
        | .error => c.writable
      some ({ c with sent, writable }.handled app .writing (writeHandle app c.ctx r))
    else none
  | _ => none

/-- One step of a live connection. -/
def step (app : App κ υ ε) (c : Conn κ υ) (l : Label) : Option (Conn κ υ) :=
  if c.live then (c.outside l).or (c.inside app l) else none

/-- What a step does, rule by rule. -/
inductive Steps (app : App κ υ ε) (c : Conn κ υ) : Label → Conn κ υ → Prop
  | send {xs : List UInt8} :
    Steps app c (.send xs) { c with recvQueue := c.recvQueue ++ xs, pending := true }
  | shutdown : Steps app c .shutdown { c with eof := true, pending := true }
  | drain : Steps app c .drain { c with writable := true, pending := true }
  | wait : c.phase = .idle → c.pending →
    Steps app c .wait { c with phase := .ready c.unread c.writable, pending := false }
  | expire : Steps app c .expire (c.cleanup app)
  | enter {out : Bool} : c.phase = .ready true out →
    Steps app c .advance { c with phase := .reading out }
  | skip {out : Bool} : c.phase = .ready false out → Steps app c .advance (c.leaveReadLoop out)
  | hangup {out : Bool} : c.phase = .reading out → Steps app c .advance (c.cleanup app)
  | leave {out : Bool} : c.phase = .reading out → c.ctx.readCallback = none ∨ c.unread = false →
    Steps app c .advance (c.leaveReadLoop out)
  | finish : c.phase = .writing → c.ctx.writeCallback = none →
    Steps app c .advance { c with phase := .idle }
  | read {n fd : ℕ} {out : Bool} : c.phase = .reading out → c.ctx.readCallback.isSome → 0 < n →
    n ≤ c.ctx.toRead → n ≤ c.recvQueue.length → fd ≠ 0 → c.ctx.sys.file fd = none →
    Steps app c (.read n fd)
      ({ c with recvQueue := c.recvQueue.drop n }.handled app (.reading out)
        (onRead app { c.ctx with sys := { c.ctx.sys with nextFd := fd } } (c.recvQueue.take n)))
  | readError : Steps app c .readError (c.cleanup app)
  | write {r : SysResult} {full : Bool} (sent : List UInt8) (writable : Bool) :
    c.phase = .writing → c.ctx.writeCallback.isSome → Allowed c.ctx.available r →
    Steps app c (.write r full)
      ({ c with sent, writable }.handled app .writing (writeHandle app c.ctx r))

theorem steps_of_outside {app : App κ υ ε} {c c' : Conn κ υ} {l : Label}
    (h : c.outside l = some c') : c.Steps app l c' := by
  cases l with
  | send xs =>
    rw [outside] at h
    split_ifs at h
    cases h
    exact .send
  | shutdown =>
    rw [outside] at h
    split_ifs at h
    cases h
    exact .shutdown
  | drain =>
    rw [outside] at h
    split_ifs at h
    cases h
    exact .drain
  | _ => cases h

theorem steps_of_advance {app : App κ υ ε} {c c' : Conn κ υ} (h : c.advance app = some c') :
    c.Steps app .advance c' := by
  rw [advance] at h
  cases hphase : c.phase with
  | ready inp out =>
    rw [hphase] at h
    cases inp with
    | true => cases h; exact .enter hphase
    | false => cases h; exact .skip hphase
  | reading out =>
    rw [hphase] at h
    dsimp only at h
    split_ifs at h with h1 h2 h3
    · cases h
      exact .leave hphase (Or.inl (by simpa using h1))
    · cases h
      exact .hangup hphase
    · cases h
      exact .leave hphase (Or.inr (by simp_all [unread]))
  | writing =>
    rw [hphase] at h
    dsimp only at h
    split_ifs at h with h1
    cases h
    exact .finish hphase (by simpa using h1)
  | _ =>
    rw [hphase] at h
    cases h

theorem steps_of_inside {app : App κ υ ε} {c c' : Conn κ υ} {l : Label}
    (h : c.inside app l = some c') : c.Steps app l c' := by
  cases l with
  | wait =>
    rw [inside] at h
    split_ifs at h with h1
    cases h
    exact .wait h1.1 h1.2
  | expire =>
    rw [inside] at h
    split_ifs at h
    cases h
    exact .expire
  | advance => exact steps_of_advance h
  | read n fd =>
    rw [inside] at h
    cases hphase : c.phase with
    | reading out =>
      rw [hphase] at h
      dsimp only at h
      split_ifs at h with h1
      cases h
      obtain ⟨hcallback, hpos, hroom, hlen, hfd, hfree⟩ := h1
      exact .read hphase hcallback hpos hroom hlen hfd hfree
    | _ => rw [hphase] at h; cases h
  | readError =>
    rw [inside] at h
    cases hphase : c.phase with
    | reading out =>
      rw [hphase] at h
      dsimp only at h
      split_ifs at h
      cases h
      exact .readError
    | _ => rw [hphase] at h; cases h
  | write r full =>
    rw [inside.eq_def] at h
    dsimp only at h
    split_ifs at h with h1
    cases h
    exact .write _ _ h1.1 h1.2.1 h1.2.2
  | _ => cases h

/-- **Every step** is one of the rules, and is taken by a live connection. -/
theorem steps_of_step {app : App κ υ ε} {c c' : Conn κ υ} {l : Label}
    (h : c.step app l = some c') : c.live ∧ c.Steps app l c' := by
  rw [step] at h
  split_ifs at h with hlive
  refine ⟨hlive, ?_⟩
  cases hout : c.outside l with
  | some d =>
    rw [hout] at h
    cases h
    exact steps_of_outside hout
  | none =>
    rw [hout] at h
    exact steps_of_inside h

section

variable {app : App κ υ ε} {c c' : Conn κ υ} {l : Label}

/-- A write that the kernel may answer with `n` is a step. -/
theorem step_write (hphase : c.phase = .writing) (hwrite : c.ctx.writeCallback.isSome) {n : ℕ}
    (hallowed : Allowed c.ctx.available (.count n)) (full : Bool) :
    c.step app (.write (.count n) full) =
      some ({ c with sent := c.sent ++ c.ctx.transferred n, writable := !full }.handled app .writing
        (writeHandle app c.ctx (.count n))) := by
  have houtside : c.outside (.write (.count n) full) = none := rfl
  have hlive : c.live := by simp [live, hphase]
  rw [step, if_pos hlive, houtside, Option.none_or, inside.eq_def]
  dsimp only
  rw [if_pos ⟨hphase, hwrite, hallowed⟩]

/-- `write_loop` is left where no write is armed. -/
theorem step_finish (hphase : c.phase = .writing) (hnone : c.ctx.writeCallback = none) :
    c.step app .advance = some { c with phase := .idle } := by
  have houtside : c.outside .advance = none := rfl
  have hlive : c.live := by simp [live, hphase]
  rw [step, if_pos hlive, houtside, Option.none_or, inside, advance, hphase]
  dsimp only
  rw [hnone]
  rfl

/-- A connection that lives on after a handler has the context the handler returned. -/
theorem ctx_of_live_handled {phase : Phase} {h : Handled κ υ ε}
    (hlive : (c.handled app phase h).live) :
    ∃ ctx status, h = .status ctx status ∧ (c.handled app phase h).ctx = ctx := by
  rcases h with ⟨ctx, _ | _ | _⟩ | _ | _
  · exact ⟨ctx, _, rfl, rfl⟩
  · exact ⟨ctx, _, rfl, rfl⟩
  · cases hlive
  · cases hlive
  · cases hlive

/-- The handler that a step runs returns the context. -/
inductive Returns (app : App κ υ ε) (c : Conn κ υ) : Label → Ctx κ υ → Prop
  | read {n fd : ℕ} {ctx : Ctx κ υ} {status : LoopStatus} : c.ctx.readCallback.isSome → 0 < n →
    n ≤ c.ctx.toRead → n ≤ c.recvQueue.length → fd ≠ 0 → c.ctx.sys.file fd = none →
    onRead app { c.ctx with sys := { c.ctx.sys with nextFd := fd } } (c.recvQueue.take n) =
      .status ctx status → Returns app c (.read n fd) ctx
  | write {r : SysResult} {full : Bool} {ctx : Ctx κ υ} {status : LoopStatus} :
    c.ctx.writeCallback.isSome → Allowed c.ctx.available r →
    writeHandle app c.ctx r = .status ctx status → Returns app c (.write r full) ctx

/-- **Contexts along a step.** A connection that lives on has its context, or the one
that a handler returned. -/
theorem Steps.ctx_of_live (h : c.Steps app l c') (hlive : c'.live) :
    c'.ctx = c.ctx ∨ c.Returns app l c'.ctx := by
  cases h with
  | send | shutdown | drain | wait | enter | finish => exact Or.inl rfl
  | expire | hangup | readError => cases hlive
  | skip | leave => exact Or.inl rfl
  | read hphase hcallback hpos hroom hlen hfd hfree =>
    obtain ⟨ctx, status, hhandled, hctx⟩ := ctx_of_live_handled hlive
    rw [hctx]
    exact Or.inr (.read hcallback hpos hroom hlen hfd hfree hhandled)
  | write sent writable hphase hcallback hallowed =>
    obtain ⟨ctx, status, hhandled, hctx⟩ := ctx_of_live_handled hlive
    rw [hctx]
    exact Or.inr (.write hcallback hallowed hhandled)

theorem ctx_of_closed_handled {phase : Phase} {h : Handled κ υ ε}
    (hclosed : (c.handled app phase h).phase = .closed) (hphase : phase ≠ .closed) :
    ∃ ctx, h = .status ctx .error ∧ (c.handled app phase h).ctx = app.close ctx := by
  rcases h with ⟨ctx, _ | _ | _⟩ | _ | _
  · exact absurd hclosed hphase
  · cases hclosed
  · exact ⟨ctx, rfl, rfl⟩
  · cases hclosed
  · cases hclosed

/-- A connection that is cleaned up has the close callback called on its context, or on
the one that a handler returned. -/
theorem Steps.ctx_of_closed (h : c.Steps app l c') (hlive : c.live)
    (hclosed : c'.phase = .closed) :
    ∃ ctx, (ctx = c.ctx ∨ c.Returns app l ctx) ∧ c'.ctx = app.close ctx := by
  cases h with
  | send | shutdown | drain =>
    rw [live] at hlive
    dsimp only at hclosed
    simp [hclosed] at hlive
  | wait | enter | finish => cases hclosed
  | skip | leave =>
    rw [leaveReadLoop] at hclosed
    dsimp only at hclosed
    split_ifs at hclosed
  | expire | hangup | readError => exact ⟨_, Or.inl rfl, rfl⟩
  | read hphase hcallback hpos hroom hlen hfd hfree =>
    obtain ⟨ctx, hhandled, hctx⟩ := ctx_of_closed_handled hclosed nofun
    exact ⟨ctx, Or.inr (.read hcallback hpos hroom hlen hfd hfree hhandled), hctx⟩
  | write sent writable hphase hcallback hallowed =>
    obtain ⟨ctx, hhandled, hctx⟩ := ctx_of_closed_handled hclosed nofun
    exact ⟨ctx, Or.inr (.write hcallback hallowed hhandled), hctx⟩

/-- Only a write that transfers nothing aborts. -/
theorem Steps.available_of_aborted (h : c.Steps app l c') (hlive : c.live)
    (habort : c'.phase = .aborted) :
    c.ctx.writeCallback.isSome ∧ c.ctx.available = some 0 := by
  cases h with
  | send | shutdown | drain =>
    rw [live] at hlive
    dsimp only at habort
    simp [habort] at hlive
  | wait | expire | enter | hangup | finish | readError => cases habort
  | skip | leave =>
    rw [leaveReadLoop] at habort
    dsimp only at habort
    split_ifs at habort
  | @read n fd out hphase hcallback hpos hroom hlen hfd hfree =>
    have hne := onRead_ne_abort app { c.ctx with sys := { c.ctx.sys with nextFd := fd } }
      (c.recvQueue.take n)
    revert habort hne
    rcases onRead app { c.ctx with sys := { c.ctx.sys with nextFd := fd } }
      (c.recvQueue.take n) with ⟨ctx, _ | _ | _⟩ | _ | _ <;> simp [handled, cleanup]
  | @write r full sent writable hphase hcallback hallowed =>
    have hzero : writeHandle app c.ctx r = .abort := by
      revert habort
      rcases writeHandle app c.ctx r with ⟨ctx, _ | _ | _⟩ | _ | _ <;> simp [handled, cleanup]
    rw [writeHandle_eq_abort hzero] at hallowed
    exact ⟨hcallback, available_of_allowed_zero hallowed⟩

end

end Conn

/-! ## Workers -/

/-- The connections of a worker, by number. -/
structure Worker (ι κ υ : Type) where
  conn : ι → Conn κ υ
  /-- The process has died. -/
  dead : Bool

/-- One step of one connection, in a worker that runs. -/
def workerStep {ι : Type} [DecidableEq ι] (app : App κ υ ε) (w : Worker ι κ υ) (l : ι × Label) :
    Option (Worker ι κ υ) :=
  if w.dead then none
  else ((w.conn l.1).step app l.2).map fun c =>
    { conn := Function.update w.conn l.1 c, dead := c.phase = .aborted ∨ c.phase = .raised }

/-- A run of a worker is a run of each of its connections. -/
theorem run_conn {ι : Type} [DecidableEq ι] {app : App κ υ ε} {ok : Conn κ υ → Label → Prop}
    {w w' : Worker ι κ υ}
    (h : Run (workerStep app) (fun w l => ok (w.conn l.1) l.2) w w') (i : ι) :
    Run (Conn.step app) ok (w.conn i) (w'.conn i) := by
  refine Run.map (f := fun w => w.conn i) ?_ h
  rintro w ⟨j, l⟩ u hok hs
  rw [workerStep] at hs
  split_ifs at hs
  obtain ⟨c, hc, rfl⟩ := Option.map_eq_some_iff.mp hs
  by_cases hij : i = j
  · subst hij
    exact Or.inr ⟨l, hok, by simpa using hc⟩
  · exact Or.inl (by simp [Function.update_of_ne hij])

end Yotta.Core
