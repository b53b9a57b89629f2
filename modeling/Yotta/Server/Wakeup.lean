import Yotta.Server.Exchange
import Yotta.Server.KeepAlive

/-!
# Wakeups

The socket is registered edge-triggered: an event that `epoll_wait` has taken is not
reported again. `serve_sockets` reads before it writes, `read_loop` is left as soon as
no read is armed, and a response that is completed in `write_loop` arms the read when
`read_loop` is over for this event.

Results:
* `worker_wakes`: as long as `read_loop` is not left in front of bytes whose event was
  taken, no armed read waits for such bytes at the top of the loop.
* `stranded_of_complete`: a response that is completed in front of such bytes strands
  the read.
* `worker_stalls`: a request behind which the client closes leaves a read that nothing
  wakes.
-/

namespace Yotta.Server

open Yotta.Bytes Yotta.Core Yotta.Picohttp

/-- A read is armed for bytes, or an end of file, without an event to come. -/
def Stranded (c : HttpConn) : Prop :=
  c.ctx.readCallback.isSome ∧ c.unread ∧ c.pending = false

/-- `read_loop` is about to be left because no read is armed, and not because `read`
has nothing more to return. -/
def leavesUnarmed (c : HttpConn) : Bool :=
  match c.phase with
  | .reading _ => c.ctx.readCallback.isNone
  | _ => false

/-- The condition on a step: `read_loop` is left for want of an armed read only when
everything has been read that had arrived when `epoll_wait` took the event. What is
unread then has arrived since, and its event is pending. -/
def WakefulStep (c : HttpConn) : Label → Prop
  | .advance => leavesUnarmed c → c.unread → c.pending
  | _ => True

instance (c : HttpConn) (l : Label) : Decidable (WakefulStep c l) := by
  cases l <;> dsimp only [WakefulStep] <;> infer_instance

/-- No `read_loop` is ahead for the event that is served. -/
def pastReadLoop : Phase → Bool
  | .idle | .ready false _ | .writing => true
  | _ => false

/-- What holds of a connection at any time while every step meets the condition: an
event is to come for what is unread, or `read_loop` is ahead. -/
def WakeInv (c : HttpConn) : Prop := pastReadLoop c.phase → c.unread → c.pending

theorem wakeInv_accepted (mem : UserData) (recvQueue : List UInt8) (eof : Bool) :
    WakeInv (accepted mem recvQueue eof) := fun _ _ => rfl

section

variable {fs : FileSystem} {c c' : HttpConn} {l : Label}

/-- **Leaving `read_loop`.** Where it stops at an empty socket, nothing is unread; where
it stops for want of an armed read, the condition says the same or an event is
pending. -/
theorem wakeInv_leave {out : Bool} (hphase : c.phase = .reading out)
    (hdone : c.ctx.readCallback = none ∨ c.unread = false) (hok : WakefulStep c .advance) :
    WakeInv (c.leaveReadLoop out) := by
  intro _ hunread
  have hunread' : c.unread := hunread
  rcases hdone with hnone | hread
  · have hleaves : leavesUnarmed c := by rw [leavesUnarmed, hphase, hnone]; rfl
    exact hok hleaves hunread'
  · rw [hread] at hunread'
    cases hunread'

/-- A handler in `read_loop` does not get past it. -/
theorem not_pastReadLoop_onRead {out : Bool} (ctx : HttpCtx) (xs : List UInt8) :
    pastReadLoop (c.handled (app fs) (.reading out) (onRead (app fs) ctx xs)).phase = false := by
  rcases hhandled : onRead (app fs) ctx xs with ⟨ctx', _ | _ | _⟩ | _ | _
  · rfl
  · exact absurd hhandled (onRead_ne_again (app fs) ctx xs ctx')
  · rfl
  · rfl
  · rfl

theorem WakeInv.step (h : WakeInv c) (hok : WakefulStep c l) (hs : c.step (app fs) l = some c') :
    WakeInv c' := by
  obtain ⟨-, hrule⟩ := Conn.steps_of_step hs
  cases hrule with
  | send | shutdown | drain => exact fun _ _ => rfl
  | wait hphase hpending =>
    intro hpast hunread
    -- what is unread has been reported
    have hunread' : c.unread = true := hunread
    simp [hunread', pastReadLoop] at hpast
  | expire | hangup | readError | enter => exact nofun
  | skip hphase => exact fun _ => h (by rw [hphase]; rfl)
  | leave hphase hdone => exact wakeInv_leave hphase hdone hok
  | finish hphase hnone => exact fun _ => h (by rw [hphase]; rfl)
  | read hphase hcallback hpos hroom hlen hfd hfree =>
    intro hpast
    rw [not_pastReadLoop_onRead] at hpast
    cases hpast
  | @write r full sent writable hphase hwrite hallowed =>
    have hbefore : c.unread → c.pending := h (by rw [hphase]; rfl)
    intro hpast
    rcases hhandled : Core.writeHandle (app fs) c.ctx r with ⟨ctx, _ | _ | _⟩ | _ | _ <;>
      rw [hhandled] at hpast
    · exact hbefore
    · exact hbefore
    · cases hpast
    · cases hpast
    · cases hpast

/-- A response that is completed while something is unread whose event was taken leaves
the read stranded when the worker is back at the top of the loop. -/
theorem stranded_of_complete (hmode : Mode c.ctx) (hphase : c.phase = .writing)
    (hwrite : c.ctx.writeCallback.isSome) {n : ℕ} {full : Bool}
    (hallowed : Allowed c.ctx.available (.count (n + 1)))
    (hdone : CompletesResponse c.ctx (n + 1)) (hunread : c.unread) (hpending : c.pending = false) :
    ∃ c', exec (Conn.step (app fs)) c [.write (.count (n + 1)) full, .advance] = some c' ∧
      c'.phase = .idle ∧ Stranded c' := by
  obtain ⟨ctx', hhandled, hwaiting, -⟩ := hmode.writeHandle_completes fs hwrite hdone
  have harmed := hwaiting.readArmed
  refine ⟨{ c with sent := c.sent ++ c.ctx.transferred (n + 1), writable := !full, ctx := ctx'
                   phase := .idle }, ?_, rfl, ?_, hunread, hpending⟩
  · rw [exec, Conn.step_write hphase hwrite hallowed, Option.bind_some, hhandled, exec]
    exact congrArg (Option.bind · some) (Conn.step_finish rfl harmed.writeCallback)
  · dsimp only
    rw [harmed.readCallback]
    rfl

end

/-- **Wakeups.** In every run of a worker in which `read_loop` is never left for want of
an armed read in front of bytes, or an end of file, that had arrived when `epoll_wait`
took the event, every connection with something unread has an event pending when the
worker is at the top of the loop, so that no armed read waits in vain. -/
theorem worker_wakes {ι : Type} [DecidableEq ι] {fs : FileSystem}
    {w w' : Worker ι IoCallback UserData}
    (hnew : ∀ i, ∃ mem recvQueue eof, w.conn i = accepted mem recvQueue eof)
    (h : Run (workerStep (app fs)) (fun w l => WakefulStep (w.conn l.1) l.2) w w') (i : ι)
    (hphase : (w'.conn i).phase = .idle) (hunread : (w'.conn i).unread) :
    (w'.conn i).pending := by
  obtain ⟨mem, recvQueue, eof, hstart⟩ := hnew i
  have hrun := run_conn h i
  rw [hstart] at hrun
  have hinv : WakeInv (w'.conn i) := hrun.invariant (wakeInv_accepted mem recvQueue eof)
    fun _ _ _ hinv hok hs => hinv.step hok hs
  exact hinv (by rw [hphase]; rfl) hunread

/-- A worker with one connection, on which a request has arrived. -/
def oneConnection (eof : Bool) : Worker Unit IoCallback UserData where
  conn _ := accepted .zero plainRequest eof
  dead := false

/-- A file is served in two events, and the client sends the next request while the
last byte of the file is on its way. -/
theorem worker_wakes_served :
    ∃ w, Run (workerStep (app threeBytes)) (fun w l => WakefulStep (w.conn l.1) l.2)
        (oneConnection false) w ∧
      (w.conn ()).sent.length = 137 ∧ (w.conn ()).ctx.readCallback.isSome ∧
      (w.conn ()).recvQueue = rangeRequest ∧ (w.conn ()).pending := by
  let labels : List Label := twoBytesSent ++
    [.write .again false, .drain, .wait, .advance, .send rangeRequest, .write (.count 1) false,
      .advance]
  have hstate : (exec (fun w l => if WakefulStep (w.conn l.1) l.2 then
        workerStep (app threeBytes) w l else none) (oneConnection false) (labels.map ((), ·))).map
      (fun w => ((w.conn ()).phase, (w.conn ()).sent.length,
        (w.conn ()).ctx.readCallback.isSome, (w.conn ()).recvQueue)) =
      some (.idle, 137, true, rangeRequest) := by
    decide +kernel
  obtain ⟨w, hexec, hstate⟩ := Option.map_eq_some_iff.mp hstate
  simp only [Prod.mk.injEq] at hstate
  obtain ⟨hphase, hsent, hread, hqueue⟩ := hstate
  have hrun : Run (workerStep (app threeBytes)) (fun w l => WakefulStep (w.conn l.1) l.2) _ w :=
    run_of_exec_ite hexec
  have hunread : (w.conn ()).unread := by
    rw [Conn.unread, hqueue]
    rfl
  have hpending := worker_wakes (fun _ => ⟨.zero, plainRequest, false, rfl⟩) hrun () hphase hunread
  exact ⟨w, hrun, hsent, hread, hqueue, hpending⟩

/-- The client sends a request and closes before the event is served. -/
theorem worker_stalls :
    ¬ ∀ (fs : FileSystem) (w w' : Worker Unit IoCallback UserData),
      (∀ i, ∃ mem recvQueue eof, w.conn i = accepted mem recvQueue eof) →
      Reaches (workerStep (app fs)) w w' → ∀ i, (w'.conn i).phase = .idle →
      (w'.conn i).ctx.readCallback.isSome → (w'.conn i).unread → (w'.conn i).pending := by
  intro h
  let labels : List Label := [.wait, .advance, .read plainRequest.length 7, .advance,
    .write (.count Http.serve404.length) false, .advance]
  have hstate : (exec (workerStep (app fun _ => none)) (oneConnection true)
      (labels.map ((), ·))).map (fun w => ((w.conn ()).phase, (w.conn ()).ctx.readCallback.isSome,
        (w.conn ()).unread, (w.conn ()).pending)) = some (.idle, true, true, false) := by
    decide
  obtain ⟨w', hexec, hstate⟩ := Option.map_eq_some_iff.mp hstate
  simp only [Prod.mk.injEq] at hstate
  obtain ⟨hphase, hread, hunread, hpending⟩ := hstate
  have hpending' := h _ _ w' (fun _ => ⟨.zero, plainRequest, true, rfl⟩) (run_of_exec hexec) ()
    hphase hread hunread
  rw [hpending] at hpending'
  cases hpending'

end Yotta.Server
