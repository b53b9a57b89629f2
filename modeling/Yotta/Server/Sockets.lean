import Yotta.Core.Traffic
import Yotta.Server.Serve
import Yotta.Server.Wire

/-!
# The sockets of a worker

Result:
* `worker_session`: whatever a worker does for its connections in turns, on the socket of each
  there are the replies to what was read from it.
-/

namespace Yotta.Server

open Yotta.Core Yotta.Core.Reactor Yotta.Numeral

/-- What has been read from the socket. -/
def arrivalsOf (as : List Transfer) : List Arrival :=
  as.filterMap fun
    | .read xs fd => some ⟨fd, xs⟩
    | _ => none

/-- The context `ctx`, with `sent` on its socket, after the session `arrivals`. -/
def AtSession (fs : FileSystem) (mem : UserData) (arrivals : List Arrival) (sent : List UInt8)
    (ctx : HttpCtx) : Prop :=
  ∃ s done pending front, Replied fs mem arrivals sent s done pending front ∧
    Progress fs ctx s pending front

section

variable {fs : FileSystem} {mem : UserData} {as : List Transfer} {a : Transfer}
variable {sent sent' : List UInt8} {ctx ctx' : HttpCtx}

theorem arrivalsOf_snoc (as : List Transfer) (a : Transfer) :
    arrivalsOf (as ++ [a]) = arrivalsOf as ++ arrivalsOf [a] := List.filterMap_append

theorem handle_write_eq_some {r : SysResult} {h : Handled IoCallback UserData Fault}
    (hhandle : (service fs).handle ctx (.write r) = some h) :
    ctx.writeCallback.isSome ∧ Allowed ctx.available r ∧ writeHandle (app fs) ctx r = h := by
  unfold Service.handle at hhandle
  dsimp only at hhandle
  split_ifs at hhandle with hguard
  exact ⟨hguard.1, hguard.2, Option.some.inj hhandle⟩

/-- A handler that returns. -/
theorem AtSession.step (h : AtSession fs mem (arrivalsOf as) sent ctx)
    {handled : Handled IoCallback UserData Fault}
    (hhandle : (service fs).handle ctx a = some handled) (hctx : handled.ctx? = some ctx') :
    AtSession fs mem (arrivalsOf (as ++ [a])) (sent ++ ctx.puts a) ctx' := by
  obtain ⟨s, done, pending, front, hreplied, hprogress⟩ := h
  rw [arrivalsOf_snoc]
  obtain ⟨status, rfl⟩ : ∃ status, handled = .status ctx' status := by
    cases handled with
    | status ctx status =>
      cases hctx
      exact ⟨status, rfl⟩
    | abort => cases hctx
    | raise e => cases hctx
  cases a with
  | read xs fd =>
    unfold Service.handle at hhandle
    dsimp only at hhandle
    split_ifs at hhandle with hguard
    obtain ⟨hread, hne, hroom, hfd, -⟩ := hguard
    obtain ⟨s', pending', hreplied', hprogress'⟩ :=
      hreplied.read_step hprogress hread hne hroom hfd (Option.some.inj hhandle)
    have hputs : sent ++ ctx.puts (.read xs fd) = sent := List.append_nil sent
    rw [hputs]
    exact ⟨s', done, pending', [], hreplied', hprogress'⟩
  | write r =>
    obtain ⟨hwrite, hallowed, hhandled⟩ := handle_write_eq_some hhandle
    obtain ⟨done', pending', front', hreplied', hprogress'⟩ :=
      hreplied.write_step hprogress hwrite hallowed hhandled
    have harrivals : arrivalsOf as ++ arrivalsOf [.write r] = arrivalsOf as := List.append_nil _
    rw [harrivals]
    exact ⟨s, done', pending', front', hreplied', hprogress'⟩
  | timer =>
    -- `timer_callback` changes nothing, and asks to be cleaned up
    cases Option.some.inj hhandle
    have harrivals : arrivalsOf as ++ arrivalsOf [.timer] = arrivalsOf as := List.append_nil _
    have hputs : sent ++ ctx.puts .timer = sent := List.append_nil sent
    rw [harrivals, hputs]
    exact ⟨s, done, pending, front, hreplied, hprogress⟩

theorem atSession_of_exec {bs : List Transfer} (h : AtSession fs mem (arrivalsOf as) sent ctx)
    (hexec : exec (contextStep (service fs)) (ctx, sent) bs = some (ctx', sent')) :
    AtSession fs mem (arrivalsOf (as ++ bs)) sent' ctx' := by
  induction bs generalizing as ctx sent with
  | nil =>
    cases hexec
    rwa [List.append_nil]
  | cons a bs ih =>
    obtain ⟨⟨d, sent₁⟩, hstep, hexec⟩ := Option.bind_eq_some_iff.mp hexec
    obtain ⟨d', hbind, heq⟩ := Option.map_eq_some_iff.mp hstep
    obtain ⟨handled, hhandle, hctx⟩ := Option.bind_eq_some_iff.mp hbind
    cases heq
    have hnext := ih (h.step hhandle hctx) hexec
    rwa [List.append_assoc] at hnext

/-- A context that has been accepted is in a session. -/
theorem atSession_of_lived (h : (service fs).Lived mem as sent ctx) :
    AtSession fs mem (arrivalsOf as) sent ctx := by
  have hnew : AtSession fs mem (arrivalsOf []) [] (acceptCallbackHttp mem) :=
    ⟨_, [], [], [], replied_new mem, .waiting (waiting_new mem)⟩
  exact atSession_of_exec hnew h

/-- What is on the socket of a context, also where its last transfer has ended the worker. -/
theorem replied_of_history (h : History (service fs) mem as sent) :
    ∃ arrivals s done pending front, arrivals <+: arrivalsOf as ∧
      Replied fs mem arrivals sent s done pending front := by
  cases h with
  | lived hlived =>
    obtain ⟨s, done, pending, front, hreplied, -⟩ := atSession_of_lived hlived
    exact ⟨_, s, done, pending, front, List.prefix_rfl, hreplied⟩
  | @ended as sent ctx a handled hlived hhandle hend =>
    obtain ⟨s, done, pending, front, hreplied, hprogress⟩ := atSession_of_lived hlived
    have hputs : ctx.puts a = [] := by
      cases a with
      | read xs fd => rfl
      | timer => rfl
      | write r =>
        obtain ⟨hwrite, -, hhandled⟩ := handle_write_eq_some hhandle
        apply hprogress.mode.put_nil hwrite
        intro ctx' hcontinue
        rw [← hhandled, hcontinue] at hend
        cases hend
    rw [hputs, List.append_nil, arrivalsOf_snoc]
    exact ⟨_, s, done, pending, front, List.prefix_append _ _, hreplied⟩

end

/-- **No connection is served with another one's bytes.** In every run of a worker, with any
number of connections, timers and signals, on the socket of every connection there are the
replies of the session of what was read from that socket, and a front of the one under way;
and the context of a connection that is there is where this session and these replies lead,
as long as the process is there. -/
theorem worker_session {fs : FileSystem} {listenFd : ℕ} {ctx : HttpCtx} {s : HttpReactor}
    {tr : Traffic}
    (h : Reaches (tracedStep (service fs)) (create listenFd ctx, Traffic.empty) (s, tr)) :
    (∀ id, id ≠ 0 → id < s.nextId → ∃ mem arrivals state done pending front,
      arrivals <+: arrivalsOf (tr.transfers id) ∧
        Replied fs mem arrivals (tr.sent id) state done pending front) ∧
    ∀ id e, s.heap id = some e → id ≠ 0 → s.stage.Running →
      ∃ mem, AtSession fs mem (arrivalsOf (tr.transfers id)) (tr.sent id) e.io := by
  have htraced := traced_of_run h
  refine ⟨fun id hid hlt => ?_, fun id e he hid hrun => ?_⟩
  · obtain ⟨mem, hhistory⟩ := htraced.history id hid hlt
    exact ⟨mem, replied_of_history hhistory⟩
  · obtain ⟨mem, hlived⟩ := htraced.context id e he hid hrun
    exact ⟨mem, atSession_of_lived hlived⟩

/-- A request on the first connection is answered, up to the last byte of the file. -/
def firstRequest : List (Reactor.Label UserData) :=
  [.next, .deliver .sockets, .branch none,
    .epoll [((4, 1), { inp := true, out := true, err := false, rdhup := false })], .next,
    .read plainRequest 7, .next, .write (.count 134), .write (.count 2), .write .again]

theorem worker_session_firstRequest :
    ∃ (s : HttpReactor) (tr : Traffic), s.nextId = 2 ∧
      ∃ mem arrivals state done pending front, arrivals <+: arrivalsOf (tr.transfers 1) ∧
        Replied threeBytes mem arrivals (tr.sent 1) state done pending front := by
  have hrun : (exec (tracedStep (service threeBytes))
      (create 3 (acceptCallbackHttp .zero), Traffic.empty) (firstConnection ++ firstRequest)).map
      (fun x => x.1.nextId) = some 2 := by
    decide +kernel
  obtain ⟨⟨s, tr⟩, hexec, hnext⟩ := Option.map_eq_some_iff.mp hrun
  exact ⟨s, tr, hnext, (worker_session (run_of_exec hexec)).1 1 Nat.one_ne_zero
    (Nat.lt_of_lt_of_eq Nat.one_lt_two hnext.symm)⟩

end Yotta.Server
