import Yotta.Core.Lifecycle
import Yotta.Core.MasterLoop
import Yotta.Server.Callbacks

/-!
# The worker

`serve` with `accept_callback_http`, from `create_reactor` on.

Results:
* `serve_lifecycle`: the contexts are counted, are cleaned up once, are not used after
  that, and the loop ends when none of them is left after the termination.
* `serve_corresponds`: the branches of the master loop belong to the events of the
  kernel exactly if no wait has failed.
-/

namespace Yotta.Server

open Yotta.Core Yotta.Core.Reactor Yotta.Numeral

/-- `accept_callback_http` (lines 403–413) with its close callback and its timer, and
`timer_callback` (lines 390–393). -/
def service (fs : FileSystem) : Service IoCallback UserData Fault UserData where
  toApp := app fs
  accept mem :=
    { io := acceptCallbackHttp mem, setsClose := true, armsTimer := true, status := .ok }
  timer ctx := .ok (ctx, .exit)

theorem service_admits (fs : FileSystem) : (service fs).Admits := fun _ => ⟨rfl, rfl⟩

abbrev HttpReactor := Reactor IoCallback UserData

/-- **Lifecycle.** In every run in which no wait of the master loop fails, the signal is
delivered once and no error is reported of the listening socket, the contexts are
counted, cleaned up once and not used after that, and after the termination none is
added. -/
theorem serve_lifecycle (fs : FileSystem) {listenFd : ℕ} {ctx : HttpCtx} {s : HttpReactor}
    (h : Run (step (service fs)) Smooth (create listenFd ctx) s) :
    s.Lifecycle ∧
    (s.terminated = true → ∀ t, Run (step (service fs)) Smooth s t → t.added = s.added) := by
  have hinv := (inv_create listenFd ctx).of_run (service_admits fs) h
  exact ⟨hinv.lifecycle, fun hterm t ht => hinv.added_eq (service_admits fs) hterm ht⟩

/-- A worker takes a connection that comes in. -/
def firstConnection : List (Reactor.Label UserData) :=
  [.next, .deliver .sockets, .branch none,
    .epoll [((3, 0), { inp := true, out := false, err := false, rdhup := false })], .next,
    .accept .zero 4 5, .acceptError, .next]

/-- It is told to terminate, and the connection fails. -/
def gracefulExit : List (Reactor.Label UserData) :=
  [.next, .deliver .signal, .branch none,
    .next, .deliver .sockets, .branch none,
    .epoll [((4, 1), { inp := false, out := false, err := true, rdhup := false })], .next, .next,
    .next]

theorem serve_lifecycle_gracefulExit :
    ∃ s : HttpReactor, Run (step (service fun _ => none)) Smooth
      (create 3 (acceptCallbackHttp .zero)) s ∧ s.stage = .left ∧ s.added = [1] ∧
      s.closeCalls = s.cleaned ∧ s.terminated = true ∧ s.live = [] := by
  have hstate : (exec (fun s a => if Smooth s a then step (service fun _ => none) s a else none)
      (create 3 (acceptCallbackHttp .zero)) (firstConnection ++ gracefulExit)).map
      (fun s => (s.stage, s.added)) = some (.left, [1]) := by
    decide
  obtain ⟨s, hexec, hstate⟩ := Option.map_eq_some_iff.mp hstate
  obtain ⟨hstage, hadded⟩ := Prod.mk.inj hstate
  have hrun := run_of_exec_ite hexec
  have hlife := (serve_lifecycle _ hrun).1
  obtain ⟨hterm, hlive⟩ := hlife.left hstage
  exact ⟨s, hrun, hstage, hadded, hlife.closeCalls, hterm, hlive⟩

/-- **The master loop.** In every run, as long as no wait of the master loop has failed, the
branches that were taken are those of the events that the kernel has delivered, the
termination branch has freed `listen_fd_ctx` at most once for each signal, and
`master_event` was written before it was read; and after a wait has failed this does not
hold again, once the branches have been taken. -/
theorem serve_corresponds (fs : FileSystem) {listenFd : ℕ} {ctx : HttpCtx} {s : HttpReactor}
    (h : Reaches (step (service fs)) (create listenFd ctx) s) :
    (s.interrupts = 0 → s.Corresponds) ∧
    (s.stage ≠ .branch → s.Corresponds → s.interrupts = 0) := by
  have hinv : s.MasterInv :=
    h.invariant (masterInv_create listenFd ctx) fun _ _ _ hinv _ hs =>
      hinv.of_steps (steps_of_step hs)
  exact ⟨hinv.corresponds, hinv.interrupts_eq_zero⟩

theorem serve_corresponds_gracefulExit :
    ∃ s : HttpReactor, Reaches (step (service fun _ => none))
      (create 3 (acceptCallbackHttp .zero)) s ∧ s.stage = .left ∧ s.Corresponds := by
  have hstate : (exec (step (service fun _ => none)) (create 3 (acceptCallbackHttp .zero))
      (firstConnection ++ gracefulExit)).map (fun s => (s.stage, s.interrupts)) =
        some (.left, 0) := by
    decide
  obtain ⟨s, hexec, hstate⟩ := Option.map_eq_some_iff.mp hstate
  obtain ⟨hstage, hinterrupts⟩ := Prod.mk.inj hstate
  have hrun := run_of_exec hexec
  exact ⟨s, hrun, hstage, (serve_corresponds _ hrun).1 hinterrupts⟩

/-- The wait after the termination fails while the connection is still there, and the
termination branch frees `listen_fd_ctx` again. -/
theorem serve_interrupted :
    ¬ ∀ (fs : FileSystem) (listenFd : ℕ) (ctx : HttpCtx) (s : HttpReactor),
      Reaches (step (service fs)) (create listenFd ctx) s → s.Corresponds := by
  intro h
  have hstate : (exec (step (service fun _ => none)) (create 3 (acceptCallbackHttp .zero))
      (firstConnection ++ [.next, .deliver .signal, .branch none, .next, .interrupt,
        .branch none])).map (fun s => (s.stage, s.listenFrees, s.delivered.count .signal)) =
        some (.undefined, 2, 1) := by
    decide
  obtain ⟨s, hexec, hstate⟩ := Option.map_eq_some_iff.mp hstate
  simp only [Prod.mk.injEq] at hstate
  obtain ⟨-, hfrees, hsignals⟩ := hstate
  have hle := (h _ _ _ s (run_of_exec hexec)).listenFrees
  omega

end Yotta.Server
