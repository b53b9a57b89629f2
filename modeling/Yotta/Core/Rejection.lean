import Yotta.Core.Reactor

/-!
# Rejected connections

What `accept_callback` may do with its context through `yta_event_loop.h`, call by call
(`core/yta_event_loop.c`, lines 489–549), and what `accept_loop` does when it then returns
`YTA_EXIT` (lines 268–273).

A callback is the list of the calls that it makes in a run. A `timerfd_create` that fails
makes `epoll_ctl` fail, and the process ends.

Results:
* `exec_apiCall`: what a callback has attached to its context.
* `acceptContext_eq_reject`: the step of the reactor is such a run.
* `released_iff`: which callbacks the rejection leaves nothing behind of.
-/

namespace Yotta.Core

variable {κ υ ε μ : Type}

/-! ## Model of the code -/

/-- A call of a function of `yta_event_loop.h` with the context that is being accepted. -/
inductive ApiCall (κ : Type)
  | asyncRead (callback : κ) (buf toRead : ℕ)
  | asyncWrite (callback : κ) (buf : List UInt8) (toWrite : ℕ)
  | asyncSendfile (callback : κ) (fd toWrite offset : ℕ)
  /-- `fd` is what `timerfd_create` would return. -/
  | asyncTimer (fd : ℕ)
  /-- `isSet` is false for `NULL`. -/
  | setCloseCallback (isSet : Bool)
deriving DecidableEq

namespace Reactor

/-- `accept_loop` before `accept_callback` (lines 256–263). -/
def allocate (s : Reactor κ υ) (infd : ℕ) (io : Ctx κ υ) : Reactor κ υ :=
  { s with nextId := s.nextId + 1
           openFds := infd :: s.openFds
           heap := Function.update s.heap s.nextId
             (some { fd := infd, timerFd := 0, closeCallback := false, io }) }

/-- The context `id` is written. -/
def setEntry (s : Reactor κ υ) (id : ℕ) (e : Entry κ υ) : Reactor κ υ :=
  { s with heap := Function.update s.heap id (some e) }

/-- `yta_async_timer` (lines 516–545). A timer that the context has is set again. -/
def asyncTimer (s : Reactor κ υ) (id : ℕ) (e : Entry κ υ) (fd : ℕ) : Option (Reactor κ υ) :=
  if e.timerFd = 0 then
    -- the descriptor is new, and the lower ones are open
    if fd ∉ s.openFds ∧ e.fd < fd then
      some { s.setEntry id { e with timerFd := fd } with
        openFds := fd :: s.openFds
        timerSet := (fd, id) :: s.timerSet }
    else none
  else some s

/-- A call for the context `id`. -/
def apiCall (id : ℕ) (s : Reactor κ υ) (c : ApiCall κ) : Option (Reactor κ υ) :=
  match s.heap id with
  | none => none
  | some e =>
    match c with
    | .asyncRead callback buf toRead =>
      some (s.setEntry id { e with io := e.io.asyncRead callback buf toRead })
    | .asyncWrite callback buf toWrite =>
      some (s.setEntry id { e with io := e.io.asyncWrite callback buf toWrite })
    | .asyncSendfile callback fd toWrite offset =>
      some (s.setEntry id { e with io := e.io.asyncSendfile callback fd toWrite offset })
    | .asyncTimer fd => s.asyncTimer id e fd
    | .setCloseCallback isSet => some (s.setEntry id { e with closeCallback := isSet })

/-- `accept_loop` once `accept_callback` has returned `YTA_EXIT` (lines 269–273). -/
def reject (s : Reactor κ υ) (id infd : ℕ) : Reactor κ υ := (s.free id).closeFd infd

/-! ## What a callback attaches -/

/-- The reactor with the context of `infd` as a callback has left it. -/
def attached (s : Reactor κ υ) (e : Entry κ υ) : Reactor κ υ :=
  { s with nextId := s.nextId + 1
           heap := Function.update s.heap s.nextId (some e)
           openFds := if e.timerFd = 0 then e.fd :: s.openFds else e.timerFd :: e.fd :: s.openFds
           timerSet :=
             if e.timerFd = 0 then s.timerSet else (e.timerFd, s.nextId) :: s.timerSet }

/-- The descriptors of a context that is being accepted. -/
structure Accepts (s : Reactor κ υ) (infd : ℕ) (e : Entry κ υ) : Prop where
  fd_eq : e.fd = infd
  timer : e.timerFd = 0 ∨ infd < e.timerFd ∧ e.timerFd ∉ s.openFds

/-- A call sets the timer of the context. -/
def armsTimer (calls : List (ApiCall κ)) : Bool :=
  calls.any fun
    | .asyncTimer _ => true
    | _ => false

/-- The close callback after the calls is set. -/
def closeSet (isSet : Bool) (calls : List (ApiCall κ)) : Bool :=
  calls.foldl (fun isSet c =>
    match c with
    | .setCloseCallback isSet => isSet
    | _ => isSet) isSet

variable {s t : Reactor κ υ} {infd : ℕ} {e : Entry κ υ} {c : ApiCall κ}

theorem allocate_eq (s : Reactor κ υ) (infd : ℕ) (io : Ctx κ υ) :
    s.allocate infd io =
      s.attached { fd := infd, timerFd := 0, closeCallback := false, io } := rfl

theorem attached_heap : (s.attached e).heap s.nextId = some e := Function.update_self ..

theorem setEntry_attached {e' : Entry κ υ} (hfd : e'.fd = e.fd) (htimer : e'.timerFd = e.timerFd) :
    (s.attached e).setEntry s.nextId e' = s.attached e' := by
  unfold setEntry attached
  rw [hfd, htimer, Function.update_idem]

theorem attached_arm {fd : ℕ} (h0 : e.timerFd = 0) (hfd : fd ≠ 0) :
    { (s.attached e).setEntry s.nextId { e with timerFd := fd } with
      openFds := fd :: (s.attached e).openFds
      timerSet := (fd, s.nextId) :: (s.attached e).timerSet } =
    s.attached { e with timerFd := fd } := by
  unfold setEntry attached
  rw [if_pos h0, if_pos h0, if_neg hfd, if_neg hfd, Function.update_idem]

/-- **One call.** It changes nothing but the context, and the descriptor and the timer set
when it makes the timer. -/
theorem apiCall_attached (he : s.Accepts infd e)
    (h : (s.attached e).apiCall s.nextId c = some t) :
    ∃ e', t = s.attached e' ∧ s.Accepts infd e' ∧
      (e'.timerFd ≠ 0 ↔ e.timerFd ≠ 0 ∨ armsTimer [c] = true) ∧
      e'.closeCallback = closeSet e.closeCallback [c] := by
  unfold apiCall at h
  rw [attached_heap] at h
  cases c with
  | asyncRead callback buf toRead =>
    obtain rfl := Option.some.inj h
    exact ⟨_, setEntry_attached rfl rfl, ⟨he.fd_eq, he.timer⟩, by simp [armsTimer], rfl⟩
  | asyncWrite callback buf toWrite =>
    obtain rfl := Option.some.inj h
    exact ⟨_, setEntry_attached rfl rfl, ⟨he.fd_eq, he.timer⟩, by simp [armsTimer], rfl⟩
  | asyncSendfile callback fd toWrite offset =>
    obtain rfl := Option.some.inj h
    exact ⟨_, setEntry_attached rfl rfl, ⟨he.fd_eq, he.timer⟩, by simp [armsTimer], rfl⟩
  | setCloseCallback isSet =>
    obtain rfl := Option.some.inj h
    exact ⟨_, setEntry_attached rfl rfl, ⟨he.fd_eq, he.timer⟩, by simp [armsTimer], rfl⟩
  | asyncTimer fd =>
    dsimp only at h
    unfold asyncTimer at h
    split_ifs at h with h0 hnew
    · obtain rfl := Option.some.inj h
      obtain ⟨hfresh, hlt⟩ := hnew
      have hpos : fd ≠ 0 := Nat.ne_of_gt (Nat.lt_of_le_of_lt (Nat.zero_le _) hlt)
      have hopen : fd ∉ s.openFds := by
        intro hmem
        apply hfresh
        show fd ∈ if e.timerFd = 0 then e.fd :: s.openFds else e.timerFd :: e.fd :: s.openFds
        rw [if_pos h0]
        exact List.mem_cons_of_mem _ hmem
      refine ⟨_, attached_arm h0 hpos, ⟨he.fd_eq, Or.inr ⟨he.fd_eq ▸ hlt, hopen⟩⟩, ?_, rfl⟩
      simp [armsTimer, hpos]
    · obtain rfl := Option.some.inj h
      refine ⟨e, rfl, he, ?_, rfl⟩
      simp [armsTimer, h0]

/-- **A callback.** -/
theorem exec_apiCall {calls : List (ApiCall κ)} (he : s.Accepts infd e)
    (h : exec (apiCall s.nextId) (s.attached e) calls = some t) :
    ∃ e', t = s.attached e' ∧ s.Accepts infd e' ∧
      (e'.timerFd ≠ 0 ↔ e.timerFd ≠ 0 ∨ armsTimer calls = true) ∧
      e'.closeCallback = closeSet e.closeCallback calls := by
  induction calls generalizing e with
  | nil =>
    obtain rfl := Option.some.inj h
    exact ⟨e, rfl, he, by simp [armsTimer], rfl⟩
  | cons c calls ih =>
    obtain ⟨u, hu, h⟩ := Option.bind_eq_some_iff.mp h
    obtain ⟨e₁, rfl, he₁, htimer₁, hclose₁⟩ := apiCall_attached he hu
    obtain ⟨e₂, rfl, he₂, htimer₂, hclose₂⟩ := ih he₁ h
    refine ⟨e₂, rfl, he₂, ?_, ?_⟩
    · rw [htimer₂, htimer₁, or_assoc]
      simp [armsTimer]
    · rw [hclose₂, hclose₁]
      rfl

/-! ## The timer set -/

/-- The timers belong to contexts that have been allocated. -/
def TimersOld (s : Reactor κ υ) : Prop := ∀ p ∈ s.timerSet, p.2 < s.nextId

/-- No timer is added. -/
def Keeps (s t : Reactor κ υ) : Prop := t.timerSet ⊆ s.timerSet ∧ s.nextId = t.nextId

theorem Keeps.timersOld (h : Keeps s t) (hs : s.TimersOld) : t.TimersOld := fun p hp =>
  h.2 ▸ hs p (h.1 hp)

theorem Keeps.trans {u : Reactor κ υ} (h : Keeps s t) (h' : Keeps t u) : Keeps s u :=
  ⟨fun _ hp => h.1 (h'.1 hp), h.2.trans h'.2⟩

theorem keeps_of_eq (h : t.timerSet = s.timerSet) (h' : s.nextId = t.nextId) : Keeps s t :=
  ⟨fun _ hp => h ▸ hp, h'⟩

theorem keeps_closeFd (s : Reactor κ υ) (fd : ℕ) : Keeps s (s.closeFd fd) :=
  ⟨fun _ hp => (List.mem_filter.mp hp).1, rfl⟩

theorem keeps_callClose (s : Reactor κ υ) (id : ℕ) (e : Entry κ υ) :
    Keeps s (s.callClose id e) := by
  unfold callClose
  split <;> exact keeps_of_eq rfl rfl

theorem keeps_cleanupContext (s : Reactor κ υ) (id : ℕ) (e : Entry κ υ) (stage : Stage) :
    Keeps s (s.cleanupContext id e stage) := by
  unfold cleanupContext
  dsimp only
  split
  · exact ((keeps_closeFd s e.fd).trans (keeps_closeFd _ e.timerFd)).trans (keeps_callClose _ id e)
  · exact (keeps_closeFd s e.fd).trans (keeps_callClose _ id e)

theorem keeps_settle (s : Reactor κ υ) (id : ℕ) (e : Entry κ υ) (stage rest : Stage)
    (h : Handled κ υ ε) : Keeps s (s.settle id e stage rest h) := by
  unfold settle
  split
  · exact keeps_of_eq rfl rfl
  · exact keeps_of_eq rfl rfl
  · exact keeps_cleanupContext (s.setIo id e _) id _ rest
  · exact keeps_of_eq rfl rfl
  · exact keeps_of_eq rfl rfl

theorem keeps_serveSocket (s : Reactor κ υ) (id : ℕ) (f : Flags) (batch : Batch) :
    Keeps s (s.serveSocket id f batch) := by
  unfold serveSocket
  split
  · exact keeps_of_eq rfl rfl
  · split_ifs
    · exact keeps_cleanupContext s id _ _
    all_goals exact keeps_of_eq rfl rfl

theorem keeps_serveTimer (svc : Service κ υ ε μ) (s : Reactor κ υ) (id : ℕ) (f : Flags)
    (batch : Batch) : Keeps s (s.serveTimer svc id f batch) := by
  unfold serveTimer
  split
  · exact keeps_of_eq rfl rfl
  · split_ifs
    · exact keeps_cleanupContext s id _ _
    · exact keeps_settle s id _ _ _ _
    · exact keeps_of_eq rfl rfl

theorem keeps_branchOn (s : Reactor κ υ) (e : Option MasterEvent) : Keeps s (s.branchOn e) := by
  unfold branchOn
  split <;> exact keeps_of_eq rfl rfl

/-- A context that is accepted or rejected is new. -/
theorem timersOld_acceptContext (svc : Service κ υ ε μ) (hs : s.TimersOld) (mem : μ)
    (infd timerFd : ℕ) : (s.acceptContext svc mem infd timerFd).TimersOld := by
  have hold : ∀ p ∈ s.timerSet, p.2 < s.nextId + 1 := fun p hp => Nat.lt_succ_of_lt (hs p hp)
  have hnew : ∀ p ∈ (timerFd, s.nextId) :: s.timerSet, p.2 < s.nextId + 1 := by
    intro p hp
    rcases List.mem_cons.mp hp with rfl | hp
    · exact Nat.lt_succ_self _
    · exact hold p hp
  unfold acceptContext
  dsimp only
  split
  · apply (keeps_closeFd _ infd).timersOld
    split_ifs
    · exact hnew
    · exact hold
  · split_ifs
    · exact hnew
    · exact hold

theorem timersOld_of_steps {svc : Service κ υ ε μ} {l : Label μ} (h : s.Steps svc l t)
    (hs : s.TimersOld) : t.TimersOld := by
  cases h with
  | socket => exact (keeps_serveSocket s _ _ _).timersOld hs
  | timer => exact (keeps_serveTimer svc s _ _ _).timersOld hs
  | branch => exact (keeps_branchOn s _).timersOld hs
  | branchUninit => exact (keeps_branchOn s _).timersOld hs
  | accept => exact timersOld_acceptContext svc hs _ _ _
  | read => exact (keeps_settle s _ _ _ _ _).timersOld hs
  | readClose => exact (keeps_cleanupContext s _ _ _).timersOld hs
  | write => exact (keeps_settle s _ _ _ _ _).timersOld hs
  | _ => exact hs

/-- In every state of every reactor the timers belong to old contexts. -/
theorem timersOld_of_reaches {svc : Service κ υ ε μ} {listenFd : ℕ} {ctx : Ctx κ υ}
    (h : Reaches (step svc) (create listenFd ctx) s) : s.TimersOld := by
  have hstart : (create listenFd ctx).TimersOld := fun _ hp => absurd hp List.not_mem_nil
  exact h.invariant hstart fun _ _ _ hs _ hstep => timersOld_of_steps (steps_of_step hstep) hs

/-! ## What a rejection leaves behind -/

/-- The rejecting step of the reactor is `reject` after a callback whose calls come to the
same context. -/
theorem acceptContext_eq_reject (svc : Service κ υ ε μ) {mem : μ} {timerFd : ℕ}
    {calls : List (ApiCall κ)} (hexit : (svc.accept mem).status = .exit)
    (h : exec (apiCall s.nextId) (s.allocate infd e.io) calls = some t)
    (he : t.heap s.nextId = some e) (harms : (svc.accept mem).armsTimer = armsTimer calls)
    (hfd : e.timerFd ≠ 0 → e.timerFd = timerFd) :
    s.acceptContext svc mem infd timerFd = t.reject s.nextId infd := by
  rw [allocate_eq] at h
  obtain ⟨e', rfl, haccepts, htimer, -⟩ := exec_apiCall ⟨rfl, Or.inl rfl⟩ h
  obtain rfl := Option.some.inj (attached_heap.symm.trans he)
  unfold acceptContext reject attached
  dsimp only
  rw [hexit, harms]
  cases hcalls : armsTimer calls with
  | true =>
    have hne : e'.timerFd ≠ 0 := htimer.mpr (Or.inr hcalls)
    rw [if_neg hne, if_neg hne, ← hfd hne, haccepts.fd_eq]
    simp [free]
  | false =>
    have h0 : e'.timerFd = 0 := by
      by_contra hne
      rcases htimer.mp hne with h' | h'
      · exact h' rfl
      · rw [hcalls] at h'
        cases h'
    rw [if_pos h0, if_pos h0, haccepts.fd_eq]
    simp [free]

/-- Nothing is left of the context `id`, which a callback has left as `e`: no timer points to
it, the descriptor of its timer is closed, its close callback has been run once, and the
count of clients is what it was. -/
structure Released (s t : Reactor κ υ) (id : ℕ) (e : Entry κ υ) : Prop where
  noTimer : ∀ fd, (fd, id) ∉ t.timerSet
  timerClosed : e.timerFd ≠ 0 → e.timerFd ∉ t.openFds
  closeCalled : t.closeCalls = if e.closeCallback then s.closeCalls ++ [id] else s.closeCalls
  clients : t.currentClients = s.currentClients

/-- **Rejected connections.** In every state of the reactor, and for every callback, the
rejection releases the context if and only if the callback has made no timer and leaves no
close callback. -/
theorem released_iff {svc : Service κ υ ε μ} {listenFd : ℕ} {ctx io : Ctx κ υ}
    {calls : List (ApiCall κ)} (hreach : Reaches (step svc) (create listenFd ctx) s)
    (h : exec (apiCall s.nextId) (s.allocate infd io) calls = some t) :
    ∃ e, t.heap s.nextId = some e ∧
      (Released s (t.reject s.nextId infd) s.nextId e ↔
        armsTimer calls = false ∧ closeSet false calls = false) := by
  rw [allocate_eq] at h
  obtain ⟨e, rfl, haccepts, htimer, hclose⟩ := exec_apiCall ⟨rfl, Or.inl rfl⟩ h
  refine ⟨e, attached_heap, ?_⟩
  have hset : ((s.attached e).reject s.nextId infd).timerSet =
      (if e.timerFd = 0 then s.timerSet else (e.timerFd, s.nextId) :: s.timerSet).filter
        (·.1 ≠ infd) := rfl
  constructor
  · rintro ⟨hno, -, hcalled, -⟩
    constructor
    · by_contra harms
      rw [Bool.not_eq_false] at harms
      have hne : e.timerFd ≠ 0 := htimer.mpr (Or.inr harms)
      obtain ⟨hlt, -⟩ := haccepts.timer.resolve_left hne
      apply hno e.timerFd
      rw [hset, if_neg hne]
      exact List.mem_filter.mpr ⟨List.mem_cons_self, by simpa using Nat.ne_of_gt hlt⟩
    · rw [← hclose]
      by_contra hset
      rw [Bool.not_eq_false] at hset
      rw [hset, if_pos rfl] at hcalled
      have hlen := congrArg List.length hcalled
      rw [List.length_append] at hlen
      exact absurd hlen (Nat.ne_of_lt (Nat.lt_succ_self s.closeCalls.length))
  · rintro ⟨harms, hnone⟩
    have h0 : e.timerFd = 0 := by
      by_contra hne
      rcases htimer.mp hne with h' | h'
      · exact h' rfl
      · rw [harms] at h'
        cases h'
    rw [← hclose] at hnone
    refine ⟨fun fd hmem => ?_, fun hne => absurd h0 hne, ?_, rfl⟩
    · rw [hset, if_pos h0] at hmem
      have hold := timersOld_of_reaches hreach _ (List.mem_filter.mp hmem).1
      exact absurd hold (Nat.lt_irrefl _)
    · rw [hnone]
      rfl

/-- A context that has been cleared. -/
def clearedCtx : Ctx Unit Unit where
  userData := ()
  readCallback := none
  readBuf := 0
  toRead := 0
  writeCallback := none
  wdata := .basic []
  alreadyWritten := 0
  toWrite := 0
  sys := { cork := false, nextFd := 0, files := [], badClose := false }

/-- An application that turns every connection away, after it has set a timer and a close
callback. -/
def rejecting : Service Unit Unit Unit Unit where
  io _ ctx _ _ := .ok (ctx, .ok)
  close := id
  store u _ _ := u
  accept _ := { io := clearedCtx, setsClose := true, armsTimer := true, status := .exit }
  timer ctx := .ok (ctx, .exit)

/-- A callback that reads and writes only leaves nothing behind. -/
theorem released_iff_reads :
    ∃ t, exec (apiCall 1) ((create 3 clearedCtx).allocate 4 clearedCtx)
        [.asyncRead () 0 8, .asyncWrite () [] 0] = some t ∧
      ∃ e, t.heap 1 = some e ∧
        (Released (create 3 clearedCtx) (t.reject 1 4) 1 e ↔
          armsTimer [ApiCall.asyncRead () 0 8, .asyncWrite () [] 0] = false ∧
          closeSet false [ApiCall.asyncRead () 0 8, .asyncWrite () [] 0] = false) := by
  have hstart : Reaches (step rejecting) (create 3 clearedCtx) (create 3 clearedCtx) := .refl
  exact ⟨_, rfl, released_iff hstart rfl⟩

/-- The worker turns a connection away, and later the timer fires. -/
def timerFires : List (Label Unit) :=
  [.next, .deliver .sockets, .branch none,
    .epoll [((3, 0), { inp := true, out := false, err := false, rdhup := false })], .next,
    .accept () 4 5, .acceptError, .next,
    .next, .deliver .timers, .branch none,
    .epoll [((5, 1), { inp := true, out := false, err := false, rdhup := false })], .next]

/-- The timer of the rejected connection stays in its set, its descriptor stays open, and
its close callback is not run; when it fires, the freed context is used. -/
theorem rejected_timer_fires :
    (∃ t e, exec (apiCall 1) ((create 3 clearedCtx).allocate 4 clearedCtx)
        [.asyncTimer 5, .setCloseCallback true] = some t ∧ t.heap 1 = some e ∧
      (5, 1) ∈ (t.reject 1 4).timerSet ∧ 5 ∈ (t.reject 1 4).openFds ∧
      (t.reject 1 4).closeCalls = [] ∧ (t.reject 1 4).heap 1 = none ∧
      ¬ Released (create 3 clearedCtx) (t.reject 1 4) 1 e) ∧
    ∃ u, Reaches (step rejecting) (create 3 clearedCtx) u ∧ u.stage = .undefined := by
  constructor
  · refine ⟨_, _, rfl, rfl, ?_, ?_, rfl, rfl, ?_⟩
    · decide
    · decide
    · intro h
      exact h.noTimer 5 (by decide)
  · have hstage : (exec (step rejecting) (create 3 clearedCtx) timerFires).map (·.stage) =
        some .undefined := by
      decide
    obtain ⟨u, hexec, hstage⟩ := Option.map_eq_some_iff.mp hstage
    exact ⟨u, run_of_exec hexec, hstage⟩

end Reactor

end Yotta.Core
