import Yotta.Core.Contexts

/-!
# The listening socket of a worker

As long as no error is reported of it, a worker does not close the socket that it listens on,
whatever else it does, and however often its waits fail.

Results:
* `Listens.of_steps`: every such step keeps the context of the listening socket and its
  descriptor apart from those of the connections.
* `OpensIn.of_steps`: a worker opens what the kernel gives out, and nothing else.
-/

namespace Yotta.Core.Reactor

variable {κ υ ε μ : Type} {svc : Service κ υ ε μ} {s t : Reactor κ υ} {l : Label μ}

/-- No error is reported of the listening socket alone. -/
def Calm : Label μ → Prop
  | .epoll events => ∀ ev ∈ events, ev.1.2 = 0 → ev.2.failed = false
  | _ => True

/-- The rest of a batch has no error of the listening socket. -/
def CalmBatch (batch : Batch) : Prop := ∀ x ∈ batch, x.1 = 0 → x.2.failed = false

/-- What holds where the worker is. -/
def StageCalm : Stage → Prop
  | .sockets batch => CalmBatch batch
  | .accepting batch => CalmBatch batch
  | .reading id _ batch => id ≠ 0 ∧ CalmBatch batch
  | .writing id batch => id ≠ 0 ∧ CalmBatch batch
  | .timers batch => ∀ x ∈ batch, x.1 ≠ 0
  | _ => True

/-- The listening socket is open, and only `listen_fd_ctx` has it. -/
structure Listens (s : Reactor κ υ) : Prop where
  opened : s.listenFd ∈ s.openFds
  listener : ∀ {e}, s.heap 0 = some e → e.fd = s.listenFd
  others : ∀ {id e}, s.heap id = some e → id ≠ 0 → s.listenFd ∉ e.fds
  nextId : 0 < s.nextId
  terminated : s.terminated = true → s.heap 0 = none
  timers : ∀ x ∈ s.timerSet, x.2 ≠ 0
  stage : StageCalm s.stage

theorem listens_create (listenFd : ℕ) (ctx : Ctx κ υ) : (create listenFd ctx).Listens where
  opened := List.mem_singleton_self _
  listener he := by
    unfold create at he
    dsimp only at he
    rw [Function.update_self] at he
    obtain rfl := Option.some.inj he
    rfl
  others he hid := by
    unfold create at he
    dsimp only at he
    rw [Function.update_of_ne hid] at he
    cases he
  nextId := Nat.one_pos
  terminated h := by cases h
  timers := nofun
  stage := trivial

namespace Listens

/-- The worker goes on at `stage`. -/
theorem withStage (h : s.Listens) {stage : Stage} (hstage : StageCalm stage) :
    Listens { s with stage } := { h with stage := hstage }

/-- A context of a connection is cleaned up. -/
theorem cleanupContext (h : s.Listens) {id : ℕ} {e : Entry κ υ} (hid : id ≠ 0)
    (hfd : s.listenFd ∉ e.fds) {stage : Stage} (hstage : StageCalm stage) :
    (s.cleanupContext id e stage).Listens where
  opened := by
    rw [cleanupContext_listenFd]
    exact mem_cleanupContext_openFds.mpr ⟨h.opened, hfd⟩
  listener he := by
    rw [cleanupContext_listenFd]
    exact h.listener (cleanupContext_heap_eq_some.mp he).1
  others he hi := by
    rw [cleanupContext_listenFd]
    exact h.others (cleanupContext_heap_eq_some.mp he).1 hi
  nextId := by
    rw [cleanupContext_nextId]
    exact h.nextId
  terminated hterm := by
    rw [cleanupContext_terminated] at hterm
    rw [cleanupContext_heap, Function.update_of_ne hid.symm]
    exact h.terminated hterm
  timers := by
    rintro ⟨fd, i⟩ hx
    exact h.timers _ (mem_cleanupContext_timerSet.mp hx).1
  stage := hstage

/-- A callback of a connection has returned. -/
theorem setIo (h : s.Listens) {id : ℕ} {e : Entry κ υ} (he : s.heap id = some e)
    (io : Ctx κ υ) : (s.setIo id e io).Listens where
  opened := h.opened
  listener he' := by
    obtain ⟨e₀, io', he₀, rfl⟩ := setIo_heap_eq_some he he'
    have hlistener := h.listener he₀
    exact hlistener
  others he' hi := by
    obtain ⟨e₀, io', he₀, rfl⟩ := setIo_heap_eq_some he he'
    have hother := h.others he₀ hi
    exact hother
  nextId := h.nextId
  terminated hterm := by
    have hnone := h.terminated hterm
    by_contra hsome
    obtain ⟨e', he'⟩ := Option.ne_none_iff_exists'.mp hsome
    obtain ⟨e₀, -, he₀, -⟩ := setIo_heap_eq_some he he'
    rw [hnone] at he₀
    cases he₀
  timers := h.timers
  stage := h.stage

/-- A handler of a connection has returned. -/
theorem settle (h : s.Listens) {id : ℕ} {e : Entry κ υ} (he : s.heap id = some e) (hid : id ≠ 0)
    {stage rest : Stage} (hstage : StageCalm stage) (hrest : StageCalm rest)
    (handled : Handled κ υ ε) : (s.settle id e stage rest handled).Listens := by
  cases handled with
  | status io status =>
    have hset := h.setIo he io
    cases status with
    | «continue» => exact hset.withStage hstage
    | again => exact hset.withStage hrest
    | error =>
      have hfd : s.listenFd ∉ e.fds := h.others he hid
      exact hset.cleanupContext hid hfd hrest
  | abort => exact h.withStage trivial
  | raise e => exact h.withStage trivial

theorem leaveReadLoop (h : s.Listens) {id : ℕ} {out : Bool} {batch : Batch} (hid : id ≠ 0)
    (hbatch : CalmBatch batch) : (s.leaveReadLoop id out batch).Listens := by
  cases out with
  | true => exact h.withStage ⟨hid, hbatch⟩
  | false => exact h.withStage hbatch

/-- **An event of the socket set** is handled. -/
theorem serveSocket (h : s.Listens) {id : ℕ} {f : Flags} {batch : Batch}
    (hbatch : CalmBatch ((id, f) :: batch)) : (s.serveSocket id f batch).Listens := by
  have hrest : CalmBatch batch := fun x hx => hbatch x (List.mem_cons_of_mem _ hx)
  unfold Reactor.serveSocket
  cases he : s.heap id with
  | none => exact h.withStage trivial
  | some e =>
    dsimp only
    split_ifs with hfailed haccept hinp
    · -- it is not the listening socket that has failed
      have hid : id ≠ 0 := by
        intro hid
        have hquiet : f.failed = false := hbatch (id, f) List.mem_cons_self hid
        rw [hquiet] at hfailed
        cases hfailed
      exact h.cleanupContext hid (h.others he hid) hrest
    · exact h.withStage hrest
    all_goals
      -- the listening socket has been told apart
      have hid : id ≠ 0 := by
        rintro rfl
        have hterm : s.terminated = false := by
          by_contra hterm
          rw [h.terminated (Bool.not_eq_false _ ▸ hterm)] at he
          cases he
        simp [h.listener he, hterm] at haccept
    · exact h.withStage ⟨hid, hrest⟩
    · exact h.leaveReadLoop hid hrest

/-- **An event of the timer set** is handled. -/
theorem serveTimer (h : s.Listens) {id : ℕ} {f : Flags} {batch : Batch}
    (hbatch : ∀ x ∈ (id, f) :: batch, x.1 ≠ 0) : (s.serveTimer svc id f batch).Listens := by
  have hid : id ≠ 0 := hbatch (id, f) List.mem_cons_self
  have hrest : StageCalm (.timers batch) := fun x hx => hbatch x (List.mem_cons_of_mem _ hx)
  unfold Reactor.serveTimer
  cases he : s.heap id with
  | none => exact h.withStage trivial
  | some e =>
    dsimp only
    split_ifs
    · exact h.cleanupContext hid (h.others he hid) hrest
    · exact h.settle he hid hrest hrest _
    · exact h.withStage trivial

theorem branchOn_signal_heap (s : Reactor κ υ) :
    (s.branchOn (some .signal)).heap = Function.update s.heap 0 none := rfl

theorem branchOn (h : s.Listens) (e : Option MasterEvent) : (s.branchOn e).Listens := by
  rcases e with _ | e
  · exact h.withStage trivial
  · cases e with
    | sockets => exact { h with stage := trivial }
    | timers => exact { h with stage := trivial }
    | signal =>
      have hfree {i : ℕ} {e : Entry κ υ} (he : (s.branchOn (some .signal)).heap i = some e) :
          s.heap i = some e ∧ i ≠ 0 := by
        rw [branchOn_signal_heap] at he
        by_cases hi : i = 0
        · subst hi
          rw [Function.update_self] at he
          cases he
        · rw [Function.update_of_ne hi] at he
          exact ⟨he, hi⟩
      refine ⟨h.opened, fun he => absurd rfl (hfree he).2, fun he hi => h.others (hfree he).1 hi,
        h.nextId, fun _ => ?_, h.timers, ?_⟩
      · rw [branchOn_signal_heap, Function.update_self]
      show StageCalm (if (s.heap 0).isSome then Stage.test else .undefined)
      split_ifs <;> trivial

/-- **A new connection** is not the listening socket. -/
theorem acceptContext (h : s.Listens) (hsvc : svc.Admits) {mem : μ} {infd timerFd : ℕ}
    (hinfd : infd ∉ s.openFds) (htimer : timerFd ∉ s.openFds) :
    (s.acceptContext svc mem infd timerFd).Listens := by
  have hnew : s.listenFd ∉ ((svc.accept mem).entry infd timerFd).fds := by
    intro hmem
    rcases Admission.mem_fds_entry hmem with hfd | ⟨hfd, -⟩
    · exact hinfd (hfd ▸ h.opened)
    · exact htimer (hfd ▸ h.opened)
  have hzero : (0 : ℕ) ≠ s.nextId := h.nextId.ne
  rw [acceptContext_eq (hsvc mem).1]
  refine ⟨?_, fun he => ?_, fun {i e} he hi => ?_, Nat.succ_pos _, fun hterm => ?_, ?_, h.stage⟩
  · dsimp only
    split_ifs
    · exact List.mem_cons_of_mem _ (List.mem_cons_of_mem _ h.opened)
    · exact List.mem_cons_of_mem _ h.opened
  · dsimp only at he
    rw [Function.update_of_ne hzero] at he
    exact h.listener he
  · dsimp only at he
    by_cases heq : i = s.nextId
    · subst heq
      rw [Function.update_self] at he
      obtain rfl := Option.some.inj he
      exact hnew
    · rw [Function.update_of_ne heq] at he
      exact h.others he hi
  · dsimp only
    rw [Function.update_of_ne hzero]
    exact h.terminated hterm
  · dsimp only
    split_ifs
    · exact List.forall_mem_cons.mpr ⟨hzero.symm, h.timers⟩
    · exact h.timers

/-- **Every step** leaves the listening socket open. -/
theorem of_steps (hsvc : svc.Admits) (h : s.Listens) (hcalm : Calm l) (hs : s.Steps svc l t) :
    t.Listens := by
  have hstage := h.stage
  cases hs with
  | loop =>
    refine h.withStage ?_
    split_ifs <;> trivial
  | socketsDone => exact h.withStage trivial
  | timersDone => exact h.withStage trivial
  | socket hs =>
    rw [hs] at hstage
    exact h.serveSocket hstage
  | timer hs =>
    rw [hs] at hstage
    exact h.serveTimer hstage
  | readLost => exact h.withStage trivial
  | writeLost => exact h.withStage trivial
  | readDone l hs =>
    rw [hs] at hstage
    exact h.leaveReadLoop hstage.1 hstage.2
  | writeDone hs =>
    rw [hs] at hstage
    exact h.withStage hstage.2
  | deliver => exact { h with stage := trivial }
  | interrupt => exact { h with stage := trivial }
  | branch => exact h.branchOn _
  | branchUninit => exact { h.branchOn _ with }
  | socketEvents =>
    refine h.withStage ?_
    intro x hx hid
    obtain ⟨ev, hev, rfl⟩ := List.mem_map.mp hx
    exact hcalm ev hev hid
  | timerEvents _ hevents =>
    refine h.withStage ?_
    intro x hx
    obtain ⟨ev, hev, rfl⟩ := List.mem_map.mp hx
    exact h.timers _ (hevents.2.2 ev hev)
  | epollError => exact h.withStage trivial
  | accept _ hinfd htimer => exact h.acceptContext hsvc hinfd htimer
  | acceptError hs =>
    rw [hs] at hstage
    exact h.withStage hstage
  | acceptExit => exact h.withStage trivial
  | read hs he =>
    rw [hs] at hstage
    exact h.settle he hstage.1 hstage (show StageCalm (.sockets _) from hstage.2) _
  | readClose hs he =>
    rw [hs] at hstage
    exact h.cleanupContext hstage.1 (h.others he hstage.1) hstage.2
  | write hs he =>
    rw [hs] at hstage
    exact h.settle he hstage.1 hstage (show StageCalm (.sockets _) from hstage.2) _

end Listens

/-! ## Descriptors -/

/-- What the kernel gives out in a step. -/
def Label.opens : Label μ → List ℕ
  | .accept _ infd timerFd => [infd, timerFd]
  | .read _ fd => [fd]
  | _ => []

/-- The worker opens no other descriptors than those of `fds`, and listens where it did. -/
structure OpensIn (s t : Reactor κ υ) (fds : List ℕ) : Prop where
  opened : ∀ fd ∈ t.openFds, fd ∈ s.openFds ∨ fd ∈ fds
  listenFd : t.listenFd = s.listenFd

namespace OpensIn

variable {fds : List ℕ} {id : ℕ} {e : Entry κ υ}

/-- The descriptors stay. -/
theorem of_eq (hopen : t.openFds = s.openFds) (hlisten : t.listenFd = s.listenFd) :
    OpensIn s t fds :=
  ⟨fun _ hfd => Or.inl (hopen ▸ hfd), hlisten⟩

theorem cleanupContext (s : Reactor κ υ) (stage : Stage) :
    OpensIn s (s.cleanupContext id e stage) fds :=
  ⟨fun _ hfd => Or.inl (mem_cleanupContext_openFds.mp hfd).1, cleanupContext_listenFd ..⟩

theorem settle (s : Reactor κ υ) (stage rest : Stage) (handled : Handled κ υ ε) :
    OpensIn s (s.settle id e stage rest handled) fds := by
  cases handled with
  | status io status =>
    cases status with
    | «continue» => exact of_eq rfl rfl
    | again => exact of_eq rfl rfl
    | error =>
      have h : OpensIn (s.setIo id e io) ((s.setIo id e io).cleanupContext id { e with io } rest)
          fds := cleanupContext _ rest
      exact ⟨h.opened, h.listenFd⟩
  | abort => exact of_eq rfl rfl
  | raise => exact of_eq rfl rfl

theorem serveSocket (s : Reactor κ υ) (f : Flags) (batch : Batch) :
    OpensIn s (s.serveSocket id f batch) fds := by
  unfold Reactor.serveSocket
  cases s.heap id with
  | none => exact of_eq rfl rfl
  | some e =>
    dsimp only
    split_ifs
    · exact cleanupContext s _
    all_goals exact of_eq rfl rfl

theorem serveTimer (s : Reactor κ υ) (f : Flags) (batch : Batch) :
    OpensIn s (s.serveTimer svc id f batch) fds := by
  unfold Reactor.serveTimer
  cases s.heap id with
  | none => exact of_eq rfl rfl
  | some e =>
    dsimp only
    split_ifs
    · exact cleanupContext s _
    · exact settle s _ _ _
    · exact of_eq rfl rfl

theorem branchOn (s : Reactor κ υ) (e : Option MasterEvent) : OpensIn s (s.branchOn e) fds := by
  rcases e with _ | _ | _ | _ <;> exact of_eq rfl rfl

theorem acceptContext (hsvc : svc.Admits) (s : Reactor κ υ) (mem : μ) (infd timerFd : ℕ) :
    OpensIn s (s.acceptContext svc mem infd timerFd) [infd, timerFd] := by
  refine ⟨fun fd hfd => ?_, by rw [acceptContext_eq (hsvc mem).1]⟩
  rcases (mem_acceptContext_openFds (hsvc mem).1).mp hfd with ⟨-, rfl⟩ | rfl | hfd
  · exact Or.inr (List.mem_cons_of_mem _ (List.mem_singleton_self _))
  · exact Or.inr List.mem_cons_self
  · exact Or.inl hfd

/-- **Every step** opens what the kernel gives out in it, and nothing else. -/
theorem of_steps (hsvc : svc.Admits) (hs : s.Steps svc l t) : OpensIn s t l.opens := by
  cases hs with
  | socket => exact serveSocket s _ _
  | timer => exact serveTimer s _ _
  | branch => exact branchOn s _
  | @branchUninit garbage =>
    have h : OpensIn s (s.branchOn garbage) [] := branchOn s garbage
    exact ⟨h.opened, h.listenFd⟩
  | accept => exact acceptContext hsvc s _ _ _
  | read => exact settle s _ _ _
  | readClose => exact cleanupContext s _
  | write => exact settle s _ _ _
  | _ => exact of_eq rfl rfl

end OpensIn

end Yotta.Core.Reactor
