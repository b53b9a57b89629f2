import Yotta.Core.Contexts
import Yotta.Core.Delivery

/-!
# The traffic of a worker

A worker serves its contexts in turns. What happens to one of them, and what is written to its
socket, is what happens to a context that is alone.

Results:
* `contextSteps_of_step`: a step transfers something for one context and leaves the others
  alone.
* `traced_of_run`: every run of a worker is a run of each of its contexts.
-/

namespace Yotta.Core

variable {κ υ ε μ : Type}

/-! ## One context -/

/-- What calls a handler of a context. -/
inductive Transfer
  /-- `read` returns bytes; `fd` is what `open` would return next. -/
  | read (xs : List UInt8) (fd : ℕ)
  /-- `write` or `sendfile` returns. -/
  | write (r : SysResult)
  /-- The timer expires. -/
  | timer
deriving DecidableEq

/-- The context that a handler returns. -/
def Handled.ctx? : Handled κ υ ε → Option (Ctx κ υ)
  | .status ctx _ => some ctx
  | .abort => none
  | .raise _ => none

/-- What a transfer puts on the socket. -/
def Ctx.puts (ctx : Ctx κ υ) : Transfer → List UInt8
  | .write r => ctx.put r
  | _ => []

/-- The handler of a transfer, where the kernel may make it. -/
def Service.handle (svc : Service κ υ ε μ) (ctx : Ctx κ υ) : Transfer → Option (Handled κ υ ε)
  | .read xs fd =>
    if ctx.readCallback.isSome ∧ xs ≠ [] ∧ xs.length ≤ ctx.toRead ∧ fd ≠ 0 ∧
        ctx.sys.file fd = none then
      some (onRead svc.toApp { ctx with sys := { ctx.sys with nextFd := fd } } xs)
    else none
  | .write r =>
    if ctx.writeCallback.isSome ∧ Allowed ctx.available r then some (writeHandle svc.toApp ctx r)
    else none
  | .timer => some (afterCallback (svc.timer ctx))

/-- A transfer for a context, with everything written to its socket. -/
def contextStep (svc : Service κ υ ε μ) (x : Ctx κ υ × List UInt8) (a : Transfer) :
    Option (Ctx κ υ × List UInt8) :=
  ((svc.handle x.1 a).bind Handled.ctx?).map fun ctx => (ctx, x.2 ++ x.1.puts a)

/-- Accepted in memory that holds `mem`, a context has come to `ctx`. -/
def Service.Lived (svc : Service κ υ ε μ) (mem : μ) (as : List Transfer) (sent : List UInt8)
    (ctx : Ctx κ υ) : Prop :=
  exec (contextStep svc) ((svc.accept mem).io, []) as = some (ctx, sent)

/-- All that has happened to a context; the last transfer may have ended the worker. -/
inductive History (svc : Service κ υ ε μ) (mem : μ) : List Transfer → List UInt8 → Prop
  | lived {as : List Transfer} {sent : List UInt8} {ctx : Ctx κ υ} :
    svc.Lived mem as sent ctx → History svc mem as sent
  | ended {as : List Transfer} {sent : List UInt8} {ctx : Ctx κ υ} {a : Transfer}
      {h : Handled κ υ ε} : svc.Lived mem as sent ctx → svc.handle ctx a = some h →
    h.ctx? = none → History svc mem (as ++ [a]) (sent ++ ctx.puts a)

section

variable {svc : Service κ υ ε μ} {mem : μ} {as : List Transfer} {sent : List UInt8}
variable {ctx ctx' : Ctx κ υ} {a : Transfer} {h : Handled κ υ ε}

theorem Service.Lived.snoc (hlived : svc.Lived mem as sent ctx)
    (hhandle : svc.handle ctx a = some h) (hctx : h.ctx? = some ctx') :
    svc.Lived mem (as ++ [a]) (sent ++ ctx.puts a) ctx' := by
  have hstep : contextStep svc (ctx, sent) a = some (ctx', sent ++ ctx.puts a) := by
    rw [contextStep, hhandle, Option.bind_some, hctx]
    rfl
  rw [Service.Lived, exec_append, hlived, Option.bind_some, exec, hstep]
  rfl

theorem Service.Lived.history (hlived : svc.Lived mem as sent ctx)
    (hhandle : svc.handle ctx a = some h) : History svc mem (as ++ [a]) (sent ++ ctx.puts a) := by
  cases hctx : h.ctx? with
  | some ctx' => exact .lived (hlived.snoc hhandle hctx)
  | none => exact .ended hlived hhandle hctx

end

/-! ## All contexts -/

/-- What has happened to the contexts of a worker. -/
structure Traffic where
  transfers : ℕ → List Transfer
  sent : ℕ → List UInt8

namespace Traffic

def empty : Traffic := { transfers := fun _ => [], sent := fun _ => [] }

/-- A transfer for the context `id`. -/
def push (tr : Traffic) (id : ℕ) (ctx : Ctx κ υ) (a : Transfer) : Traffic where
  transfers := Function.update tr.transfers id (tr.transfers id ++ [a])
  sent := Function.update tr.sent id (tr.sent id ++ ctx.puts a)

end Traffic

/-- The process is there. -/
def Stage.Running (stage : Stage) : Prop := stage ≠ .aborted ∧ stage ≠ .raised

namespace Reactor

/-- The context that a step calls a handler of, and why. -/
def transferOf (s : Reactor κ υ) : Label μ → Option (ℕ × Transfer)
  | .read xs fd =>
    match s.stage with
    | .reading id _ _ => some (id, .read xs fd)
    | _ => none
  | .write r =>
    match s.stage with
    | .writing id _ => some (id, .write r)
    | _ => none
  | .next =>
    match s.stage with
    | .timers ((id, f) :: _) =>
      if f.inp ∧ f.failed = false ∧ (s.heap id).isSome then some (id, .timer) else none
    | _ => none
  | _ => none

/-- The traffic after a step. -/
def traffic (s : Reactor κ υ) (tr : Traffic) (l : Label μ) : Traffic :=
  match s.transferOf l with
  | none => tr
  | some (id, a) =>
    match s.heap id with
    | none => tr
    | some e => tr.push id e.io a

/-- One step of the worker, with its traffic. -/
def tracedStep (svc : Service κ υ ε μ) (x : Reactor κ υ × Traffic) (l : Label μ) :
    Option (Reactor κ υ × Traffic) :=
  (step svc x.1 l).map fun s => (s, x.1.traffic x.2 l)

/-- The traffic is a record: it takes no part in what the worker does. -/
theorem exec_tracedStep (svc : Service κ υ ε μ) (x : Reactor κ υ × Traffic) (ls : List (Label μ)) :
    (exec (tracedStep svc) x ls).map Prod.fst = exec (step svc) x.1 ls := by
  induction ls generalizing x with
  | nil => rfl
  | cons l ls ih =>
    rw [exec, exec, tracedStep]
    cases hstep : step svc x.1 l with
    | none => rfl
    | some s => exact ih (s, x.1.traffic x.2 l)

/-- What a step does to the contexts, rule by rule. -/
inductive ContextSteps (svc : Service κ υ ε μ) (s t : Reactor κ υ) :
    Option (ℕ × Transfer) → Prop
  /-- Contexts are cleaned up, or nothing happens to them. -/
  | quiet : t.nextId = s.nextId → (∀ i e, t.heap i = some e → s.heap i = some e) →
    ContextSteps svc s t none
  /-- There is a new context. -/
  | accept (mem : μ) : t.nextId = s.nextId + 1 →
    (∀ i e, t.heap i = some e → s.heap i = some e ∨ i = s.nextId ∧ e.io = (svc.accept mem).io) →
    ContextSteps svc s t none
  | transfer {id : ℕ} {a : Transfer} {e : Entry κ υ} {h : Handled κ υ ε} :
    t.nextId = s.nextId → s.heap id = some e → svc.handle e.io a = some h →
    (∀ i, s.heap i = none → t.heap i = none) →
    (∀ i e', t.heap i = some e' → t.stage.Running →
      i ≠ id ∧ s.heap i = some e' ∨ i = id ∧ h.ctx? = some e'.io) →
    ContextSteps svc s t (some (id, a))

variable {svc : Service κ υ ε μ} {s t : Reactor κ υ}

theorem contextSteps_withStage (s : Reactor κ υ) (stage : Stage) :
    ContextSteps svc s { s with stage } none :=
  .quiet rfl fun _ _ he => he

theorem contextSteps_cleanupContext (s : Reactor κ υ) (id : ℕ) (e : Entry κ υ) (stage : Stage) :
    ContextSteps svc s (s.cleanupContext id e stage) none :=
  .quiet (cleanupContext_nextId ..) fun _ _ he => (cleanupContext_heap_eq_some.mp he).1

theorem contextSteps_settle {id : ℕ} {e : Entry κ υ} {a : Transfer} {h : Handled κ υ ε}
    (he : s.heap id = some e) (hhandle : svc.handle e.io a = some h) (stage rest : Stage) :
    ContextSteps svc s (s.settle id e stage rest h) (some (id, a)) := by
  have hset {io : Ctx κ υ} {i : ℕ} {e' : Entry κ υ} (he' : (s.setIo id e io).heap i = some e') :
      i ≠ id ∧ s.heap i = some e' ∨ i = id ∧ some io = some e'.io := by
    unfold setIo at he'
    dsimp only at he'
    by_cases hi : i = id
    · rw [hi, Function.update_self] at he'
      cases he'
      exact Or.inr ⟨hi, rfl⟩
    · rw [Function.update_of_ne hi] at he'
      exact Or.inl ⟨hi, he'⟩
  have hnone {io : Ctx κ υ} {i : ℕ} (hi : s.heap i = none) : (s.setIo id e io).heap i = none := by
    have hne : i ≠ id := by
      rintro rfl
      rw [hi] at he
      cases he
    exact (Function.update_of_ne hne _ _).trans hi
  rcases h with ⟨io, _ | _ | _⟩ | _ | error
  · exact .transfer rfl he hhandle (fun _ hi => hnone hi) fun i e' he' _ => hset he'
  · exact .transfer rfl he hhandle (fun _ hi => hnone hi) fun i e' he' _ => hset he'
  · refine .transfer (cleanupContext_nextId ..) he hhandle (fun i hi => ?_) fun i e' he' _ =>
      hset (cleanupContext_heap_eq_some.mp he').1
    change ((s.setIo id e io).cleanupContext id { e with io } rest).heap i = none
    rw [cleanupContext_heap]
    by_cases hid : i = id
    · rw [hid, Function.update_self]
    · rw [Function.update_of_ne hid]
      exact hnone hi
  · exact .transfer rfl he hhandle (fun _ hi => hi) fun i e' _ hrun => absurd rfl hrun.1
  · exact .transfer rfl he hhandle (fun _ hi => hi) fun i e' _ hrun => absurd rfl hrun.2

theorem contextSteps_leaveReadLoop (s : Reactor κ υ) (id : ℕ) (out : Bool) (batch : Batch) :
    ContextSteps svc s (s.leaveReadLoop id out batch) none :=
  contextSteps_withStage s _

theorem contextSteps_serveSocket (s : Reactor κ υ) (id : ℕ) (f : Flags) (batch : Batch) :
    ContextSteps svc s (s.serveSocket id f batch) none := by
  unfold serveSocket
  split
  · exact contextSteps_withStage s _
  · split_ifs
    · exact contextSteps_cleanupContext s id _ _
    · exact contextSteps_withStage s _
    · exact contextSteps_withStage s _
    · exact contextSteps_leaveReadLoop s id f.out batch

theorem contextSteps_branchOn (s : Reactor κ υ) (e : Option MasterEvent) :
    ContextSteps svc s (s.branchOn e) none := by
  rcases e with _ | _ | _ | _
  · exact .quiet rfl fun _ _ he => he
  · exact .quiet rfl fun _ _ he => he
  · exact .quiet rfl fun _ _ he => he
  · refine .quiet rfl fun i e he => ?_
    change Function.update s.heap 0 none i = some e at he
    by_cases hi : i = 0
    · rw [hi, Function.update_self] at he
      cases he
    · rwa [Function.update_of_ne hi] at he

theorem contextSteps_acceptContext (svc : Service κ υ ε μ) (s : Reactor κ υ) (mem : μ)
    (infd timerFd : ℕ) : ContextSteps svc s (s.acceptContext svc mem infd timerFd) none := by
  have hnext : (s.acceptContext svc mem infd timerFd).nextId = s.nextId + 1 := by
    unfold acceptContext
    dsimp only
    split <;> split_ifs <;> rfl
  refine .accept mem hnext fun i e he => ?_
  by_cases hi : i = s.nextId
  · refine Or.inr ⟨hi, ?_⟩
    subst hi
    unfold acceptContext free closeFd at he
    dsimp only at he
    split at he <;> split_ifs at he <;> simp [Admission.entry] at he <;> simp [← he]
  · refine Or.inl ?_
    unfold acceptContext free closeFd at he
    dsimp only at he
    split at he <;> split_ifs at he <;> simpa [hi] using he

theorem contextSteps_serveTimer (svc : Service κ υ ε μ) (s : Reactor κ υ) (id : ℕ) (f : Flags)
    (batch : Batch) :
    ContextSteps svc s (s.serveTimer svc id f batch)
      (if f.inp ∧ f.failed = false ∧ (s.heap id).isSome then some (id, .timer) else none) := by
  unfold serveTimer
  cases he : s.heap id with
  | none =>
    rw [if_neg (by simp)]
    exact contextSteps_withStage s _
  | some e =>
    dsimp only
    by_cases hfailed : f.failed
    · rw [if_pos hfailed, if_neg (by simp [hfailed])]
      exact contextSteps_cleanupContext s id _ _
    · rw [if_neg hfailed]
      by_cases hinp : f.inp
      · rw [if_pos hinp, if_pos (by simp [hfailed, hinp])]
        exact contextSteps_settle he rfl _ _
      · rw [if_neg hinp, if_neg (by simp [hinp])]
        exact contextSteps_withStage s _

/-- Without a system call, only an expired timer calls a handler. -/
theorem contextSteps_of_next (h : s.next svc = some t) :
    ContextSteps svc s t (s.transferOf (.next : Label μ)) := by
  unfold next at h
  unfold transferOf
  cases hstage : s.stage with
  | test =>
    rw [hstage] at h
    cases h
    exact contextSteps_withStage s _
  | sockets batch =>
    rw [hstage] at h
    cases batch with
    | nil =>
      cases h
      exact contextSteps_withStage s _
    | cons x batch =>
      cases h
      exact contextSteps_serveSocket s _ _ _
  | timers batch =>
    rw [hstage] at h
    cases batch with
    | nil =>
      cases h
      exact contextSteps_withStage s _
    | cons x batch =>
      cases h
      exact contextSteps_serveTimer svc s x.1 x.2 batch
  | reading id out batch =>
    rw [hstage] at h
    dsimp only at h
    split at h
    · cases h
      exact contextSteps_withStage s _
    · split_ifs at h
      cases h
      exact contextSteps_leaveReadLoop s id out batch
  | writing id batch =>
    rw [hstage] at h
    dsimp only at h
    split at h
    · cases h
      exact contextSteps_withStage s _
    · split_ifs at h
      cases h
      exact contextSteps_withStage s _
  | _ =>
    rw [hstage] at h
    cases h

/-- **Every step** calls a handler of the one context that it transfers something for, adds a
context, or lets contexts be. -/
theorem contextSteps_of_step {l : Label μ} (h : step svc s l = some t) :
    ContextSteps svc s t (s.transferOf l) := by
  cases l with
  | next => exact contextSteps_of_next h
  | deliver e =>
    unfold step at h
    dsimp only at h
    split_ifs at h
    cases h
    exact .quiet rfl fun _ _ he => he
  | interrupt =>
    unfold step at h
    dsimp only at h
    split_ifs at h
    cases h
    exact .quiet rfl fun _ _ he => he
  | branch garbage =>
    unfold step at h
    dsimp only at h
    split_ifs at h
    split at h
    · cases h
      have hsteps : ContextSteps svc s (s.branchOn garbage) none := contextSteps_branchOn s garbage
      cases hsteps with
      | quiet hnext hheap => exact .quiet hnext hheap
      | accept mem hnext hheap => exact .accept mem hnext hheap
    · cases h
      exact contextSteps_branchOn s _
  | epoll events =>
    unfold step at h
    dsimp only at h
    split at h
    · split_ifs at h
      cases h
      exact contextSteps_withStage s _
    · split_ifs at h
      cases h
      exact contextSteps_withStage s _
    · cases h
  | epollError =>
    unfold step at h
    dsimp only at h
    split_ifs at h
    cases h
    exact contextSteps_withStage s _
  | accept mem infd timerFd =>
    unfold step at h
    dsimp only at h
    split at h
    · split_ifs at h
      cases h
      exact contextSteps_acceptContext svc s mem infd timerFd
    · cases h
  | acceptError =>
    unfold step at h
    dsimp only at h
    split at h
    · cases h
      exact contextSteps_withStage s _
    · cases h
  | acceptExit =>
    unfold step at h
    dsimp only at h
    split at h
    · cases h
      exact contextSteps_withStage s _
    · cases h
  | read xs fd =>
    unfold step at h
    unfold transferOf
    dsimp only at h ⊢
    split at h
    · next hstage =>
      split at h
      · cases h
      · next he =>
        split_ifs at h with hguard
        cases h
        have hhandle : svc.handle _ (.read xs fd) = some _ := if_pos hguard
        simpa only [hstage] using contextSteps_settle he hhandle _ _
    · cases h
  | readFailure r =>
    unfold step at h
    dsimp only at h
    split at h
    · split at h
      · cases h
      · split_ifs at h
        cases r with
        | again =>
          cases h
          exact contextSteps_leaveReadLoop s _ _ _
        | error | eof =>
          cases h
          exact contextSteps_cleanupContext s _ _ _
    · cases h
  | write r =>
    unfold step at h
    unfold transferOf
    dsimp only at h ⊢
    split at h
    · next hstage =>
      split at h
      · cases h
      · next he =>
        split_ifs at h with hguard
        cases h
        have hhandle : svc.handle _ (.write r) = some _ := if_pos hguard
        simpa only [hstage] using contextSteps_settle he hhandle _ _
    · cases h

/-- A process that has died takes no step. -/
theorem running_of_step {l : Label μ} (h : step svc s l = some t) : s.stage.Running := by
  constructor <;> intro hstage <;> cases l <;> simp [step, next, hstage] at h

/-! ## Runs -/

/-- The traffic `x.2` is that of the contexts of `x.1`. -/
structure Traced (svc : Service κ υ ε μ) (x : Reactor κ υ × Traffic) : Prop where
  pos : 0 < x.1.nextId
  fresh : ∀ id, x.1.nextId ≤ id →
    x.1.heap id = none ∧ x.2.transfers id = [] ∧ x.2.sent id = []
  /-- In a process that is there, every context is where its transfers lead. -/
  context : ∀ id e, x.1.heap id = some e → id ≠ 0 → x.1.stage.Running →
    ∃ mem, svc.Lived mem (x.2.transfers id) (x.2.sent id) e.io
  history : ∀ id, id ≠ 0 → id < x.1.nextId →
    ∃ mem, History svc mem (x.2.transfers id) (x.2.sent id)

theorem traced_create (listenFd : ℕ) (ctx : Ctx κ υ) :
    Traced svc (create listenFd ctx, Traffic.empty) := by
  have hheap (id : ℕ) (hid : id ≠ 0) : (create listenFd ctx).heap id = none := by
    simp [create, hid]
  refine ⟨Nat.one_pos, fun id hid => ⟨hheap id (Nat.ne_of_gt hid), rfl, rfl⟩, ?_, ?_⟩
  · intro id e he hid
    rw [hheap id hid] at he
    cases he
  · intro id hid hlt
    exact absurd (Nat.lt_one_iff.mp hlt) hid

variable {tr : Traffic}

theorem Traced.quiet (h : Traced svc (s, tr)) (hrun : s.stage.Running)
    (hnext : t.nextId = s.nextId) (hheap : ∀ i e, t.heap i = some e → s.heap i = some e) :
    Traced svc (t, tr) where
  pos := hnext ▸ h.pos
  fresh id hid := by
    obtain ⟨hnone, htraffic⟩ := h.fresh id (hnext ▸ hid)
    refine ⟨?_, htraffic⟩
    by_contra hsome
    obtain ⟨e, he⟩ := Option.ne_none_iff_exists'.mp hsome
    have he' := hheap id e he
    rw [hnone] at he'
    cases he'
  context id e he hid _ := h.context id e (hheap id e he) hid hrun
  history id hid hlt := h.history id hid (hnext ▸ hlt)

theorem Traced.accept (h : Traced svc (s, tr)) (hrun : s.stage.Running) (mem : μ)
    (hnext : t.nextId = s.nextId + 1)
    (hheap : ∀ i e, t.heap i = some e →
      s.heap i = some e ∨ i = s.nextId ∧ e.io = (svc.accept mem).io) :
    Traced svc (t, tr) where
  pos := hnext ▸ Nat.succ_pos _
  fresh id hid := by
    change t.nextId ≤ id at hid
    obtain ⟨hnone, htraffic⟩ := h.fresh id (by dsimp only; omega)
    refine ⟨?_, htraffic⟩
    by_contra hsome
    obtain ⟨e, he⟩ := Option.ne_none_iff_exists'.mp hsome
    rcases hheap id e he with he | ⟨hnew, -⟩
    · rw [hnone] at he
      cases he
    · omega
  context id e he hid _ := by
    rcases hheap id e he with he | ⟨rfl, hio⟩
    · exact h.context id e he hid hrun
    · obtain ⟨-, htransfers, hsent⟩ := h.fresh s.nextId le_rfl
      dsimp only at htransfers hsent ⊢
      rw [htransfers, hsent, hio]
      exact ⟨mem, rfl⟩
  history id hid hlt := by
    by_cases hnew : id = s.nextId
    · obtain ⟨-, htransfers, hsent⟩ := h.fresh id hnew.ge
      dsimp only at htransfers hsent ⊢
      rw [htransfers, hsent]
      exact ⟨mem, .lived rfl⟩
    · exact h.history id hid (by change id < t.nextId at hlt; dsimp only; omega)

theorem Traced.transfer (h : Traced svc (s, tr)) (hrun : s.stage.Running) {id : ℕ}
    {a : Transfer} {e : Entry κ υ} {handled : Handled κ υ ε} (hnext : t.nextId = s.nextId)
    (he : s.heap id = some e) (hhandle : svc.handle e.io a = some handled)
    (hsame : ∀ i, s.heap i = none → t.heap i = none)
    (hheap : ∀ i e', t.heap i = some e' → t.stage.Running →
      i ≠ id ∧ s.heap i = some e' ∨ i = id ∧ handled.ctx? = some e'.io) :
    Traced svc (t, tr.push id e.io a) := by
  have hlt : id < s.nextId := by
    by_contra hge
    rw [(h.fresh id (not_lt.mp hge)).1] at he
    cases he
  have hother {i : ℕ} (hi : i ≠ id) : (tr.push id e.io a).transfers i = tr.transfers i ∧
      (tr.push id e.io a).sent i = tr.sent i :=
    ⟨Function.update_of_ne hi _ _, Function.update_of_ne hi _ _⟩
  have hself : (tr.push id e.io a).transfers id = tr.transfers id ++ [a] ∧
      (tr.push id e.io a).sent id = tr.sent id ++ e.io.puts a :=
    ⟨Function.update_self .., Function.update_self ..⟩
  refine ⟨hnext ▸ h.pos, fun i hi => ?_, fun i e' he' hi hrun' => ?_, fun i hi hi' => ?_⟩
  · change t.nextId ≤ i at hi
    obtain ⟨hnone, htransfers, hsent⟩ := h.fresh i (by dsimp only; omega)
    dsimp only
    rw [(hother (by omega)).1, (hother (by omega)).2]
    exact ⟨hsame i hnone, htransfers, hsent⟩
  · dsimp only
    rcases hheap i e' he' hrun' with ⟨hne, he'⟩ | ⟨rfl, hctx⟩
    · rw [(hother hne).1, (hother hne).2]
      exact h.context i e' he' hi hrun
    · obtain ⟨mem, hlived⟩ := h.context i e he hi hrun
      rw [hself.1, hself.2]
      exact ⟨mem, hlived.snoc hhandle hctx⟩
  · dsimp only
    by_cases hne : i = id
    · subst hne
      obtain ⟨mem, hlived⟩ := h.context i e he hi hrun
      rw [hself.1, hself.2]
      exact ⟨mem, hlived.history hhandle⟩
    · rw [(hother hne).1, (hother hne).2]
      exact h.history i hi (hnext ▸ hi')

/-- **Every step** keeps the record. -/
theorem Traced.step {x y : Reactor κ υ × Traffic} {l : Label μ} (h : Traced svc x)
    (hs : tracedStep svc x l = some y) : Traced svc y := by
  obtain ⟨s, tr⟩ := x
  obtain ⟨t, hstep, rfl⟩ := Option.map_eq_some_iff.mp hs
  have hrun := running_of_step hstep
  have hsteps := contextSteps_of_step hstep
  dsimp only [traffic]
  generalize s.transferOf l = transfer at hsteps
  cases hsteps with
  | quiet hnext hheap => exact h.quiet hrun hnext hheap
  | accept mem hnext hheap => exact h.accept hrun mem hnext hheap
  | @transfer id a e handled hnext he hhandle hsame hheap =>
    dsimp only
    rw [he]
    exact h.transfer hrun hnext he hhandle hsame hheap

/-- **Every run** of a worker, with all of its contexts in turns, is a run of each context
that has been accepted. -/
theorem traced_of_run {listenFd : ℕ} {ctx : Ctx κ υ} {x : Reactor κ υ × Traffic}
    (h : Reaches (tracedStep svc) (create listenFd ctx, Traffic.empty) x) : Traced svc x :=
  h.invariant (traced_create listenFd ctx) fun _ _ _ hx _ hs => hx.step hs

end Reactor

end Yotta.Core
