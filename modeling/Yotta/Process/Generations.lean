import Yotta.Process.Startup
import Yotta.Server.Serve

/-!
# Generations

A program that is started once makes its listening sockets, and every process that comes out of
it, by `fork` or by an upgrade, in the master or in a worker, has descriptors of all of them.

Results:
* `Instance.Inv.act`: what an act keeps.
* `Inv.step`: every step keeps the invariant of the population.
* `sockets_survive`: in every run, no process that has got as far as its listening sockets has
  lost one of them, no further one is made, and each worker serves its own.
-/

namespace Yotta.Process

open Yotta.Bytes Yotta.Core Yotta.Numeral Yotta.Population Yotta.Server

variable {κ υ ε μ : Type}

/-! ## The system -/

/-- All processes, and the listening sockets that have been made. -/
structure Generations (κ υ : Type) where
  instances : Population ℕ (Instance κ υ)
  sockets : List Socket

namespace Generations

/-- The process `pid` acts; `child` is the pid that `fork` returns. -/
structure Label (κ υ μ : Type) where
  pid : ℕ
  child : ℕ
  act : Instance.Act κ υ μ

/-- What `act` does in the system. -/
def apply (o : ArgumentOptions) (s : Generations κ υ) (l : Label κ υ μ)
    (e : Effect (Instance κ υ)) : Option (Generations κ υ) :=
  if e.child.isSome → l.child ≠ 0 ∧ s.instances l.child = none then
    some { instances := s.instances.act l.pid l.child e, sockets := s.sockets ++ l.act.made o }
  else none

def step (getopt : Argv → List (Char × List UInt8)) (svc : Service κ υ ε μ)
    (s : Generations κ υ) (l : Label κ υ μ) : Option (Generations κ υ) :=
  (s.instances l.pid).bind fun p =>
    (p.act getopt svc s.sockets.length l.child l.act).bind fun e =>
      s.apply (getProgramOpts getopt p.argv) l e

/-- One process, which has been started without `listen_fds` in its environment, and with the
descriptors `opened`. -/
def init (pid : ℕ) (argv : Argv) (opened : List ℕ) : Generations κ υ where
  instances :=
    single pid (.main argv none fun fd => if fd ∈ opened then some .other else none)
  sockets := []

/-- No error is reported of a listening socket alone, and SIGUSR1 comes to no worker that has
freed `listen_fds`. -/
def Calm (s : Generations κ υ) (l : Label κ υ μ) : Prop :=
  match l.act with
  | .react l => Reactor.Calm l
  | .upgrade _ _ => ∀ p ∈ s.instances l.pid, p.hasFreed = false
  | _ => True

end Generations

/-! ## Descriptors -/

/-- The `i`-th entry is a descriptor of the `i`-th listening socket. -/
def Refers (fds : FdTable) (listenFds : List ℤ) : Prop :=
  ∀ ⦃i fd⦄, listenFds[i]? = some fd →
    (0 ≤ fd ∧ fd < 2 ^ 31) ∧ fds fd.toNat = some (.listener i)

namespace Refers

variable {fds fds' : FdTable} {listenFds : List ℤ}

/-- The listening sockets stay where they are. -/
theorem mono (h : Refers fds listenFds)
    (hkeep : ∀ fd i, fds fd = some (.listener i) → fds' fd = some (.listener i)) :
    Refers fds' listenFds :=
  fun _ _ hfd => ⟨(h hfd).1, hkeep _ _ (h hfd).2⟩

/-- A descriptor that is not one of a listening socket changes. -/
theorem update (h : Refers fds listenFds) {fd : ℕ} {o : Option Object}
    (hother : ∀ i, fds fd ≠ some (.listener i)) : Refers (Function.update fds fd o) listenFds := by
  apply h.mono
  intro fd' i hfd'
  rw [Function.update_of_ne]
  · exact hfd'
  · rintro rfl
    exact hother i hfd'

/-- A new listening socket. -/
theorem concat (h : Refers fds listenFds) {fd : ℕ} (hnew : fds fd = none) (hlt : fd < 2 ^ 31) :
    Refers (Function.update fds fd (some (.listener listenFds.length)))
      (listenFds ++ [(fd : ℤ)]) := by
  have hold : Refers (Function.update fds fd (some (.listener listenFds.length))) listenFds :=
    h.update fun i => by rw [hnew]; exact nofun
  intro i d hd
  rcases Nat.lt_trichotomy i listenFds.length with hi | rfl | hi
  · rw [List.getElem?_append_left hi] at hd
    exact hold hd
  · rw [List.getElem?_concat_length] at hd
    obtain rfl := Option.some.inj hd
    exact ⟨⟨Int.natCast_nonneg _, by exact_mod_cast hlt⟩, Function.update_self ..⟩
  · rw [List.getElem?_eq_none (by rw [List.length_append, List.length_singleton]; omega)] at hd
    cases hd

theorem bounds (h : Refers fds listenFds) : ∀ fd ∈ listenFds, 0 ≤ fd ∧ fd < 2 ^ 31 := by
  intro fd hfd
  obtain ⟨i, hi⟩ := List.mem_iff_getElem?.mp hfd
  exact (h hi).1

/-- All listening sockets have a descriptor. -/
theorem exists_fd (h : Refers fds listenFds) {i : ℕ} (hi : i < listenFds.length) :
    ∃ fd, fds fd = some (.listener i) :=
  ⟨_, (h (List.getElem?_eq_getElem hi)).2⟩

end Refers

/-! ## The environment -/

/-- What `get_listen_fds` makes of the text of as many descriptors as there are workers. -/
theorem parseListenFdsEnv_fdsText {listenFds : List ℤ}
    (h : ∀ fd ∈ listenFds, 0 ≤ fd ∧ fd < 2 ^ 31) :
    parseListenFdsEnv (fdsText listenFds) listenFds.length = listenFds := by
  rw [parseListenFdsEnv, listenFdsStores, parseLoop_fdsText h 0 _ (length_le_fdsText listenFds)]
  exact foldl_set_zipIdx [] listenFds

/-- The environment of what an upgrade executes. -/
theorem getenv_cstr_createListenFdsEnv {listenFds : List ℤ} (hne : listenFds ≠ [])
    (h : ∀ fd ∈ listenFds, 0 ≤ fd ∧ fd < 2 ^ 31) :
    getenv (cstr (createListenFdsEnv listenFds listenFds.length)) = fdsText listenFds := by
  rw [← getenv_createListenFdsEnv hne fun fd hfd => (h fd hfd).1]
  unfold getenv cstr
  rw [List.takeWhile_takeWhile]
  simp

/-! ## The handler -/

variable {c : Calls} {u : Upgrader}

/-- `upgrade_handler` leaves the stored variables alone. -/
theorem upgradeHandler_master (c : Calls) (u : Upgrader) :
    ((upgradeHandler c u).master.proc = u.proc ∨
      (upgradeHandler c u).master.proc = { u.proc with upgraded := true }) ∧
    (upgradeHandler c u).master.storedArgv = u.storedArgv ∧
    (upgradeHandler c u).master.storedListenFds = u.storedListenFds := by
  unfold upgradeHandler
  split
  · exact ⟨Or.inl rfl, rfl, rfl⟩
  · split_ifs
    · exact ⟨Or.inl rfl, rfl, rfl⟩
    · exact ⟨Or.inl rfl, rfl, rfl⟩
    · unfold upgradeRenamed
      split
      · exact ⟨Or.inr rfl, rfl, rfl⟩
      · exact ⟨Or.inl rfl, rfl, rfl⟩

/-- What a child of `upgrade_handler` executes. -/
theorem upgradeHandler_binary {b : Binary} (h : (upgradeHandler c u).binary = some b) :
    ∃ listenFds, u.storedListenFds = some listenFds ∧ u.storedArgv = some b.argv ∧
      b.env = cstr (createListenFdsEnv listenFds u.proc.workerCount) := by
  unfold upgradeHandler at h
  split at h
  · cases h
  · split_ifs at h
    unfold upgradeRenamed at h
    split at h
    · next listenFds _ hfds =>
      dsimp only at h
      split_ifs at h
      unfold upgradeChild at h
      split_ifs at h
      obtain ⟨argv, hargv, rfl⟩ := Option.map_eq_some_iff.mp h
      exact ⟨listenFds, hfds, hargv, rfl⟩
    · cases h

/-! ## Instances -/

/-- `worker_count` has been written. -/
def Proc.Published (p : Proc) : Prop := p.pc ∉ [.start, .pidfile, .publish]

namespace Proc

variable {workers : ℕ} {p p' : Proc}

theorem Placed.workerCount (h : p.Placed workers) (hpub : p.Published) :
    p.workerCount = workers := by
  unfold Published at hpub
  unfold Placed at h
  cases hpc : p.pc <;> rw [hpc] at h hpub <;> first | exact h | exact h.1 | simp at hpub

theorem Published.advance (h : p.Published) (hp : p.advance workers = some p') :
    p'.Published := by
  unfold Published at h
  unfold Proc.advance at hp
  cases hpc : p.pc <;> rw [hpc] at hp h <;> dsimp only at hp <;> cases hp
  case start => simp at h
  case pidfile => simp at h
  case publish => simp at h
  all_goals
    unfold Published
    try split_ifs
    all_goals simp

theorem published_afterFork {pc : Pc} (hpc : p.afterFork = some pc) (pid : ℕ) :
    Published { p with workerPid := pid, pc } := by
  unfold Proc.afterFork at hpc
  unfold Published
  split at hpc <;> cases hpc <;> simp

end Proc

namespace Instance

/-- The listening sockets are not made yet, or have come with the environment. -/
def Env (n made : ℕ) (p : Instance κ υ) : Prop :=
  p.env = none ∧ made = 0 ∨
    made = n ∧ ∃ env listenFds, p.env = some env ∧ Process.getenv env = fdsText listenFds ∧
      listenFds.length = n ∧ Refers p.fds listenFds

/-- `listen_fds` is complete. -/
structure Ready (n : ℕ) (p : Instance κ υ) : Prop where
  length : p.listenFds.length = n
  refers : Refers p.fds p.listenFds
  placed : p.proc.Placed n
  stored : ∀ ⦃listenFds⦄, p.storedListenFds = some listenFds →
    listenFds = p.listenFds ∧ p.proc.Published

/-- The worker listens on its own socket. -/
structure Serves (p : Instance κ υ) (r : Reactor κ υ) : Prop where
  listens : r.Listens
  served : p.proc.served (p.listenFds.map Int.toNat) = some r.listenFd
  connections : ∀ fd ∈ r.openFds, fd ≠ r.listenFd → p.fds fd = some .connection

/-- What holds where the process is. -/
def StageSound (n made : ℕ) (p : Instance κ υ) : RunStage κ υ → Prop
  | .start => p.Env n made ∧ p.storedListenFds = none ∧ p.proc.pc = .start
  | .ready => p.Env n made ∧ p.storedListenFds = none ∧ p.proc.pc = .start
  | .listen => (made = p.listenFds.length ∧ made ≤ n ∧ Refers p.fds p.listenFds) ∧
    p.storedListenFds = none ∧ p.proc.pc = .start
  | .fork => made = n ∧ p.Ready n
  | .serve r => made = n ∧ p.Ready n ∧ p.Serves r
  | .freed => made = n ∧ p.listenFds.length = n ∧ Refers p.fds p.listenFds

structure Inv (getopt : Argv → List (Char × List UInt8)) (o : ArgumentOptions) (made : ℕ)
    (p : Instance κ υ) : Prop where
  options : getProgramOpts getopt p.argv = o
  stage : p.StageSound o.workers.toNat made p.stage
  storedArgv : ∀ ⦃argv⦄, p.storedArgv = some argv → argv = p.argv

variable {getopt : Argv → List (Char × List UInt8)} {svc : Service κ υ ε μ} {o : ArgumentOptions}
variable {n made child : ℕ} {p : Instance κ υ} {a : Act κ υ μ} {e : Effect (Instance κ υ)}

theorem Ready.served (h : p.Ready n) {fd : ℕ}
    (hfd : p.proc.served (p.listenFds.map Int.toNat) = some fd) :
    ∃ i < n, p.proc.workerId = i ∧ p.fds fd = some (.listener i) := by
  unfold Proc.served at hfd
  split_ifs at hfd with hpc
  have hplaced := h.placed
  unfold Proc.Placed at hplaced
  rw [hpc] at hplaced
  obtain ⟨-, i, hi, hid⟩ := hplaced
  rw [hid, Int.toNat_natCast, List.getElem?_map] at hfd
  obtain ⟨d, hd, rfl⟩ := Option.map_eq_some_iff.mp hfd
  exact ⟨i, hi, hid, (h.refers hd).2⟩

/-! ### Descriptors of other things -/

theorem Inv.setFds (h : p.Inv getopt o made) {fd : ℕ} {x : Option Object}
    (hother : p.fds fd = none ∨ p.fds fd = some .other) :
    Inv getopt o made { p with fds := Function.update p.fds fd x } := by
  have hlistener (i : ℕ) : p.fds fd ≠ some (.listener i) := by
    rcases hother with hfd | hfd <;> rw [hfd] <;> simp
  have henv {n : ℕ} (henv : p.Env n made) :
      Env n made { p with fds := Function.update p.fds fd x } := by
    refine henv.imp_right ?_
    rintro ⟨hmade, env, listenFds, hsome, htext, hlength, hrefers⟩
    exact ⟨hmade, env, listenFds, hsome, htext, hlength, hrefers.update hlistener⟩
  have hready {n : ℕ} {stage : RunStage κ υ} (hready : p.Ready n) :
      Ready n { p with fds := Function.update p.fds fd x, stage } :=
    ⟨hready.length, hready.refers.update hlistener, hready.placed, hready.stored⟩
  refine ⟨h.options, ?_, h.storedArgv⟩
  have hstage := h.stage
  show StageSound _ made _ p.stage
  cases hs : p.stage with
  | start =>
    rw [hs] at hstage
    exact ⟨henv hstage.1, hstage.2⟩
  | ready =>
    rw [hs] at hstage
    exact ⟨henv hstage.1, hstage.2⟩
  | listen =>
    rw [hs] at hstage
    obtain ⟨⟨hmade, hle, hrefers⟩, hstored⟩ := hstage
    exact ⟨⟨hmade, hle, hrefers.update hlistener⟩, hstored⟩
  | fork =>
    rw [hs] at hstage
    exact ⟨hstage.1, hready hstage.2⟩
  | serve r =>
    rw [hs] at hstage
    obtain ⟨hmade, hr, hserves⟩ := hstage
    refine ⟨hmade, hready hr, hserves.listens, hserves.served, fun fd' hfd' hne => ?_⟩
    have hconn := hserves.connections fd' hfd' hne
    show Function.update p.fds fd x fd' = _
    rw [Function.update_of_ne]
    · exact hconn
    · rintro rfl
      rcases hother with hfd | hfd <;> rw [hfd] at hconn <;> cases hconn
  | freed =>
    rw [hs] at hstage
    exact ⟨hstage.1, hstage.2.1, hstage.2.2.update hlistener⟩

/-! ### Serving -/

section Follow

variable {fds : FdTable} {r r' : Reactor κ υ} {l : Reactor.Label μ}

theorem Serves.follow_listener (h : p.Serves r) (hlisten : r'.Listens)
    (hopens : Reactor.OpensIn r r' l.opens) (hfree : ∀ fd ∈ l.opens, p.fds fd = none)
    (fd i : ℕ) (hfd : p.fds fd = some (.listener i)) :
    follow p.fds r r' fd = some (.listener i) := by
  unfold follow
  split_ifs with hnew hold hold
  · exact hfd
  · -- it has not been given out
    rcases hopens.opened fd hnew with hopen | hopen
    · exact absurd hopen hold
    · rw [hfree fd hopen] at hfd
      cases hfd
  · -- it has not been closed
    by_cases hne : fd = r.listenFd
    · exact absurd (hne ▸ hopens.listenFd ▸ hlisten.opened) hnew
    · rw [h.connections fd hold hne] at hfd
      cases hfd
  · exact hfd

theorem Serves.react (h : p.Serves r) (hlisten : r'.Listens)
    (hopens : Reactor.OpensIn r r' l.opens) : (p.reacted r r').Serves r' where
  listens := hlisten
  served := by
    rw [hopens.listenFd]
    exact h.served
  connections fd hfd hne := by
    show follow p.fds r r' fd = some .connection
    unfold follow
    rw [if_pos hfd]
    split_ifs with hold
    · exact h.connections fd hold (hopens.listenFd ▸ hne)
    · rfl

end Follow

/-! ### Signals -/

/-- What `upgrade_handler` leaves behind in the process that it has interrupted. -/
theorem Inv.upgraded (h : p.Inv getopt o made) {u : Outcome}
    (hproc : u.master.proc = p.proc ∨ u.master.proc = { p.proc with upgraded := true })
    (hargv : u.master.storedArgv = p.storedArgv)
    (hfds : u.master.storedListenFds = p.storedListenFds) :
    (p.upgraded u).Inv getopt o made := by
  have hpc : u.master.proc.pc = p.proc.pc := by rcases hproc with hproc | hproc <;> rw [hproc]
  have hid : u.master.proc.workerId = p.proc.workerId := by
    rcases hproc with hproc | hproc <;> rw [hproc]
  have hready {n : ℕ} (hready : p.Ready n) : (p.upgraded u).Ready n := by
    refine ⟨hready.length, hready.refers, ?_, fun listenFds hstored => ?_⟩
    · show u.master.proc.Placed n
      rcases hproc with hproc | hproc <;> rw [hproc]
      · exact hready.placed
      · exact hready.placed.upgraded
    · have hstored' := hready.stored (hfds.symm.trans hstored)
      refine ⟨hstored'.1, ?_⟩
      show u.master.proc.pc ∉ _
      rw [hpc]
      exact hstored'.2
  refine ⟨h.options, ?_, fun argv hstored => h.storedArgv (hargv.symm.trans hstored)⟩
  have hstage := h.stage
  show StageSound _ made _ p.stage
  cases hs : p.stage <;> rw [hs] at hstage
  case start => exact ⟨hstage.1, hfds.trans hstage.2.1, hpc.trans hstage.2.2⟩
  case ready => exact ⟨hstage.1, hfds.trans hstage.2.1, hpc.trans hstage.2.2⟩
  case listen => exact ⟨hstage.1, hfds.trans hstage.2.1, hpc.trans hstage.2.2⟩
  case fork => exact ⟨hstage.1, hready hstage.2⟩
  case serve r =>
    obtain ⟨hmade, hr, hserves⟩ := hstage
    refine ⟨hmade, hready hr, hserves.listens, ?_, hserves.connections⟩
    rw [← hserves.served]
    unfold Proc.served Instance.upgraded
    rw [hpc, hid]
  case freed => exact hstage

/-- The process that `upgrade_handler` executes. -/
theorem Ready.inv_execve (h : p.Ready o.workers.toNat) (hn : 0 < o.workers.toNat)
    (hoptions : getProgramOpts getopt p.argv = o)
    (hargv : ∀ ⦃argv⦄, p.storedArgv = some argv → argv = p.argv) {c : Calls}
    {dir : Directory Name (List UInt8)} {b : Binary}
    (hb : (upgradeHandler c (p.upgrader dir)).binary = some b) :
    Inv getopt o o.workers.toNat (execve (κ := κ) (υ := υ) p.fds b) := by
  obtain ⟨listenFds, hfds, hstored, henv⟩ := upgradeHandler_binary hb
  obtain ⟨rfl, hpub⟩ := h.stored hfds
  have hcount : p.proc.workerCount = p.listenFds.length :=
    (h.placed.workerCount hpub).trans h.length.symm
  have hne : p.listenFds ≠ [] := by
    intro hnil
    have := h.length
    rw [hnil, List.length_nil] at this
    omega
  have hargv' : b.argv = p.argv := hargv hstored
  refine ⟨?_, ?_, nofun⟩
  · show getProgramOpts getopt b.argv = o
    rw [hargv']
    exact hoptions
  · refine ⟨Or.inr ⟨rfl, b.env, p.listenFds, rfl, ?_, h.length, h.refers⟩, rfl, rfl⟩
    have henv' : b.env = cstr (createListenFdsEnv p.listenFds p.listenFds.length) := by
      rw [henv, ← hcount]
      rfl
    rw [henv']
    exact getenv_cstr_createListenFdsEnv hne h.refers.bounds

/-- SIGUSR1 is handled when `listen_fds` is complete. -/
theorem Inv.ready (h : p.Inv getopt o made) (hhandles : p.handlesUpgrade)
    (hfreed : p.hasFreed = false) : made = o.workers.toNat ∧ p.Ready o.workers.toNat := by
  have hstage := h.stage
  unfold handlesUpgrade at hhandles
  unfold hasFreed at hfreed
  cases hs : p.stage <;> rw [hs] at hstage hhandles hfreed
  case fork => exact hstage
  case serve r => exact ⟨hstage.1, hstage.2.1⟩
  case freed => cases hfreed
  all_goals cases hhandles

/-! ### Acts -/

/-- Both that come out of an act satisfy the invariant. -/
def Keeps (getopt : Argv → List (Char × List UInt8)) (o : ArgumentOptions) (made : ℕ)
    (e : Effect (Instance κ υ)) : Prop :=
  (∀ q ∈ e.self, q.Inv getopt o made) ∧ ∀ q ∈ e.child, q.Inv getopt o made

theorem forall_mem_some {P : Instance κ υ → Prop} {q : Instance κ υ} (h : P q) :
    ∀ x ∈ some q, P x := by
  intro x hx
  obtain rfl := Option.mem_some_iff.mp hx
  exact h

theorem forall_mem_none {P : Instance κ υ → Prop} : ∀ x ∈ (none : Option (Instance κ υ)), P x :=
  fun x hx => absurd hx (Option.not_mem_none x)

theorem keeps_self {q : Instance κ υ} (h : q.Inv getopt o made) :
    Keeps getopt o made { self := some q, child := none } :=
  ⟨forall_mem_some h, forall_mem_none⟩

/-- `listen_fds` from the environment. -/
theorem inherited_eq {env : List UInt8} {fds : FdTable} {listenFds : List ℤ}
    (htext : Process.getenv env = fdsText listenFds) (h : Refers fds listenFds) :
    inherited listenFds.length env = listenFds := by
  unfold inherited
  rw [htext]
  exact parseListenFdsEnv_fdsText h.bounds

theorem Env.inherited (h : p.Env n made) {env : List UInt8} (henv : p.env = some env) :
    made = n ∧ (inherited n env).length = n ∧ Refers p.fds (inherited n env) := by
  rcases h with ⟨hnone, -⟩ | ⟨hmade, env', listenFds, hsome, htext, hlength, hrefers⟩
  · rw [henv] at hnone
    cases hnone
  · obtain rfl := Option.some.inj (henv.symm.trans hsome)
    have heq : Instance.inherited n env = listenFds := by
      rw [← hlength]
      exact inherited_eq htext hrefers
    rw [heq]
    exact ⟨hmade, hlength, hrefers⟩

/-- `yta_fork_workers` has been called with a complete `listen_fds`. -/
theorem ready_of_start (hlength : p.listenFds.length = n) (hrefers : Refers p.fds p.listenFds)
    (hstored : p.storedListenFds = none) (hpc : p.proc.pc = .start) : p.Ready n where
  length := hlength
  refers := hrefers
  placed := by
    unfold Proc.Placed
    rw [hpc]
    trivial
  stored listenFds hsome := by
    rw [hstored] at hsome
    cases hsome

/-- **Up to `yta_fork_workers`.** -/
theorem Inv.startAct (h : p.Inv getopt o made) (he : p.startAct o made a = some e) :
    Keeps getopt o (made + (a.made o).length) e := by
  have hstage := h.stage
  unfold Instance.startAct at he
  cases a <;> dsimp only at he
  case daemonize =>
    cases hs : p.stage <;> rw [hs] at he hstage <;> dsimp only at he
    case start =>
      have hready : Inv getopt o made ({ p with stage := .ready } : Instance κ υ) :=
        ⟨h.options, hstage, h.storedArgv⟩
      split_ifs at he <;> cases he
      · exact ⟨forall_mem_none, forall_mem_some hready⟩
      · exact keeps_self hready
    all_goals cases he
  case getenv =>
    cases hs : p.stage <;> cases henv : p.env <;> rw [hs, henv] at he <;> dsimp only at he <;>
      rw [hs] at hstage
    case ready.none =>
      cases he
      obtain ⟨⟨-, hmade⟩ | ⟨-, env, listenFds, hsome, -⟩, hstored⟩ := hstage
      · refine keeps_self ⟨h.options, ⟨⟨hmade, ?_, ?_⟩, hstored⟩, h.storedArgv⟩
        · show made + 0 ≤ _
          omega
        · intro i fd hfd
          cases hfd
      · rw [henv] at hsome
        cases hsome
    case ready.some env =>
      cases he
      obtain ⟨hmade, hlength, hrefers⟩ := hstage.1.inherited henv
      exact keeps_self ⟨h.options,
        ⟨hmade, ready_of_start hlength hrefers hstage.2.1 hstage.2.2⟩, h.storedArgv⟩
    all_goals cases he
  case socket fd =>
    cases hs : p.stage <;> rw [hs] at he hstage <;> dsimp only at he
    case listen =>
      split_ifs at he with hroom
      cases he
      obtain ⟨hlt, hfree, hfd⟩ := hroom
      obtain ⟨⟨rfl, -, hrefers⟩, hstored⟩ := hstage
      refine keeps_self ⟨h.options, ?_, h.storedArgv⟩
      refine ⟨⟨?_, hlt, hrefers.concat hfree hfd⟩, hstored⟩
      show _ = (p.listenFds ++ [(fd : ℤ)]).length
      rw [List.length_append]
      rfl
    all_goals cases he
  case listened =>
    cases hs : p.stage <;> rw [hs] at he hstage <;> dsimp only at he
    case listen =>
      split_ifs at he with hroom
      cases he
      obtain ⟨⟨hmade, hle, hrefers⟩, hstored, hpc⟩ := hstage
      have hlength : p.listenFds.length = o.workers.toNat := by omega
      exact keeps_self ⟨h.options,
        ⟨hmade.trans hlength, ready_of_start hlength hrefers hstored hpc⟩, h.storedArgv⟩
    all_goals cases he
  all_goals cases he

/-- A listening socket is made when one is missing. -/
theorem Inv.lt_of_socket (h : p.Inv getopt o made) {fd : ℕ}
    (he : p.act getopt svc made child (.socket fd) = some e) : made < o.workers.toNat := by
  have hstage := h.stage
  unfold Instance.act at he
  rw [h.options] at he
  cases hs : p.stage <;> rw [hs] at he hstage <;> dsimp only at he
  case listen =>
    unfold Instance.startAct at he
    rw [hs] at he
    dsimp only at he
    split_ifs at he with hroom
    rw [hstage.1.1]
    exact hroom.1
  case fork => cases he
  all_goals
    unfold Instance.startAct at he
    rw [hs] at he
    cases he

theorem startAct_alone (he : p.startAct o made a = some e) :
    e.self = none ∨ e.child = none := by
  unfold Instance.startAct at he
  cases a <;> dsimp only at he
  case daemonize =>
    split at he
    · split_ifs at he <;> cases he
      · exact Or.inl rfl
      · exact Or.inr rfl
    · cases he
  case getenv => split at he <;> cases he <;> exact Or.inr rfl
  case socket =>
    split at he
    · split_ifs at he
      cases he
      exact Or.inr rfl
    · cases he
  case listened =>
    split at he
    · split_ifs at he
      cases he
      exact Or.inr rfl
    · cases he
  all_goals cases he

/-- `yta_fork_workers` goes on. -/
theorem Inv.proc (h : p.Inv getopt o made) (hs : p.stage = .fork) {proc : Proc}
    (hplaced : proc.Placed o.workers.toNat) (hpub : p.proc.Published → proc.Published) :
    Inv getopt o made { p with proc } := by
  have hstage := h.stage
  rw [hs] at hstage
  refine ⟨h.options, ?_, h.storedArgv⟩
  show StageSound _ made _ p.stage
  rw [hs]
  refine ⟨hstage.1, hstage.2.length, hstage.2.refers, hplaced, fun listenFds hstored => ?_⟩
  exact (hstage.2.stored hstored).imp_right hpub

theorem Inv.goOn (h : p.Inv getopt o made) (hs : p.stage = .fork) (hn : 0 < o.workers.toNat)
    {proc : Proc} (hproc : p.proc.advance o.workers.toNat = some proc) :
    (p.goOn o proc).Inv getopt o made := by
  have hstage := h.stage
  rw [hs] at hstage
  have hnext := h.proc hs (hstage.2.placed.advance hn hproc) fun hpub => hpub.advance hproc
  unfold Instance.goOn
  split
  · refine ⟨hnext.options, ?_, hnext.storedArgv⟩
    have hready := hnext.stage
    change StageSound _ made _ p.stage at hready ⊢
    rw [hs] at hready ⊢
    exact ⟨hready.1, hready.2.length, hready.2.refers, hready.2.placed, hready.2.stored⟩
  · next hpc =>
    have hpub : proc.Published := by
      apply Proc.Published.advance _ hproc
      unfold Proc.Published
      rw [hpc]
      simp
    refine ⟨hnext.options, ?_, fun argv hargv => (Option.some.inj hargv).symm⟩
    show StageSound _ made _ p.stage
    rw [hs]
    refine ⟨hstage.1, hstage.2.length, hstage.2.refers, hstage.2.placed.advance hn hproc,
      fun listenFds hstored => ⟨(Option.some.inj hstored).symm, hpub⟩⟩
  · exact hnext

/-- **In `yta_fork_workers`.** -/
theorem Inv.forkAct (h : p.Inv getopt o made) (hs : p.stage = .fork) (hn : 0 < o.workers.toNat)
    (he : p.forkAct o child a = some e) : Keeps getopt o (made + (a.made o).length) e := by
  have hstage := h.stage
  rw [hs] at hstage
  obtain ⟨hmade, hready⟩ := hstage
  unfold Instance.forkAct at he
  cases a <;> dsimp only at he
  case advance =>
    obtain ⟨proc, hproc, rfl⟩ := Option.map_eq_some_iff.mp he
    exact keeps_self (h.goOn hs hn hproc)
  case fork =>
    obtain ⟨pc, hpc, rfl⟩ := Option.map_eq_some_iff.mp he
    have hfork (pid : ℕ) :
        Inv getopt o made { p with proc := { p.proc with workerPid := pid, pc } } :=
      h.proc hs (hready.placed.afterFork hpc pid) fun _ => Proc.published_afterFork hpc pid
    exact ⟨forall_mem_some (hfork child), forall_mem_some (hfork 0)⟩
  case wait pid =>
    split_ifs at he with hpc
    cases he
    refine keeps_self (h.proc hs (hready.placed.waited hpc pid) fun _ => ?_)
    unfold Proc.Published Proc.waited
    simp
  case serve ctx =>
    obtain ⟨fd, hfd, rfl⟩ := Option.map_eq_some_iff.mp he
    refine keeps_self ⟨h.options, ⟨hmade, ?_, ?_⟩, h.storedArgv⟩
    · exact ⟨hready.length, hready.refers, hready.placed, hready.stored⟩
    · refine ⟨Reactor.listens_create fd ctx, hfd, fun fd' hfd' hne => ?_⟩
      exact absurd (List.mem_singleton.mp hfd') hne
  all_goals cases he

/-- **In `serve`.** -/
theorem Inv.react (h : p.Inv getopt o made) {r r' : Reactor κ υ} (hs : p.stage = .serve r)
    (hsvc : svc.Admits) {l : Reactor.Label μ} (hcalm : Reactor.Calm l)
    (hfree : ∀ fd ∈ l.opens, p.fds fd = none) (hr : Reactor.step svc r l = some r') :
    (p.reacted r r').Inv getopt o made := by
  have hstage := h.stage
  rw [hs] at hstage
  obtain ⟨hmade, hready, hserves⟩ := hstage
  have hsteps := Reactor.steps_of_step hr
  have hlisten := hserves.listens.of_steps hsvc hcalm hsteps
  have hopens := Reactor.OpensIn.of_steps hsvc hsteps
  refine ⟨h.options, ⟨hmade, ?_, hserves.react hlisten hopens⟩, h.storedArgv⟩
  refine ⟨hready.length, hready.refers.mono ?_, hready.placed, hready.stored⟩
  exact hserves.follow_listener hlisten hopens hfree

/-- A worker goes on with a context that has been freed. -/
theorem Inv.undefined (h : p.Inv getopt o made) {r : Reactor κ υ} (hs : p.stage = .serve r) :
    Inv getopt o made { p with stage := .serve { r with stage := .undefined } } := by
  have hstage := h.stage
  rw [hs] at hstage
  obtain ⟨hmade, hready, hserves⟩ := hstage
  refine ⟨h.options, ⟨hmade, ?_, ?_⟩, h.storedArgv⟩
  · exact ⟨hready.length, hready.refers, hready.placed, hready.stored⟩
  · exact ⟨hserves.listens.withStage trivial, hserves.served, hserves.connections⟩

/-- **Every act** keeps the invariant. As long as listening sockets are missing, a process that
comes out of another one takes its place. -/
theorem Inv.act (hsvc : svc.Admits) (hn : 0 < o.workers.toNat) (h : p.Inv getopt o made)
    (hcalm : ∀ l, a = .react l → Reactor.Calm l)
    (hfreed : ∀ c dir, a = .upgrade c dir → p.hasFreed = false)
    (he : p.act getopt svc made child a = some e) :
    Keeps getopt o (made + (a.made o).length) e ∧
      (made < o.workers.toNat → e.self = none ∨ e.child = none) := by
  have hstage := h.stage
  -- the acts that belong to a stage
  have hfork (hs : p.stage = .fork) (he : p.forkAct o child a = some e) :
      Keeps getopt o (made + (a.made o).length) e ∧
        (made < o.workers.toNat → e.self = none ∨ e.child = none) := by
    rw [hs] at hstage
    exact ⟨h.forkAct hs hn he, fun hlt => absurd hstage.1 hlt.ne⟩
  have hstart (he : p.startAct o made a = some e) :
      Keeps getopt o (made + (a.made o).length) e ∧
        (made < o.workers.toNat → e.self = none ∨ e.child = none) :=
    ⟨h.startAct he, fun _ => startAct_alone he⟩
  unfold Instance.act at he
  rw [h.options] at he
  cases a with
  | die =>
    cases he
    exact ⟨⟨forall_mem_none, forall_mem_none⟩, fun _ => Or.inl rfl⟩
  | openOther fd =>
    dsimp only at he
    split_ifs at he with hfd
    cases he
    exact ⟨keeps_self (h.setFds (Or.inl hfd)), fun _ => Or.inr rfl⟩
  | closeOther fd =>
    dsimp only at he
    split_ifs at he with hfd
    cases he
    exact ⟨keeps_self (h.setFds (Or.inr hfd)), fun _ => Or.inr rfl⟩
  | upgrade c dir =>
    dsimp only at he
    by_cases hhandles : p.handlesUpgrade = true
    · rw [if_pos hhandles] at he
      cases he
      obtain ⟨hmade, hready⟩ := h.ready hhandles (hfreed c dir rfl)
      obtain ⟨hproc, hargv, hfds⟩ := upgradeHandler_master c (p.upgrader dir)
      refine ⟨⟨fun q hq => ?_, fun q hq => ?_⟩, fun hlt => absurd hmade hlt.ne⟩
      · dsimp only at hq
        split_ifs at hq
        · exact absurd hq (Option.not_mem_none q)
        · obtain rfl := Option.mem_some_iff.mp hq
          exact h.upgraded hproc hargv hfds
      · obtain ⟨b, hb, rfl⟩ := Option.map_eq_some_iff.mp hq
        have hexec := hready.inv_execve hn h.options h.storedArgv hb
        rw [← hmade] at hexec
        exact hexec
    · rw [if_neg hhandles] at he
      cases he
  | react l =>
    cases hs : p.stage <;> rw [hs] at he <;> dsimp only at he
    case serve r =>
      split_ifs at he with hfree
      obtain ⟨r', hr, rfl⟩ := Option.map_eq_some_iff.mp he
      exact ⟨keeps_self (h.react hs hsvc (hcalm l rfl) hfree hr), fun _ => Or.inr rfl⟩
    case fork => exact hfork hs he
    all_goals exact hstart he
  | staleEvent =>
    cases hs : p.stage <;> rw [hs] at he <;> dsimp only at he
    case serve r =>
      split_ifs at he
      cases he
      exact ⟨keeps_self (h.undefined hs), fun _ => Or.inr rfl⟩
    case fork => exact hfork hs he
    all_goals exact hstart he
  | free =>
    cases hs : p.stage <;> rw [hs] at he <;> dsimp only at he
    case serve r =>
      split_ifs at he
      cases he
      rw [hs] at hstage
      exact ⟨keeps_self ⟨h.options, ⟨hstage.1, hstage.2.1.length, hstage.2.1.refers⟩, h.storedArgv⟩,
        fun _ => Or.inr rfl⟩
    case fork => exact hfork hs he
    all_goals exact hstart he
  | overwrite listenFds =>
    cases hs : p.stage <;> rw [hs] at he <;> dsimp only at he
    case freed =>
      cases he
      rw [hs] at hstage
      exact ⟨keeps_self ⟨h.options, hstage, h.storedArgv⟩, fun _ => Or.inr rfl⟩
    case fork => exact hfork hs he
    all_goals exact hstart he
  | _ =>
    cases hs : p.stage <;> rw [hs] at he <;> dsimp only at he
    case fork => exact hfork hs he
    all_goals exact hstart he

end Instance

namespace Generations

variable {getopt : Argv → List (Char × List UInt8)} {svc : Service κ υ ε μ} {o : ArgumentOptions}
variable {s t : Generations κ υ} {l : Label κ υ μ}

structure Inv (getopt : Argv → List (Char × List UInt8)) (o : ArgumentOptions)
    (s : Generations κ υ) : Prop where
  everyone : s.instances.Everyone (Instance.Inv getopt o s.sockets.length)
  made_le : s.sockets.length ≤ o.workers.toNat
  /-- The listening sockets are made by one process. -/
  alone : s.sockets.length < o.workers.toNat → s.instances.Alone
  sockets : ∀ socket ∈ s.sockets, socket = listenSocket o.host o.port

theorem exists_socket {o : ArgumentOptions} {a : Instance.Act κ υ μ} (h : a.made o ≠ []) :
    ∃ fd, a = .socket fd := by
  cases a with
  | socket fd => exact ⟨fd, rfl⟩
  | _ => exact absurd rfl h

/-- **Every step** keeps the invariant. -/
theorem Inv.step (hsvc : svc.Admits) (hn : 0 < o.workers.toNat) (h : s.Inv getopt o)
    (hcalm : Calm s l) (hs : s.step getopt svc l = some t) : t.Inv getopt o := by
  obtain ⟨p, hp, hs⟩ := Option.bind_eq_some_iff.mp hs
  obtain ⟨e, he, hs⟩ := Option.bind_eq_some_iff.mp hs
  have hinv := h.everyone hp
  rw [hinv.options] at hs
  unfold apply at hs
  split_ifs at hs
  cases hs
  have hcalm' (l' : Reactor.Label μ) (ha : l.act = .react l') : Reactor.Calm l' := by
    unfold Calm at hcalm
    rw [ha] at hcalm
    exact hcalm
  have hfreed (c : Calls) (dir : Directory Name (List UInt8)) (ha : l.act = .upgrade c dir) :
      p.hasFreed = false := by
    unfold Calm at hcalm
    rw [ha] at hcalm
    exact hcalm p hp
  obtain ⟨⟨hself, hchild⟩, hplace⟩ := hinv.act hsvc hn hcalm' hfreed he
  by_cases hnone : l.act.made o = []
  · rw [hnone, List.length_nil, Nat.add_zero] at hself hchild
    have hsockets : s.sockets ++ l.act.made o = s.sockets := by rw [hnone, List.append_nil]
    rw [hsockets]
    exact ⟨h.everyone.act hself hchild, h.made_le, fun hlt => (h.alone hlt).act hp (hplace hlt),
      h.sockets⟩
  · -- the process that makes a socket is alone
    obtain ⟨fd, ha⟩ := exists_socket hnone
    rw [ha] at he hself hchild ⊢
    have hlt := hinv.lt_of_socket he
    refine ⟨?_, ?_, fun hlt' => (h.alone hlt).act hp (hplace hlt), fun socket hmem => ?_⟩
    · show Everyone (Instance.Inv getopt o (s.sockets ++ _).length) (s.instances.act _ _ e)
      rw [List.length_append]
      exact (h.alone hlt).everyone_act hp hself hchild
    · rw [List.length_append]
      exact hlt
    · rcases List.mem_append.mp hmem with hmem | hmem
      · exact h.sockets socket hmem
      · exact List.mem_singleton.mp hmem

theorem inv_init (pid : ℕ) (argv : Argv) (opened : List ℕ) :
    (init pid argv opened : Generations κ υ).Inv getopt (getProgramOpts getopt argv) where
  everyone := everyone_single ⟨rfl, ⟨Or.inl ⟨rfl, rfl⟩, rfl, rfl⟩, nofun⟩
  made_le := Nat.zero_le _
  alone _ := alone_single
  sockets := nofun

theorem inv_of_run {fs : FileSystem} {pid : ℕ} {argv : Argv} {opened : List ℕ}
    {s : Generations IoCallback UserData} (hn : 0 < (getProgramOpts getopt argv).workers)
    (h : Run (step getopt (service fs)) Calm (init pid argv opened) s) :
    s.Inv getopt (getProgramOpts getopt argv) := by
  have hn' : 0 < (getProgramOpts getopt argv).workers.toNat := by omega
  exact h.invariant (inv_init pid argv opened) fun _ _ _ hinv hcalm hs =>
    hinv.step (service_admits fs) hn' hcalm hs

end Generations

/-! ## The listening sockets -/

/-- The process has come to `yta_fork_workers`, or has been executed by `upgrade_handler`. -/
def Instance.HasSockets (p : Instance κ υ) : Prop :=
  match p.stage with
  | .start => p.env ≠ none
  | .ready => p.env ≠ none
  | .listen => False
  | .fork => True
  | .serve _ => True
  | .freed => True

/-- Every listening socket is open in the process. -/
theorem Instance.Inv.exists_fd {getopt : Argv → List (Char × List UInt8)} {o : ArgumentOptions}
    {made : ℕ} {p : Instance κ υ} (h : p.Inv getopt o made) (hsockets : p.HasSockets) :
    made = o.workers.toNat ∧ ∀ i < made, ∃ fd, p.fds fd = some (.listener i) := by
  have hstage := h.stage
  have henv (henv : p.Env o.workers.toNat made) (hsome : p.env ≠ none) :
      made = o.workers.toNat ∧ ∀ i < made, ∃ fd, p.fds fd = some (.listener i) := by
    rcases henv with ⟨hnone, -⟩ | ⟨hmade, env, listenFds, -, -, hlength, hrefers⟩
    · exact absurd hnone hsome
    · exact ⟨hmade, fun i hi => hrefers.exists_fd (by omega)⟩
  have hready (hmade : made = o.workers.toNat) (hready : p.Ready o.workers.toNat) :
      made = o.workers.toNat ∧ ∀ i < made, ∃ fd, p.fds fd = some (.listener i) :=
    ⟨hmade, fun i hi => hready.refers.exists_fd (by have := hready.length; omega)⟩
  unfold HasSockets at hsockets
  cases hs : p.stage <;> rw [hs] at hstage hsockets
  case start => exact henv hstage.1 hsockets
  case ready => exact henv hstage.1 hsockets
  case listen => exact hsockets.elim
  case fork => exact hready hstage.1 hstage.2
  case serve r => exact hready hstage.1 hstage.2.1
  case freed =>
    obtain ⟨hmade, hlength, hrefers⟩ := hstage
    exact ⟨hmade, fun i hi => hrefers.exists_fd (by omega)⟩

/-- **The listening sockets survive.** A program is started once, and its processes fork, are
upgraded, serve, die and are replaced in any order; SIGUSR1 comes to no worker behind
`free(listen_fds)`, and no error is reported of a listening socket alone. No more listening
sockets are made than it has workers; in every process that has them, or has been executed by an
upgrade, each is open; and a worker of any generation listens on the one with its own number. -/
theorem sockets_survive {getopt : Argv → List (Char × List UInt8)} {fs : FileSystem} {pid : ℕ}
    {argv : Argv} {opened : List ℕ} {s : Generations IoCallback UserData}
    (hn : 0 < (getProgramOpts getopt argv).workers)
    (h : Run (Generations.step getopt (service fs)) Generations.Calm
      (Generations.init pid argv opened) s) :
    s.sockets.length ≤ (getProgramOpts getopt argv).workers.toNat ∧
    (∀ socket ∈ s.sockets,
      socket = listenSocket (getProgramOpts getopt argv).host (getProgramOpts getopt argv).port) ∧
    ∀ pid p, s.instances pid = some p → p.HasSockets →
      s.sockets.length = (getProgramOpts getopt argv).workers.toNat ∧
      (∀ i < s.sockets.length, ∃ fd, p.fds fd = some (.listener i)) ∧
      ∀ r, p.stage = .serve r → ∃ i < s.sockets.length, p.proc.workerId = i ∧
        p.fds r.listenFd = some (.listener i) := by
  have hinv := Generations.inv_of_run hn h
  refine ⟨hinv.made_le, hinv.sockets, fun pid p hp hsockets => ?_⟩
  have hmember := hinv.everyone hp
  obtain ⟨hmade, hopen⟩ := hmember.exists_fd hsockets
  refine ⟨hmade, hopen, fun r hr => ?_⟩
  have hstage := hmember.stage
  rw [hr] at hstage
  obtain ⟨i, hi, hid, hfd⟩ := hstage.2.1.served hstage.2.2.served
  exact ⟨i, hmade ▸ hi, hid, hfd⟩

/-- An option `-w 2`. -/
def twoWorkers (_ : Argv) : List (Char × List UInt8) := [('w', ascii "2")]

/-- The program is started, and its master forks two workers. -/
def firstGeneration : List (Generations.Label IoCallback UserData UserData) :=
  [⟨1, 0, .daemonize⟩, ⟨1, 0, .getenv⟩, ⟨1, 0, .socket 3⟩, ⟨1, 0, .socket 4⟩, ⟨1, 0, .listened⟩] ++
    List.replicate 5 ⟨1, 0, .advance⟩ ++ [⟨1, 10, .fork⟩, ⟨1, 0, .advance⟩, ⟨1, 0, .advance⟩,
    ⟨1, 11, .fork⟩] ++ List.replicate 3 ⟨1, 0, .advance⟩

/-- The calls of an upgrade that succeeds. -/
def allCalls : Calls := ⟨true, true, true, true, true⟩

/-- The directory in which the first master has written its pid. -/
def pidDirectory : Directory Name (List UInt8) :=
  ((Directory.empty []).openTruncate [] (ascii "/tmp/yotta.pid")).1

/-- SIGUSR1 comes to the master. -/
def firstUpgrade : Generations.Label IoCallback UserData UserData :=
  ⟨1, 20, .upgrade allCalls pidDirectory⟩

/-- The old master ends, and the second worker of the new one serves. -/
def secondGeneration : List (Generations.Label IoCallback UserData UserData) :=
  [⟨1, 0, .die⟩, ⟨20, 0, .daemonize⟩, ⟨20, 0, .getenv⟩] ++
    List.replicate 5 ⟨20, 0, .advance⟩ ++ [⟨20, 30, .fork⟩, ⟨20, 0, .advance⟩, ⟨20, 0, .advance⟩,
    ⟨20, 31, .fork⟩, ⟨31, 0, .advance⟩, ⟨31, 0, .advance⟩,
    ⟨31, 0, .serve (acceptCallbackHttp .zero)⟩]

theorem calm_firstGeneration : ∀ l ∈ firstGeneration, ∀ s, Generations.Calm s l := by
  simp [firstGeneration, Generations.Calm, or_imp, forall_and]

theorem calm_secondGeneration : ∀ l ∈ secondGeneration, ∀ s, Generations.Calm s l := by
  simp [secondGeneration, Generations.Calm, or_imp, forall_and]

/-- The socket that a process serves. -/
def Instance.servedFd (p : Instance κ υ) : Option ℕ :=
  match p.stage with
  | .serve r => some r.listenFd
  | _ => none

theorem sockets_survive_upgrade :
    ∃ s : Generations IoCallback UserData,
      Run (Generations.step twoWorkers (service fun _ => none)) Generations.Calm
        (Generations.init 1 [] [0, 1, 2]) s ∧
      ∃ p r, s.instances 31 = some p ∧ p.stage = .serve r ∧ r.listenFd = 4 ∧
        ∃ i < s.sockets.length, p.proc.workerId = i ∧ p.fds r.listenFd = some (.listener i) := by
  have hstate : ((exec (Generations.step twoWorkers (service fun _ => none))
      (Generations.init 1 [] [0, 1, 2]) firstGeneration).bind fun s =>
      (Generations.step twoWorkers (service fun _ => none) s firstUpgrade).bind fun t =>
      (exec (Generations.step twoWorkers (service fun _ => none)) t secondGeneration).map fun u =>
        ((s.instances 1).map Instance.hasFreed, (u.instances 31).bind Instance.servedFd)) =
      some (some false, some 4) := by
    decide +kernel
  obtain ⟨s, hfirst, hstate⟩ := Option.bind_eq_some_iff.mp hstate
  obtain ⟨t, hupgrade, hstate⟩ := Option.bind_eq_some_iff.mp hstate
  obtain ⟨u, hsecond, hstate⟩ := Option.map_eq_some_iff.mp hstate
  obtain ⟨hfreed, hserved⟩ := Prod.mk.inj hstate
  obtain ⟨p, hp, hfd⟩ := Option.bind_eq_some_iff.mp hserved
  have hcalm : Generations.Calm s firstUpgrade := by
    intro q hq
    rw [show s.instances 1 = some q from hq] at hfreed
    exact Option.some.inj hfreed
  have hrun : Run _ Generations.Calm _ u :=
    ((run_of_exec_of_forall calm_firstGeneration hfirst).tail hcalm hupgrade).trans
      (run_of_exec_of_forall calm_secondGeneration hsecond)
  unfold Instance.servedFd at hfd
  cases hs : p.stage <;> rw [hs] at hfd
  case serve r =>
    have hsockets : p.HasSockets := by
      unfold Instance.HasSockets
      rw [hs]
      trivial
    have hpos : 0 < (getProgramOpts twoWorkers []).workers := by decide +kernel
    obtain ⟨-, -, hall⟩ := sockets_survive hpos hrun
    exact ⟨u, hrun, p, r, hp, hs, Option.some.inj hfd, (hall 31 p hp hsockets).2.2 r hs⟩
  all_goals cases hfd

end Yotta.Process
