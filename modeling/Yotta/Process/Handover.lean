import Yotta.Process.Generations

/-!
# The next generation

When `upgrade_handler` has executed the program, the new master comes to its loop and forks the
workers, and these come to `serve`. The run is put together from the acts of the new processes
alone, which leave those that were there before as they are.

Results:
* `run_startup`: from `main` to the loop that spawns the workers.
* `run_spawn`: one round of that loop, with the worker up to `serve`.
* `upgrade_serves`: after an upgrade in any state that is reached, each listening socket can be
  served by a new worker while the others stay as they are.
-/

namespace Yotta.Process

open Yotta.Bytes Yotta.Core Yotta.Numeral Yotta.Population Yotta.Server

variable {κ υ ε μ : Type} {getopt : Argv → List (Char × List UInt8)} {svc : Service κ υ ε μ}
variable {o : ArgumentOptions} {p q : Instance κ υ} {s : Generations κ υ} {pid child : ℕ}

/-! ## Processes on their own -/

namespace Instance

/-- What stays as it is in `yta_fork_workers`. -/
structure Same (p q : Instance κ υ) : Prop where
  argv : q.argv = p.argv
  fds : q.fds = p.fds
  stage : q.stage = p.stage
  listenFds : q.listenFds = p.listenFds

theorem Same.rfl : Same p p := ⟨Eq.refl _, Eq.refl _, Eq.refl _, Eq.refl _⟩

theorem Same.trans {r : Instance κ υ} (h : p.Same q) (h' : q.Same r) : p.Same r :=
  ⟨h'.argv.trans h.argv, h'.fds.trans h.fds, h'.stage.trans h.stage,
    h'.listenFds.trans h.listenFds⟩

theorem Same.options (h : p.Same q) (hopt : getProgramOpts getopt p.argv = o) :
    getProgramOpts getopt q.argv = o := by
  rw [h.argv]
  exact hopt

theorem same_goOn (o : ArgumentOptions) (p : Instance κ υ) (proc : Proc) :
    p.Same (p.goOn o proc) := by
  unfold goOn
  split <;> exact ⟨rfl, rfl, rfl, rfl⟩

theorem proc_goOn (o : ArgumentOptions) (p : Instance κ υ) (proc : Proc) :
    (p.goOn o proc).proc = proc := by
  unfold goOn
  split <;> rfl

theorem act_daemonize {made : ℕ} (hs : p.stage = .start)
    (hopt : getProgramOpts getopt p.argv = o) :
    p.act getopt svc made child .daemonize =
      some (if o.daemonize then ⟨none, some { p with stage := .ready }⟩
        else ⟨some { p with stage := .ready }, none⟩) := by
  unfold act
  rw [hs, hopt]
  dsimp only
  unfold startAct
  rw [hs]
  dsimp only
  split_ifs <;> rfl

/-- In the loop that spawns the workers, with `i` of them forked. -/
structure Spawning (getopt : Argv → List (Char × List UInt8)) (o : ArgumentOptions) (i : ℕ)
    (p : Instance κ υ) : Prop where
  options : getProgramOpts getopt p.argv = o
  stage : p.stage = .fork
  pc : p.proc.pc = .spawn
  i_eq : p.proc.i = i
  length : p.listenFds.length = o.workers.toNat
  refers : Refers p.fds p.listenFds

/-- A worker that serves the listening socket `i`. -/
def ServesSocket (i : ℕ) (p : Instance κ υ) : Prop :=
  ∃ r, p.stage = .serve r ∧ p.fds r.listenFd = some (.listener i)

end Instance

namespace Generations

/-- There are names that have not been given out. -/
theorem exists_free {first : ℕ} {argv : Argv} {opened : List ℕ}
    (h : Run (step getopt svc) Calm (init first argv opened) s) :
    ∃ base, 0 < base ∧ ∀ k, base ≤ k → s.instances k = none := by
  induction h with
  | refl =>
    refine ⟨first + 1, first.succ_pos, fun k hk => ?_⟩
    have hne : k ≠ first := by omega
    exact single_of_ne hne
  | @tail t u l _ _ hs ih =>
    obtain ⟨base, hbase, hfree⟩ := ih
    obtain ⟨p, hp, hs⟩ := Option.bind_eq_some_iff.mp hs
    obtain ⟨e, -, hs⟩ := Option.bind_eq_some_iff.mp hs
    unfold apply at hs
    split_ifs at hs
    cases hs
    refine ⟨base + l.child + 1, by omega, fun k hk => ?_⟩
    have hne : k ≠ l.pid := by
      rintro rfl
      rw [hfree _ (by omega)] at hp
      cases hp
    exact (act_of_ne hne fun _ => by omega).trans (hfree k (by omega))

/-- A process of the system acts. -/
theorem run_act (hp : s.instances pid = some p) {a : Instance.Act κ υ μ}
    {e : Effect (Instance κ υ)} (he : p.act getopt svc s.sockets.length child a = some e)
    (hchild : e.child.isSome → child ≠ 0 ∧ s.instances child = none)
    (hcalm : Calm s ⟨pid, child, a⟩) :
    ∃ t, Run (step getopt svc) Calm s t ∧ t.instances = s.instances.act pid child e := by
  refine ⟨{
    instances := s.instances.act pid child e
    sockets := s.sockets ++ a.made (getProgramOpts getopt p.argv) }, ?_, rfl⟩
  apply Run.refl.tail hcalm
  unfold step
  dsimp only
  rw [hp, Option.bind_some, he, Option.bind_some, apply, if_pos hchild]

/-- A process goes on by itself, and the others stay as they are. -/
theorem run_self (hp : s.instances pid = some p) {a : Instance.Act κ υ μ}
    (he : p.act getopt svc s.sockets.length 0 a = some ⟨some q, none⟩)
    (hcalm : Calm s ⟨pid, 0, a⟩) :
    ∃ t, Run (step getopt svc) Calm s t ∧ t.instances pid = some q ∧
      ∀ k ≠ pid, t.instances k = s.instances k := by
  have hnone : ¬ ({ self := some q, child := none } : Effect (Instance κ υ)).child.isSome :=
    Bool.false_ne_true
  obtain ⟨t, hrun, ht⟩ := run_act hp he (fun h => absurd h hnone) hcalm
  refine ⟨t, hrun, ?_, fun k hk => ?_⟩
  · rw [ht]
    exact act_self fun h => absurd h hnone
  · rw [ht]
    exact act_of_ne hk fun h => absurd h hnone

/-- A process goes on in `yta_fork_workers` between two system calls. -/
theorem run_advance (hp : s.instances pid = some p) (hopt : getProgramOpts getopt p.argv = o)
    (hs : p.stage = .fork) {proc : Proc} (hproc : Proc.Goes o.workers.toNat p.proc proc) :
    ∃ t q, Run (step getopt svc) Calm s t ∧ t.instances pid = some q ∧ p.Same q ∧
      q.proc = proc ∧ ∀ k ≠ pid, t.instances k = s.instances k := by
  induction hproc with
  | refl => exact ⟨s, p, .refl, hp, .rfl, rfl, fun _ _ => rfl⟩
  | @tail proc proc' _ hstep ih =>
    obtain ⟨t, q, hrun, hq, hsame, hproc, hothers⟩ := ih
    have hact : q.act getopt svc t.sockets.length 0 .advance =
        some ⟨some (q.goOn o proc'), none⟩ := by
      unfold Instance.act
      rw [hsame.stage, hs]
      dsimp only
      rw [hsame.argv, hopt, Instance.forkAct, hproc, hstep]
      rfl
    obtain ⟨u, hrun', hu, hothers'⟩ := run_self hq hact trivial
    exact ⟨u, _, hrun.trans hrun', hu, hsame.trans (Instance.same_goOn o q proc'),
      Instance.proc_goOn o q proc', fun k hk => (hothers' k hk).trans (hothers k hk)⟩

/-- A worker that has been forked comes to `serve`. -/
theorem run_serve (hp : s.instances pid = some p) (hopt : getProgramOpts getopt p.argv = o)
    (hs : p.stage = .fork) (hpc : p.proc.pc = .spawned) (hzero : p.proc.workerPid = 0)
    (hlength : p.listenFds.length = o.workers.toNat) (hrefers : Refers p.fds p.listenFds)
    (hi : p.proc.i < o.workers.toNat) (ctx : Ctx κ υ) :
    ∃ t w, Run (step getopt svc) Calm s t ∧ t.instances pid = some w ∧
      w.ServesSocket p.proc.i ∧ ∀ k ≠ pid, t.instances k = s.instances k := by
  -- it leaves both loops
  have hleave : Proc.Goes o.workers.toNat p.proc
      { p.proc with workerId := p.proc.i, pc := .returned } := by
    have hspawned : p.proc.advance o.workers.toNat =
        some { p.proc with workerId := p.proc.i, pc := .loop } := by
      unfold Proc.advance
      rw [hpc]
      dsimp only
      rw [if_pos hzero]
    have hloop : Proc.Goes o.workers.toNat p.proc
        { p.proc with workerId := p.proc.i, pc := .loop } := .single hspawned
    apply hloop.tail
    unfold Proc.advance
    dsimp only
    rw [if_neg (not_not.mpr hzero)]
  obtain ⟨t, q, hrun, hq, hsame, hproc, hothers⟩ :=
    run_advance hp hopt hs hleave
  have hi' : p.proc.i < p.listenFds.length := hlength ▸ hi
  have hserved : q.proc.served (q.listenFds.map Int.toNat) =
      some (p.listenFds[p.proc.i]).toNat := by
    rw [hproc, hsame.listenFds]
    unfold Proc.served
    rw [if_pos rfl]
    dsimp only
    rw [Int.toNat_natCast, List.getElem?_map, List.getElem?_eq_getElem hi']
    rfl
  have hact : q.act getopt svc t.sockets.length 0 (.serve ctx) =
      some ⟨some { q with stage := .serve (.create (p.listenFds[p.proc.i]).toNat ctx) }, none⟩ := by
    unfold Instance.act
    rw [hsame.stage, hs]
    dsimp only
    rw [Instance.forkAct, hserved]
    rfl
  obtain ⟨u, hrun', hu, hothers'⟩ := run_self hq hact trivial
  refine ⟨u, _, hrun.trans hrun', hu, ⟨_, rfl, ?_⟩,
    fun k hk => (hothers' k hk).trans (hothers k hk)⟩
  show q.fds (p.listenFds[p.proc.i]).toNat = _
  rw [hsame.fds]
  exact (hrefers (List.getElem?_eq_getElem hi')).2

/-- **A worker** is forked and comes to `serve`. -/
theorem run_spawn (hp : s.instances pid = some p) {i : ℕ} (h : p.Spawning getopt o i)
    (hi : i < o.workers.toNat) (hchild : child ≠ 0) (hfree : s.instances child = none)
    (ctx : Ctx κ υ) :
    ∃ t q w, Run (step getopt svc) Calm s t ∧ t.instances pid = some q ∧
      q.Spawning getopt o (i + 1) ∧ t.instances child = some w ∧ w.ServesSocket i ∧
      ∀ k, k ≠ pid → k ≠ child → t.instances k = s.instances k := by
  have hne : pid ≠ child := by
    rintro rfl
    rw [hfree] at hp
    cases hp
  -- the master comes to `fork`
  have hspawn : Proc.Goes o.workers.toNat p.proc { p.proc with pc := .spawnFork } := by
    apply Relation.ReflTransGen.single
    unfold Proc.advance
    rw [h.pc]
    dsimp only
    rw [h.i_eq, if_pos hi]
  obtain ⟨s₁, p₁, hrun₁, hp₁, hsame₁, hproc₁, hothers₁⟩ :=
    run_advance hp h.options h.stage hspawn
  -- `fork`
  let forked (pid : ℕ) : Instance κ υ :=
    { p₁ with proc := { p₁.proc with workerPid := pid, pc := .spawned } }
  have hfork : p₁.act getopt svc s₁.sockets.length child .fork =
      some ⟨some (forked child), some (forked 0)⟩ := by
    unfold Instance.act
    rw [hsame₁.stage, h.stage]
    dsimp only
    rw [Instance.forkAct, hproc₁]
    unfold Proc.afterFork
    dsimp only [forked]
    rw [Option.map_some, hproc₁]
  have hfree₁ : s₁.instances child = none := (hothers₁ child hne.symm).trans hfree
  obtain ⟨s₂, hrun₂, hinst₂⟩ := run_act hp₁ hfork (fun _ => ⟨hchild, hfree₁⟩) trivial
  have hmaster₂ : s₂.instances pid = some (forked child) := by
    rw [hinst₂]
    exact act_self fun _ => hne
  have hworker₂ : s₂.instances child = some (forked 0) := by
    rw [hinst₂]
    exact act_child rfl
  have hothers₂ (k : ℕ) (hk : k ≠ pid) (hk' : k ≠ child) :
      s₂.instances k = s₁.instances k := by
    rw [hinst₂]
    exact act_of_ne hk fun _ => hk'
  have hi₁ : p₁.proc.i = i := by rw [hproc₁]; exact h.i_eq
  have hoptions₁ : getProgramOpts getopt p₁.argv = o := hsame₁.options h.options
  have hstage₁ : p₁.stage = .fork := hsame₁.stage.trans h.stage
  have hlength₁ : p₁.listenFds.length = o.workers.toNat := by
    rw [hsame₁.listenFds]
    exact h.length
  have hrefers₁ : Refers p₁.fds p₁.listenFds := by
    rw [hsame₁.fds, hsame₁.listenFds]
    exact h.refers
  -- the child
  obtain ⟨s₃, w, hrun₃, hw, hserves, hothers₃⟩ :=
    run_serve hworker₂ hoptions₁ hstage₁ rfl rfl hlength₁ hrefers₁
      (hi₁.trans_lt hi) ctx
  have hmaster₃ : s₃.instances pid = some (forked child) := (hothers₃ pid hne).trans hmaster₂
  -- the master comes back to the condition of the loop
  have hback : Proc.Goes o.workers.toNat (forked child).proc
      { (forked child).proc.store with i := (forked child).proc.i + 1, pc := .spawn } := by
    apply Relation.ReflTransGen.single
    unfold Proc.advance
    dsimp only [forked]
    rw [if_neg hchild]
  obtain ⟨s₄, q, hrun₄, hq, hsame₄, hproc₄, hothers₄⟩ :=
    run_advance hmaster₃ hoptions₁ hstage₁ hback
  refine ⟨s₄, q, w, ((hrun₁.trans hrun₂).trans hrun₃).trans hrun₄, hq, ?_, ?_, ?_, ?_⟩
  · refine ⟨hsame₄.options hoptions₁, hsame₄.stage.trans hstage₁, by rw [hproc₄], ?_,
      by rw [hsame₄.listenFds]; exact hlength₁, ?_⟩
    · rw [hproc₄]
      show p₁.proc.i + 1 = i + 1
      rw [hi₁]
    · rw [hsame₄.fds, hsame₄.listenFds]
      exact hrefers₁
  · rw [hothers₄ child hne.symm]
    exact hw
  · have hserves' : w.ServesSocket p₁.proc.i := hserves
    rwa [hi₁] at hserves'
  · intro k hk hk'
    rw [hothers₄ k hk, hothers₃ k hk', hothers₂ k hk hk', hothers₁ k hk]

/-- **All workers** are forked and come to `serve`. -/
theorem run_spawns (hp : s.instances pid = some p) (h : p.Spawning getopt o 0) {base : ℕ}
    (hbase : 0 < base) (hpid : pid < base) (hfree : ∀ k, base ≤ k → s.instances k = none)
    (ctx : Ctx κ υ) {i : ℕ} (hi : i ≤ o.workers.toNat) :
    ∃ t q, Run (step getopt svc) Calm s t ∧ t.instances pid = some q ∧
      q.Spawning getopt o i ∧
      (∀ j < i, ∃ w, t.instances (base + j) = some w ∧ w.ServesSocket j) ∧
      ∀ k, k ≠ pid → k < base ∨ base + i ≤ k → t.instances k = s.instances k := by
  induction i with
  | zero => exact ⟨s, p, .refl, hp, h, nofun, fun _ _ _ => rfl⟩
  | succ i ih =>
    obtain ⟨t, q, hrun, hq, hspawning, hworkers, hothers⟩ := ih (by omega)
    have hfree' : t.instances (base + i) = none := by
      rw [hothers (base + i) (by omega) (Or.inr (Nat.le_refl _))]
      exact hfree _ (by omega)
    obtain ⟨u, q', w, hrun', hq', hspawning', hw, hserves, hothers'⟩ :=
      run_spawn hq hspawning (by omega) (by omega : base + i ≠ 0) hfree' ctx
    refine ⟨u, q', hrun.trans hrun', hq', hspawning', fun j hj => ?_, fun k hk hrange => ?_⟩
    · by_cases hji : j = i
      · subst hji
        exact ⟨w, hw, hserves⟩
      · obtain ⟨w', hw', hserves'⟩ := hworkers j (by omega)
        exact ⟨w', (hothers' _ (by omega) (by omega)).trans hw', hserves'⟩
    · rw [hothers' k hk (by omega), hothers k hk (by omega)]

/-- A process that has been executed comes to the loop that spawns the workers. It is another one
if `yta_daemonize` forks. -/
theorem run_startup (hp : s.instances pid = some p)
    (hinv : p.Inv getopt o s.sockets.length) (hs : p.stage = .start) {env : List UInt8}
    (henv : p.env = some env) (hchild : child ≠ 0) (hfree : s.instances child = none) :
    ∃ t master q, Run (step getopt svc) Calm s t ∧ t.instances master = some q ∧
      q.Spawning getopt o 0 ∧ (master = pid ∨ master = child) ∧
      ∀ k, k ≠ pid → k ≠ child → t.instances k = s.instances k := by
  have hstage := hinv.stage
  rw [hs] at hstage
  obtain ⟨hsound, -, hstart⟩ := hstage
  obtain ⟨-, hlength, hrefers⟩ := hsound.inherited henv
  -- `yta_daemonize`
  have hdaemonize : ∃ t master, Run (step getopt svc) Calm s t ∧
      t.instances master = some { p with stage := .ready } ∧ (master = pid ∨ master = child) ∧
      ∀ k, k ≠ pid → k ≠ child → t.instances k = s.instances k := by
    by_cases hd : o.daemonize = true
    · have hact : p.act getopt svc s.sockets.length child .daemonize =
          some ⟨none, some { p with stage := .ready }⟩ := by
        rw [Instance.act_daemonize hs hinv.options, if_pos hd]
      obtain ⟨t, hrun, ht⟩ := run_act hp hact (fun _ => ⟨hchild, hfree⟩) trivial
      refine ⟨t, child, hrun, ?_, Or.inr rfl, fun k hk hk' => ?_⟩
      · rw [ht]
        exact act_child rfl
      · rw [ht]
        exact act_of_ne hk fun _ => hk'
    · have hact : p.act getopt svc s.sockets.length 0 .daemonize =
          some ⟨some { p with stage := .ready }, none⟩ := by
        rw [Instance.act_daemonize hs hinv.options, if_neg hd]
      obtain ⟨t, hrun, ht, hothers⟩ := run_self hp hact trivial
      exact ⟨t, pid, hrun, ht, Or.inl rfl, fun k hk _ => hothers k hk⟩
  obtain ⟨s₁, master, hrun₁, hmaster₁, hwhich, hothers₁⟩ := hdaemonize
  have hothers {k : ℕ} (hk : k ≠ pid) (hk' : k ≠ child) : k ≠ master := by
    rcases hwhich with rfl | rfl
    · exact hk
    · exact hk'
  -- `getenv`
  have hgetenv : ({ p with stage := .ready } : Instance κ υ).act getopt svc s₁.sockets.length 0
      .getenv = some ⟨some { p with
        stage := .fork, listenFds := Instance.inherited o.workers.toNat env }, none⟩ := by
    unfold Instance.act
    dsimp only
    rw [hinv.options]
    unfold Instance.startAct
    dsimp only
    rw [henv]
  obtain ⟨s₂, hrun₂, hmaster₂, hothers₂⟩ := run_self hmaster₁ hgetenv trivial
  -- up to the loop
  have hgoes : Proc.Goes o.workers.toNat p.proc
      { p.proc with
        workerCount := o.workers.toNat
        workerPids := some (List.replicate o.workers.toNat 0)
        workerPid := 0
        workerId := -1
        i := 0
        pc := .spawn } := by
    have hpidfile : Proc.Goes o.workers.toNat p.proc { p.proc with pc := .pidfile } := by
      apply Relation.ReflTransGen.single
      unfold Proc.advance
      rw [hstart]
    have hpublish : Proc.Goes o.workers.toNat p.proc { p.proc with pc := .publish } :=
      hpidfile.tail rfl
    have hallocate : Proc.Goes o.workers.toNat p.proc
        { p.proc with workerCount := o.workers.toNat, pc := .allocate } := hpublish.tail rfl
    exact hallocate.tail rfl
  obtain ⟨s₃, q, hrun₃, hq, hsame, hproc, hothers₃⟩ :=
    run_advance hmaster₂ hinv.options rfl hgoes
  refine ⟨s₃, master, q, (hrun₁.trans hrun₂).trans hrun₃, hq, ?_, hwhich, fun k hk hk' => ?_⟩
  · refine ⟨hsame.options hinv.options, hsame.stage, by rw [hproc], by rw [hproc],
      by rw [hsame.listenFds]; exact hlength, ?_⟩
    rw [hsame.fds, hsame.listenFds]
    exact hrefers
  · rw [hothers₃ k (hothers hk hk'), hothers₂ k (hothers hk hk'), hothers₁ k hk hk']

end Generations

/-! ## The upgrade -/

/-- Where `upgrade_handler` executes the program, the process that it has interrupted goes on. -/
theorem upgradeHandler_alive {c : Calls} {u : Upgrader} {b : Binary}
    (h : (upgradeHandler c u).binary = some b) : (upgradeHandler c u).ended = false := by
  unfold upgradeHandler at h ⊢
  split at h
  · cases h
  · split_ifs at h ⊢
    unfold upgradeRenamed at h ⊢
    split at h
    · rfl
    · cases h

/-- **An upgrade takes over.** Whatever has happened, when `upgrade_handler` executes the program
in a process that has its `listen_fds` still, there is a run in which that process goes on where it was, no other process that
was there acts, and at whose end each listening socket is served by a worker that is new. -/
theorem upgrade_serves {fs : FileSystem} {first : ℕ} {argv : Argv} {opened : List ℕ}
    {s : Generations IoCallback UserData} (hn : 0 < (getProgramOpts getopt argv).workers)
    (h : Run (Generations.step getopt (service fs)) Generations.Calm
      (Generations.init first argv opened) s) {p : Instance IoCallback UserData}
    (hp : s.instances pid = some p) (hhandles : p.handlesUpgrade) (hfreed : p.hasFreed = false)
    {c : Calls}
    {dir : Directory Name (List UInt8)} {b : Binary}
    (hb : (upgradeHandler c (p.upgrader dir)).binary = some b) :
    ∃ t, Run (Generations.step getopt (service fs)) Generations.Calm s t ∧
      (∃ q, t.instances pid = some q ∧ q.stage = p.stage ∧ q.fds = p.fds) ∧
      (∀ k q, k ≠ pid → s.instances k = some q → t.instances k = some q) ∧
      ∀ i < (getProgramOpts getopt argv).workers.toNat, ∃ k w,
        s.instances k = none ∧ t.instances k = some w ∧ w.ServesSocket i := by
  obtain ⟨base, hbase, hfree⟩ := Generations.exists_free h
  have hlt {k : ℕ} {q : Instance IoCallback UserData} (hk : s.instances k = some q) :
      k < base := by
    by_contra hle
    rw [hfree k (by omega)] at hk
    cases hk
  -- `upgrade_handler`
  have hact : p.act getopt (service fs) s.sockets.length base (.upgrade c dir) =
      some ⟨some (p.upgraded (upgradeHandler c (p.upgrader dir))), some (.execve p.fds b)⟩ := by
    unfold Instance.act
    dsimp only
    rw [if_pos hhandles, upgradeHandler_alive hb, hb]
    rfl
  have hcalm (q : Instance IoCallback UserData) (hq : s.instances pid = some q) :
      q.hasFreed = false := by
    obtain rfl := Option.some.inj (hp.symm.trans hq)
    exact hfreed
  obtain ⟨s₁, hrun₁, hinst₁⟩ :=
    Generations.run_act hp hact (fun _ => ⟨hbase.ne', hfree base (Nat.le_refl _)⟩) hcalm
  have hold₁ : s₁.instances pid =
      some (p.upgraded (upgradeHandler c (p.upgrader dir))) := by
    rw [hinst₁]
    exact act_self fun _ => (hlt hp).ne
  have hexec₁ : s₁.instances base = some (.execve p.fds b) := by
    rw [hinst₁]
    exact act_child rfl
  have hothers₁ {k : ℕ} (hk : k ≠ pid) (hk' : k ≠ base) : s₁.instances k = s.instances k := by
    rw [hinst₁]
    exact act_of_ne hk fun _ => hk'
  have hfree₁ (k : ℕ) (hk : base < k) : s₁.instances k = none := by
    have := hlt hp
    exact (hothers₁ (by omega) hk.ne').trans (hfree k hk.le)
  -- what it executes, up to the loop that spawns the workers
  have hinv₁ := Generations.inv_of_run hn (h.trans hrun₁)
  obtain ⟨s₂, master, q, hrun₂, hmaster₂, hspawning, hwhich, hothers₂⟩ :=
    Generations.run_startup hexec₁ (hinv₁.everyone hexec₁) rfl rfl (base.succ_ne_zero)
      (hfree₁ (base + 1) (Nat.lt_succ_self base))
  have hfree₂ (k : ℕ) (hk : base + 2 ≤ k) : s₂.instances k = none :=
    (hothers₂ k (by omega) (by omega)).trans (hfree₁ k (by omega))
  -- the workers
  obtain ⟨s₃, q', hrun₃, -, -, hworkers, hothers₃⟩ :=
    Generations.run_spawns hmaster₂ hspawning (by omega) (by omega) hfree₂
      (acceptCallbackHttp .zero) (Nat.le_refl _)
  have hkeep {k : ℕ} (hk : k < base) : s₃.instances k = s₁.instances k := by
    rw [hothers₃ k (by omega) (by omega), hothers₂ k (by omega) (by omega)]
  refine ⟨s₃, (hrun₁.trans hrun₂).trans hrun₃, ⟨_, (hkeep (hlt hp)).trans hold₁, rfl, rfl⟩,
    fun k q hne hk => ?_, fun i hi => ?_⟩
  · rw [hkeep (hlt hk), hothers₁ hne (hlt hk).ne]
    exact hk
  · obtain ⟨w, hw, hserves⟩ := hworkers i hi
    exact ⟨base + 2 + i, w, hfree _ (by omega), hw, hserves⟩

theorem upgrade_serves_firstGeneration :
    ∃ s t : Generations IoCallback UserData,
      Run (Generations.step twoWorkers (service fun _ => none)) Generations.Calm
        (Generations.init 1 [] [0, 1, 2]) s ∧
      Run (Generations.step twoWorkers (service fun _ => none)) Generations.Calm s t ∧
      ∃ k w, s.instances k = none ∧ t.instances k = some w ∧ w.ServesSocket 1 := by
  have hstate : ((exec (Generations.step twoWorkers (service fun _ => none))
      (Generations.init 1 [] [0, 1, 2]) firstGeneration).bind fun s =>
        (s.instances 1).bind fun p =>
          if p.handlesUpgrade ∧ p.hasFreed = false then
            (upgradeHandler allCalls (p.upgrader pidDirectory)).binary
          else none).isSome := by
    decide +kernel
  obtain ⟨b, hb⟩ := Option.isSome_iff_exists.mp hstate
  obtain ⟨s, hexec, hb⟩ := Option.bind_eq_some_iff.mp hb
  obtain ⟨p, hp, hb⟩ := Option.bind_eq_some_iff.mp hb
  split_ifs at hb with hhandles
  have hrun : Run _ Generations.Calm _ s := run_of_exec_of_forall calm_firstGeneration hexec
  have hpos : 0 < (getProgramOpts twoWorkers []).workers := by decide +kernel
  have hone : 1 < (getProgramOpts twoWorkers []).workers.toNat := by decide +kernel
  obtain ⟨t, hrun', -, -, hserved⟩ := upgrade_serves hpos hrun hp hhandles.1 hhandles.2 hb
  exact ⟨s, t, hrun, hrun', hserved 1 hone⟩

end Yotta.Process
