import Yotta.Lib.Run
import Mathlib.Data.Int.Notation
import Mathlib.Data.List.Basic
import Mathlib.Logic.Function.Basic

/-!
# The master and its workers

Model of `yta_fork_workers` (`yta_process.c`, lines 212–285), which the master and every
process that it forks execute, and of `signal_handler` (lines 99–109) with
`forward_signal_to_workers` (lines 21–27) and `exit_and_cleanup_main` (lines 81–97).

`Proc.advance` is the code between two system calls. A family is the master and the
children that it has not waited for; the system calls, the deaths of the children and
the arrival of signals are its labels. `fork` returns a number that no child has, which
may be that of a child that has been waited for. A child has the handlers of the master and a
copy of its table until it calls `setup_worker_signal_handlers` (lines 204–210), or `execve` if
it has been forked in `upgrade_handler`.
-/

namespace Yotta.Process

/-- Where a process is in `yta_fork_workers`. -/
inductive Pc
  /-- before the signal handlers are set up -/
  | start
  /-- before `write_pidfile` -/
  | pidfile
  /-- before `worker_count = workers` -/
  | publish
  /-- before `worker_pids` is allocated -/
  | allocate
  /-- at the condition of the loop that spawns the workers -/
  | spawn
  /-- before `fork` in it -/
  | spawnFork
  /-- after `fork` in it -/
  | spawned
  /-- at the condition of the loop that waits -/
  | loop
  /-- in `waitpid` -/
  | wait
  /-- at the condition of the loop that looks for the pid -/
  | scan
  /-- before `fork` in it -/
  | refork
  /-- after `fork` in it -/
  | reforked
  /-- The call has returned `worker_id`. -/
  | returned
deriving DecidableEq

/-- The globals and the locals of `yta_fork_workers`. -/
structure Proc where
  pc : Pc
  workerCount : ℕ
  /-- `none` for `NULL` -/
  workerPids : Option (List ℕ)
  upgraded : Bool
  workerPid : ℕ
  workerId : ℤ
  i : ℕ
  /-- what `waitpid` has returned, `none` for `-1` -/
  pid : Option ℕ

namespace Proc

/-- A process at the start of `yta_fork_workers`. -/
def init : Proc where
  pc := .start
  workerCount := 0
  workerPids := none
  upgraded := false
  workerPid := 0
  workerId := -1
  i := 0
  pid := none

/-- `worker_pids[i] = worker_pid` -/
def store (p : Proc) : Proc :=
  { p with workerPids := p.workerPids.map fun pids => pids.set p.i p.workerPid }

/-- `pid == worker_pids[i]` -/
def hit (p : Proc) : Bool :=
  match p.workerPids, p.pid with
  | some pids, some pid => pids[p.i]? == some pid
  | _, _ => false

/-- The code up to the next system call, or to the next place where a signal that has
arrived makes a difference. -/
def advance (workers : ℕ) (p : Proc) : Option Proc :=
  match p.pc with
  | .start => some { p with pc := .pidfile }
  | .pidfile => some { p with pc := .publish }
  | .publish => some { p with workerCount := workers, pc := .allocate }
  | .allocate =>
    some { p with
      workerPids := some (List.replicate workers 0)
      workerPid := 0
      workerId := -1
      i := 0
      pc := .spawn }
  | .spawn => some (if p.i < workers then { p with pc := .spawnFork } else { p with pc := .loop })
  | .spawned =>
    some <|
      if p.workerPid = 0 then { p with workerId := p.i, pc := .loop }
      else { p.store with i := p.i + 1, pc := .spawn }
  | .loop => some { p with pc := if p.workerPid ≠ 0 then .wait else .returned }
  | .scan =>
    some <|
      if p.i < workers then
        if p.hit && !p.upgraded then { p with pc := .refork } else { p with i := p.i + 1 }
      else { p with pc := .loop }
  | .reforked =>
    some <|
      if p.workerPid = 0 then { p with workerId := p.i, pc := .loop }
      else { p.store with pc := .loop }
  | .spawnFork => none
  | .wait => none
  | .refork => none
  | .returned => none

/-- Where the two calls of `fork` return, `none` elsewhere. -/
def afterFork (p : Proc) : Option Pc :=
  match p.pc with
  | .spawnFork => some .spawned
  | .refork => some .reforked
  | _ => none

/-- `waitpid` has returned. -/
def waited (p : Proc) (pid : Option ℕ) : Proc := { p with pid, i := 0, pc := .scan }

/-- The socket that `yta_run` hands to `serve` (lines 612–614). -/
def served (p : Proc) (listenFds : List ℕ) : Option ℕ :=
  if p.pc = .returned then listenFds[p.workerId.toNat]? else none

end Proc

/-- What `forward_signal_to_workers` reads. -/
structure Targets where
  /-- the pids that it passes to `kill` -/
  pids : List ℕ
  /-- The table has been freed before. -/
  freed : Bool

/-- A child of the master. -/
structure Child where
  /-- what it executes of `yta_fork_workers`, `none` if it has not been forked there -/
  proc : Option Proc
  /-- what its copy of the table holds, as long as it has the handlers of the master -/
  inherited : Option Targets
  running : Bool

/-- The signals that `signal_handler` is set up for. -/
inductive Signo
  | sigterm
  | sigint
  | sigquit
deriving DecidableEq

/-- Where the master is in `signal_handler`. -/
inductive Handler
  | idle
  /-- before the `waitpid` of the slot `k` -/
  | waiting (k : ℕ)
  /-- The table has been freed. -/
  | freed
deriving DecidableEq

/-- The handler of another signal begins. -/
def Handler.interrupt : Handler → Handler
  | .freed => .freed
  | _ => .waiting 0

structure Family where
  master : Proc
  /-- the children that have not been waited for, by their pids -/
  children : ℕ → Option Child
  handler : Handler
  /-- The signals whose handler has begun; they are blocked. -/
  active : List Signo
  /-- The master has ended. -/
  ended : Bool
  /-- `forward_signal_to_workers` has passed a pid to `kill`, in the master or in a child, that
  was not that of a worker the master had forked and not waited for, or has read the table
  after it was freed. -/
  stray : Bool
  /-- The loop that looks for the pid of a worker that has died has left it in the table,
  because of `upgraded`. -/
  skipped : Bool
  /-- A `waitpid` in `signal_handler` has returned. -/
  waited : Bool

namespace Family

inductive Label
  /-- The master goes on. -/
  | advance
  /-- `fork` in the master returns a pid. -/
  | fork (pid : ℕ)
  /-- A call fails that the master does not outlive. -/
  | fail
  /-- `waitpid` in `yta_fork_workers` returns a pid. -/
  | reap (pid : ℕ)
  /-- `waitpid` in `yta_fork_workers` fails. -/
  | waitError
  /-- A child goes on in `yta_fork_workers`. -/
  | child (pid : ℕ)
  /-- A child dies. -/
  | die (pid : ℕ)
  /-- The master gets another child, one that has lost its parent. -/
  | adopt (pid : ℕ)
  /-- `upgrade_handler` sets `upgraded`. -/
  | upgrade
  /-- `fork` in `upgrade_handler` returns a pid. -/
  | upgradeFork (pid : ℕ)
  /-- The child that has been forked there calls `execve`. -/
  | execve (pid : ℕ)
  /-- A signal arrives, and `signal_handler` forwards it. -/
  | signal (signo : Signo)
  /-- A child gets one of the signals, from the master or from outside. -/
  | childSignal (pid : ℕ)
  /-- `waitpid` in `signal_handler` returns a pid. -/
  | handlerReap (pid : ℕ)
  /-- `waitpid` in `signal_handler` fails. -/
  | handlerError
  /-- `signal_handler` goes on without a system call. -/
  | handlerAdvance

/-- A worker that the master has forked and not waited for. -/
def isWorker (s : Family) (pid : ℕ) : Bool :=
  match s.children pid with
  | some c => c.proc.isSome
  | none => false

/-- The pids that `forward_signal_to_workers` passes to `kill`. -/
def killTargets (s : Family) : List ℕ :=
  match s.master.workerPids with
  | none => []
  | some pids => pids.take s.master.workerCount

def targets (s : Family) : Targets where
  pids := s.killTargets
  freed := s.master.workerPids.isSome && s.handler == .freed

/-- Each of the pids is that of a worker of the master, and is read from a table that has not
been freed. -/
def owns (s : Family) (targets : Targets) : Bool := targets.pids.all s.isWorker && !targets.freed

def sendsToOwn (s : Family) : Bool := s.owns s.targets

/-- The pid that the handler waits for in the slot `k`. -/
def slotPid (s : Family) (k : ℕ) : Option ℕ :=
  s.master.workerPids.bind fun pids => if k < s.master.workerCount then pids[k]? else none

def setChild (s : Family) (pid : ℕ) (c : Child) : Family :=
  { s with children := Function.update s.children pid (some c) }

/-- `fork` in the master. Parent and child go on with the same variables, but for what
`fork` returns. -/
def fork (s : Family) (pid : ℕ) (pc : Pc) : Family :=
  { s with
    master := { s.master with workerPid := pid, pc }
    children := Function.update s.children pid
      (some { proc := some { s.master with workerPid := 0, pc }
              inherited := some s.targets
              running := true }) }

/-- `waitpid` has returned `pid`. -/
def forget (s : Family) (pid : ℕ) : Family :=
  { s with children := Function.update s.children pid none }

/-- A child can be waited for: it has died. -/
def canReap (s : Family) (pid : ℕ) : Bool :=
  match s.children pid with
  | some c => !c.running
  | none => false

/-- The master goes on. -/
def advance (workers : ℕ) (s : Family) : Option Family :=
  (s.master.advance workers).map fun master =>
    { s with master
             skipped := s.skipped || (s.master.pc == .scan && s.master.hit && s.master.upgraded) }

/-- The steps of the master outside of the handlers. -/
def masterStep (workers : ℕ) (s : Family) : Label → Option Family
  | .advance => s.advance workers
  | .fork pid =>
    match s.master.afterFork with
    | some pc => if pid ≠ 0 ∧ s.children pid = none then some (s.fork pid pc) else none
    | none => none
  | .fail =>
    if s.master.afterFork.isSome ∨ s.master.pc = .pidfile ∨ s.master.pc = .allocate then
      some { s with ended := true }
    else none
  | .reap pid =>
    if s.master.pc = .wait ∧ s.canReap pid then
      some { s.forget pid with master := s.master.waited (some pid) }
    else none
  | .waitError =>
    if s.master.pc = .wait then some { s with master := s.master.waited none } else none
  | _ => none

/-- The steps of `signal_handler` once the signal has been forwarded. -/
def handlerStep (s : Family) (k : ℕ) : Label → Option Family
  | .handlerReap pid =>
    -- `waitpid(0)` waits for any child
    if (s.slotPid k = some pid ∨ s.slotPid k = some 0) ∧ s.canReap pid then
      some { s.forget pid with handler := .waiting (k + 1), waited := true }
    else none
  | .handlerError =>
    match s.slotPid k with
    | some pid =>
      if s.children pid = none then
        some { s with handler := .waiting (k + 1), waited := true } else none
    | none => none
  | .handlerAdvance =>
    if k < s.master.workerCount then
      -- there is no table to read from
      if s.master.workerPids = none then some { s with ended := true } else none
    else some { s with handler := .freed }
  | _ => none

/-- The end of `exit_and_cleanup_main`. -/
def exitStep (s : Family) : Label → Option Family
  | .handlerAdvance => some { s with ended := true }
  | _ => none

/-- The steps of the children and the arrival of signals. -/
def outsideStep (workers : ℕ) (s : Family) : Label → Option Family
  | .child pid =>
    match s.children pid with
    | some { proc := some p, inherited := _, running := true } =>
      (p.advance workers).map fun p =>
        -- it has called `setup_worker_signal_handlers` then
        s.setChild pid { proc := some p, inherited := none, running := true }
    | _ => none
  | .die pid => (s.children pid).map fun c => s.setChild pid { c with running := false }
  | .adopt pid =>
    if pid ≠ 0 ∧ s.children pid = none then
      some (s.setChild pid { proc := none, inherited := none, running := true })
    else none
  | .upgrade =>
    if s.master.pc = .start ∨ s.master.pc = .pidfile then none
    else some { s with master := { s.master with upgraded := true } }
  | .upgradeFork pid =>
    if s.master.upgraded ∧ pid ≠ 0 ∧ s.children pid = none then
      some (s.setChild pid { proc := none, inherited := some s.targets, running := true })
    else none
  | .execve pid =>
    match s.children pid with
    | some { proc := none, inherited := some _, running := true } =>
      some (s.setChild pid { proc := none, inherited := none, running := true })
    | _ => none
  | .signal signo =>
    if s.master.pc ≠ .start ∧ signo ∉ s.active then
      some { s with
        active := signo :: s.active
        handler := s.handler.interrupt
        stray := s.stray || !s.sendsToOwn }
    else none
  | .childSignal pid =>
    match s.children pid with
    | some { proc, inherited := some targets, running := true } =>
      -- it runs `signal_handler`, which does not return
      some { s.setChild pid { proc, inherited := some targets, running := false } with
        stray := s.stray || !s.owns targets }
    -- `SIG_DFL`
    | some { proc := some p, inherited := none, running := true } =>
      some (s.setChild pid { proc := some p, inherited := none, running := false })
    | _ => none
  | _ => none

/-- One step of the system. The master does not go on outside of `signal_handler` once a
signal has arrived. -/
def step (workers : ℕ) (s : Family) (l : Label) : Option Family :=
  if s.ended then none
  else
    (s.outsideStep workers l).or
      (match s.handler with
      | .idle => s.masterStep workers l
      | .waiting k => s.handlerStep k l
      | .freed => s.exitStep l)

/-- The system when `yta_fork_workers` is called. -/
def init : Family where
  master := .init
  children _ := none
  handler := .idle
  active := []
  ended := false
  stray := false
  skipped := false
  waited := false

/-! ## Steps -/

/-- What a step does, rule by rule. -/
inductive Steps (workers : ℕ) (s : Family) : Label → Family → Prop
  | advance {p : Proc} : s.handler = .idle → s.master.advance workers = some p →
    Steps workers s .advance
      { s with
        master := p
        skipped := s.skipped || (s.master.pc == .scan && s.master.hit && s.master.upgraded) }
  | fork {pid : ℕ} {pc : Pc} : s.handler = .idle → s.master.afterFork = some pc → pid ≠ 0 →
    s.children pid = none → Steps workers s (.fork pid) (s.fork pid pc)
  | fail : Steps workers s .fail { s with ended := true }
  | reap {pid : ℕ} : s.handler = .idle → s.master.pc = .wait →
    Steps workers s (.reap pid) { s.forget pid with master := s.master.waited (some pid) }
  | waitError : s.handler = .idle → s.master.pc = .wait →
    Steps workers s .waitError { s with master := s.master.waited none }
  | child {pid : ℕ} {p p' : Proc} {inherited : Option Targets} :
    s.children pid = some { proc := some p, inherited, running := true } →
    p.advance workers = some p' →
    Steps workers s (.child pid)
      (s.setChild pid { proc := some p', inherited := none, running := true })
  | die {pid : ℕ} {c : Child} : s.children pid = some c →
    Steps workers s (.die pid) (s.setChild pid { c with running := false })
  | adopt {pid : ℕ} : pid ≠ 0 → s.children pid = none →
    Steps workers s (.adopt pid)
      (s.setChild pid { proc := none, inherited := none, running := true })
  | upgrade : Steps workers s .upgrade { s with master := { s.master with upgraded := true } }
  | upgradeFork {pid : ℕ} : s.master.upgraded → pid ≠ 0 → s.children pid = none →
    Steps workers s (.upgradeFork pid)
      (s.setChild pid { proc := none, inherited := some s.targets, running := true })
  | execve {pid : ℕ} {targets : Targets} :
    s.children pid = some { proc := none, inherited := some targets, running := true } →
    Steps workers s (.execve pid)
      (s.setChild pid { proc := none, inherited := none, running := true })
  | signal {signo : Signo} :
    Steps workers s (.signal signo)
      { s with
        active := signo :: s.active
        handler := s.handler.interrupt
        stray := s.stray || !s.sendsToOwn }
  | childHandles {pid : ℕ} {c : Child} {targets : Targets} : s.children pid = some c →
    c.inherited = some targets →
    Steps workers s (.childSignal pid)
      { s.setChild pid { c with running := false } with stray := s.stray || !s.owns targets }
  | childDefault {pid : ℕ} {c : Child} : s.children pid = some c →
    Steps workers s (.childSignal pid) (s.setChild pid { c with running := false })
  | handlerReap {k pid : ℕ} : s.handler = .waiting k →
    s.slotPid k = some pid ∨ s.slotPid k = some 0 →
    Steps workers s (.handlerReap pid)
      { s.forget pid with handler := .waiting (k + 1), waited := true }
  | handlerError {k pid : ℕ} : s.handler = .waiting k → s.slotPid k = some pid →
    s.children pid = none →
    Steps workers s .handlerError { s with handler := .waiting (k + 1), waited := true }
  | handlerTable {k : ℕ} : s.handler = .waiting k →
    Steps workers s .handlerAdvance { s with ended := true }
  | handlerFree {k : ℕ} : s.handler = .waiting k →
    Steps workers s .handlerAdvance { s with handler := .freed }
  | exit : s.handler = .freed → Steps workers s .handlerAdvance { s with ended := true }

variable {workers : ℕ} {s t : Family} {l : Label}

theorem steps_of_masterStep (hidle : s.handler = .idle) (h : s.masterStep workers l = some t) :
    s.Steps workers l t := by
  unfold masterStep at h
  split at h
  · obtain ⟨p, hp, rfl⟩ := Option.map_eq_some_iff.mp h
    exact .advance hidle hp
  · split at h
    · split_ifs at h with hpid
      cases h
      exact .fork hidle ‹_› hpid.1 hpid.2
    · cases h
  · split_ifs at h
    cases h
    exact .fail
  · split_ifs at h with hwait
    cases h
    exact .reap hidle hwait.1
  · split_ifs at h with hwait
    cases h
    exact .waitError hidle hwait
  · cases h

theorem steps_of_handlerStep {k : ℕ} (hk : s.handler = .waiting k)
    (h : s.handlerStep k l = some t) : s.Steps workers l t := by
  unfold handlerStep at h
  split at h
  · split_ifs at h with hslot
    cases h
    exact .handlerReap hk hslot.1
  · split at h
    · split_ifs at h with hnone
      cases h
      exact .handlerError hk ‹_› hnone
    · cases h
  · split_ifs at h
    · cases h
      exact .handlerTable hk
    · cases h
      exact .handlerFree hk
  · cases h

theorem steps_of_outsideStep (h : s.outsideStep workers l = some t) : s.Steps workers l t := by
  unfold outsideStep at h
  split at h
  · split at h
    · obtain ⟨p, hp, rfl⟩ := Option.map_eq_some_iff.mp h
      exact .child ‹_› hp
    · cases h
  · obtain ⟨c, hc, rfl⟩ := Option.map_eq_some_iff.mp h
    exact .die hc
  · split_ifs at h with hpid
    cases h
    exact .adopt hpid.1 hpid.2
  · split_ifs at h
    cases h
    exact .upgrade
  · split_ifs at h with hpid
    cases h
    exact .upgradeFork hpid.1 hpid.2.1 hpid.2.2
  · split at h
    · cases h
      exact .execve ‹_›
    · cases h
  · split_ifs at h
    cases h
    exact .signal
  · split at h
    · cases h
      exact .childHandles ‹_› rfl
    · cases h
      exact .childDefault ‹_›
    · cases h
  · cases h

/-- **Inversion.** Every step is one of the rules. -/
theorem steps_of_step (h : step workers s l = some t) : s.Steps workers l t := by
  unfold step at h
  split at h
  · cases h
  rcases Option.or_eq_some_iff.mp h with h | ⟨-, h⟩
  · exact steps_of_outsideStep h
  · split at h
    case h_1 hidle => exact steps_of_masterStep hidle h
    case h_2 hk => exact steps_of_handlerStep hk h
    case h_3 hfreed =>
      unfold exitStep at h
      split at h
      · cases h
        exact .exit hfreed
      · cases h

end Family

end Yotta.Process
