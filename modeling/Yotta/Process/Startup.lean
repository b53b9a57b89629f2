import Yotta.Core.Listening
import Yotta.Lib.Population
import Yotta.Process.Upgrade

/-!
# Starting up

Model of `yta_run` (`yta_event_loop.c`, lines 602–617), of what it calls before `serve`
(`make_listen_socket`, `set_nonblock` and `get_listen_fds`, lines 53–113 and 551–578, and
`yta_daemonize`), and of `get_program_opts` (`args.h`).

An instance is a process that executes `yta_run`, with its descriptors and its environment. It
acts, one system call or one stretch of code at a time, from `main` to the loop of `serve`, and
it may leave another instance behind: by `fork`, or as what `upgrade_handler` executes. The
numbers of new descriptors and processes, and which calls fail, are up to the act. What
`upgrade_handler` executes is this program again. Where a worker executes it, the new process has
the descriptors of its connections too, and what the worker closes stays in its epoll sets.

`getopt` is a parameter: the options that it finds in an `argv`, with their arguments.
-/

namespace Yotta.Process

open Yotta.Bytes Yotta.Core Yotta.Numeral

/-! ## The command line -/

/-- `struct argument_options` -/
structure ArgumentOptions where
  daemonize : Bool
  pidFile : List UInt8
  port : List UInt8
  host : List UInt8
  workers : ℤ
deriving DecidableEq

def ArgumentOptions.default : ArgumentOptions where
  daemonize := false
  pidFile := ascii "/tmp/yotta.pid"
  port := ascii "8080"
  host := ascii "::"
  workers := 4

/-- One round of the loop in `get_program_opts`. -/
def ArgumentOptions.read (o : ArgumentOptions) : Char × List UInt8 → ArgumentOptions
  | ('g', _) => { o with daemonize := true }
  | ('i', optarg) => { o with pidFile := optarg }
  | ('p', optarg) => { o with port := optarg }
  | ('h', optarg) => { o with host := optarg }
  | ('w', optarg) => { o with workers := atoi optarg }
  | _ => o

abbrev Argv := List (List UInt8)

/-- `get_program_opts` -/
def getProgramOpts (getopt : Argv → List (Char × List UInt8)) (argv : Argv) : ArgumentOptions :=
  (getopt argv).foldl .read .default

/-! ## Listening sockets -/

/-- A socket of the kernel. -/
structure Socket where
  reuseAddr : Bool
  reusePort : Bool
  /-- the host and the port that it is bound to -/
  bound : Option (List UInt8 × List UInt8)
  nonblock : Bool
  listening : Bool
deriving DecidableEq

/-- `make_listen_socket` (lines 53–98) when its calls succeed. -/
def makeListenSocket (addr port : List UInt8) : Socket :=
  -- `socket`
  let s : Socket :=
    { reuseAddr := false, reusePort := false, bound := none, nonblock := false, listening := false }
  let s := { s with reuseAddr := true }
  let s := { s with reusePort := true }
  { s with bound := some (addr, port) }

/-- `set_nonblock` (lines 100–113) -/
def setNonblock (s : Socket) : Socket := { s with nonblock := true }

/-- The socket of a round of the loop in `get_listen_fds` (lines 562–570). -/
def listenSocket (addr port : List UInt8) : Socket :=
  { setNonblock (makeListenSocket addr port) with listening := true }

/-! ## Instances -/

/-- What a descriptor stands for. -/
inductive Object
  /-- the listening socket that was made as number `i` -/
  | listener (i : ℕ)
  /-- a connection or its timer -/
  | connection
  /-- a file, an epoll set, the signals -/
  | other
deriving DecidableEq

abbrev FdTable := ℕ → Option Object

/-- Where an instance is in `yta_run`. -/
inductive RunStage (κ υ : Type)
  /-- before `yta_daemonize` -/
  | start
  /-- before `get_listen_fds` -/
  | ready
  /-- in the loop of `get_listen_fds` -/
  | listen
  /-- in `yta_fork_workers` -/
  | fork
  /-- in `serve` -/
  | serve (r : Reactor κ υ)
  /-- behind `free(listen_fds)` -/
  | freed

structure Instance (κ υ : Type) where
  argv : Argv
  /-- `listen_fds` in the environment, with its name -/
  env : Option (List UInt8)
  fds : FdTable
  stage : RunStage κ υ
  /-- the entries of `listen_fds` that have been written -/
  listenFds : List ℤ
  /-- the variables of `yta_fork_workers` -/
  proc : Proc
  /-- `pidfile_to_delete`, `none` for `NULL` -/
  pidfile : Option Name
  /-- `stored_argv` -/
  storedArgv : Option Argv
  /-- `stored_listen_fds` -/
  storedListenFds : Option (List ℤ)
  /-- the descriptors of `serve` that a process which has been executed by `upgrade_handler` has
  too -/
  shared : List ℕ
  /-- One of these has been closed, and its context freed. -/
  stale : Bool

namespace Instance

variable {κ υ ε μ : Type}

/-- At the start of `main`. -/
def main (argv : Argv) (env : Option (List UInt8)) (fds : FdTable) : Instance κ υ where
  argv := argv
  env := env
  fds := fds
  stage := .start
  listenFds := []
  proc := .init
  pidfile := none
  storedArgv := none
  storedListenFds := none
  shared := []
  stale := false

/-- `yta_fork_workers` goes on with `proc` from where it was. -/
def goOn (o : ArgumentOptions) (p : Instance κ υ) (proc : Proc) : Instance κ υ :=
  match p.proc.pc with
  | .pidfile => { p with proc, pidfile := some o.pidFile }
  | .allocate => { p with proc, storedArgv := some p.argv, storedListenFds := some p.listenFds }
  | _ => { p with proc }

/-- The globals that `upgrade_handler` uses, in the directory `dir`. -/
def upgrader (p : Instance κ υ) (dir : Directory Name (List UInt8)) : Upgrader where
  proc := p.proc
  pidfile := p.pidfile
  storedArgv := p.storedArgv
  storedListenFds := p.storedListenFds
  dir := dir

/-- The descriptors of `serve`. -/
def serveFds (p : Instance κ υ) : List ℕ :=
  match p.stage with
  | .serve r => r.openFds
  | _ => []

/-- `upgrade_handler` has returned. -/
def upgraded (p : Instance κ υ) (o : Outcome) : Instance κ υ :=
  { p with
    proc := o.master.proc
    pidfile := o.master.pidfile
    storedArgv := o.master.storedArgv
    storedListenFds := o.master.storedListenFds
    shared := if o.binary.isSome then p.shared ++ p.serveFds else p.shared }

/-- What `execve` makes of a child, which has the descriptors of its parent: the source opens
none with `O_CLOEXEC`. -/
def execve (fds : FdTable) (b : Binary) : Instance κ υ := main b.argv (some b.env) fds

/-- `upgrade_handler` is set up for SIGUSR1, and what the process does is defined. -/
def handlesUpgrade (p : Instance κ υ) : Bool :=
  match p.stage with
  | .fork => p.proc.pc != .start
  | .serve r => r.stage != .undefined
  | .freed => true
  | _ => false

/-- `listen_fds` has been freed, and `stored_listen_fds` points to it still. -/
def hasFreed (p : Instance κ υ) : Bool :=
  match p.stage with
  | .freed => true
  | _ => false

/-- The descriptors behind a step of `serve` from `r` to `r'`. -/
def follow (fds : FdTable) (r r' : Reactor κ υ) : FdTable := fun fd =>
  if fd ∈ r'.openFds then if fd ∈ r.openFds then fds fd else some .connection
  else if fd ∈ r.openFds then none else fds fd

/-- Behind a step of `serve` from `r` to `r'`. -/
def reacted (p : Instance κ υ) (r r' : Reactor κ υ) : Instance κ υ :=
  { p with
    stage := .serve r'
    fds := follow p.fds r r'
    shared := p.shared.filter (· ∈ r'.openFds)
    stale := p.stale || p.shared.any (· ∉ r'.openFds) }

inductive Act (κ υ μ : Type)
  /-- `yta_daemonize` -/
  | daemonize
  /-- `getenv` in `get_listen_fds` -/
  | getenv
  /-- a round of its loop, in which `socket` returns `fd` -/
  | socket (fd : ℕ)
  /-- the end of its loop -/
  | listened
  /-- `yta_fork_workers` goes on. -/
  | advance
  /-- `fork` in it -/
  | fork
  /-- `waitpid` in it returns a pid or fails. -/
  | wait (pid : Option ℕ)
  /-- `drop_root` and `create_reactor`; `ctx` is a context that has been cleared -/
  | serve (ctx : Ctx κ υ)
  /-- a step of `serve` -/
  | react (l : Reactor.Label μ)
  /-- `epoll_wait` returns an event of a descriptor that has been closed. -/
  | staleEvent
  /-- `free(listen_fds)` behind `serve` -/
  | free
  /-- The memory that has been freed is used again. -/
  | overwrite (listenFds : List ℤ)
  /-- SIGUSR1 arrives; `dir` is the directory as it is then. -/
  | upgrade (c : Calls) (dir : Directory Name (List UInt8))
  /-- a file, an epoll set or the signals are opened -/
  | openOther (fd : ℕ)
  /-- one of these is closed -/
  | closeOther (fd : ℕ)
  /-- The process ends. -/
  | die

/-- `listen_fds` as `get_listen_fds` returns it from the environment. -/
def inherited (workers : ℕ) (env : List UInt8) : List ℤ :=
  parseListenFdsEnv (Process.getenv env) workers

/-- The acts up to `yta_fork_workers`. `made` is the number of listening sockets that there
have been. -/
def startAct (o : ArgumentOptions) (made : ℕ) (p : Instance κ υ) :
    Act κ υ μ → Option (Effect (Instance κ υ))
  | .daemonize =>
    match p.stage with
    | .start =>
      -- the parent exits
      if o.daemonize then some ⟨none, some { p with stage := .ready }⟩
      else some ⟨some { p with stage := .ready }, none⟩
    | _ => none
  | .getenv =>
    match p.stage, p.env with
    | .ready, none => some ⟨some { p with stage := .listen, listenFds := [] }, none⟩
    | .ready, some env =>
      some ⟨some { p with stage := .fork, listenFds := inherited o.workers.toNat env }, none⟩
    | _, _ => none
  | .socket fd =>
    match p.stage with
    | .listen =>
      if p.listenFds.length < o.workers.toNat ∧ p.fds fd = none ∧ fd < 2 ^ 31 then
        some ⟨some { p with
          fds := Function.update p.fds fd (some (.listener made))
          listenFds := p.listenFds ++ [(fd : ℤ)] }, none⟩
      else none
    | _ => none
  | .listened =>
    match p.stage with
    | .listen =>
      if p.listenFds.length < o.workers.toNat then none
      else some ⟨some { p with stage := .fork }, none⟩
    | _ => none
  | _ => none

/-- The acts in `yta_fork_workers`, up to `serve`. `child` is what `fork` returns. -/
def forkAct (o : ArgumentOptions) (child : ℕ) (p : Instance κ υ) :
    Act κ υ μ → Option (Effect (Instance κ υ))
  | .advance => (p.proc.advance o.workers.toNat).map fun proc => ⟨some (p.goOn o proc), none⟩
  | .fork =>
    p.proc.afterFork.map fun pc =>
      ⟨some { p with proc := { p.proc with workerPid := child, pc } },
        some { p with proc := { p.proc with workerPid := 0, pc } }⟩
  | .wait pid =>
    if p.proc.pc = .wait then some ⟨some { p with proc := p.proc.waited pid }, none⟩ else none
  | .serve ctx =>
    (p.proc.served (p.listenFds.map Int.toNat)).map fun fd =>
      ⟨some { p with stage := .serve (.create fd ctx) }, none⟩
  | _ => none

/-- What an act makes of an instance. -/
def act (getopt : Argv → List (Char × List UInt8)) (svc : Service κ υ ε μ) (made child : ℕ)
    (p : Instance κ υ) (a : Act κ υ μ) : Option (Effect (Instance κ υ)) :=
  match a, p.stage with
  | .die, _ => some ⟨none, none⟩
  | .openOther fd, _ =>
    if p.fds fd = none then
      some ⟨some { p with fds := Function.update p.fds fd (some .other) }, none⟩
    else none
  | .closeOther fd, _ =>
    if p.fds fd = some .other then
      some ⟨some { p with fds := Function.update p.fds fd none }, none⟩
    else none
  | .upgrade c dir, _ =>
    if p.handlesUpgrade then
      let o := upgradeHandler c (p.upgrader dir)
      some ⟨if o.ended then none else some (p.upgraded o), o.binary.map (execve p.fds)⟩
    else none
  | .react l, .serve r =>
    if ∀ fd ∈ l.opens, p.fds fd = none then
      (Reactor.step svc r l).map fun r' => ⟨some (p.reacted r r'), none⟩
    else none
  | .staleEvent, .serve r =>
    -- it has the pointer to a context that has been freed
    if p.stale ∧ (r.stage = .socketWait ∨ r.stage = .timerWait) then
      some ⟨some { p with stage := .serve { r with stage := .undefined } }, none⟩
    else none
  | .free, .serve r =>
    if r.stage = .left then some ⟨some { p with stage := .freed }, none⟩ else none
  | .overwrite listenFds, .freed =>
    some ⟨some { p with storedListenFds := some listenFds }, none⟩
  | a, .fork => p.forkAct (getProgramOpts getopt p.argv) child a
  | a, _ => p.startAct (getProgramOpts getopt p.argv) made a

/-- The listening socket that is made by an act. -/
def Act.made (o : ArgumentOptions) : Act κ υ μ → List Socket
  | .socket _ => [listenSocket o.host o.port]
  | _ => []

end Instance

/-! ## The workers' variables -/

/-- What holds where the code is in `yta_fork_workers`: the count of the workers has been
published, and a process that has left its loops has the number of a worker. -/
def Proc.Placed (workers : ℕ) (p : Proc) : Prop :=
  match p.pc with
  | .start => True
  | .pidfile => True
  | .publish => True
  | .allocate => p.workerCount = workers
  | .spawn => p.workerCount = workers ∧ (p.i = 0 ∨ p.workerPid ≠ 0)
  | .loop => p.workerCount = workers ∧ (p.workerPid = 0 → ∃ i < workers, p.workerId = i)
  | .wait => p.workerCount = workers ∧ p.workerPid ≠ 0
  | .scan => p.workerCount = workers ∧ p.workerPid ≠ 0
  | .returned => p.workerCount = workers ∧ ∃ i < workers, p.workerId = i
  | .spawnFork => p.workerCount = workers ∧ p.i < workers
  | .spawned => p.workerCount = workers ∧ p.i < workers
  | .refork => p.workerCount = workers ∧ p.i < workers
  | .reforked => p.workerCount = workers ∧ p.i < workers

namespace Proc.Placed

variable {workers : ℕ} {p p' : Proc}

theorem advance (hpos : 0 < workers) (h : p.Placed workers) (hp : p.advance workers = some p') :
    p'.Placed workers := by
  unfold Proc.advance at hp
  unfold Proc.Placed at h
  cases hpc : p.pc <;> rw [hpc] at hp h <;> dsimp only at hp h <;> cases hp
  case start => trivial
  case pidfile => trivial
  case publish => rfl
  case allocate => exact ⟨h, Or.inl rfl⟩
  case spawn =>
    split_ifs with hlt
    · exact ⟨h.1, hlt⟩
    · -- a worker has been forked
      refine ⟨h.1, fun hzero => ?_⟩
      rcases h.2 with hi | hpid
      · omega
      · exact absurd hzero hpid
  case spawned =>
    split_ifs with hzero
    · exact ⟨h.1, fun _ => ⟨p.i, h.2, rfl⟩⟩
    · exact ⟨h.1, Or.inr hzero⟩
  case loop =>
    by_cases hzero : p.workerPid = 0
    · rw [if_neg (not_not.mpr hzero)]
      exact ⟨h.1, h.2 hzero⟩
    · rw [if_pos hzero]
      exact ⟨h.1, hzero⟩
  case scan =>
    split_ifs with hlt hhit
    · exact ⟨h.1, hlt⟩
    · exact h
    · exact ⟨h.1, fun hzero => absurd hzero h.2⟩
  case reforked =>
    split_ifs with hzero
    · exact ⟨h.1, fun _ => ⟨p.i, h.2, rfl⟩⟩
    · exact ⟨h.1, fun hzero' => absurd hzero' hzero⟩

/-- Parent and child go on behind `fork`. -/
theorem afterFork (h : p.Placed workers) {pc : Pc} (hpc : p.afterFork = some pc) (pid : ℕ) :
    Proc.Placed workers { p with workerPid := pid, pc } := by
  unfold Proc.afterFork at hpc
  unfold Proc.Placed at h
  split at hpc <;> cases hpc
  · next hspawn =>
    rw [hspawn] at h
    exact h
  · next hrefork =>
    rw [hrefork] at h
    exact h

theorem waited (h : p.Placed workers) (hpc : p.pc = .wait) (pid : Option ℕ) :
    (p.waited pid).Placed workers := by
  unfold Proc.Placed at h
  rw [hpc] at h
  exact h

/-- `upgrade_handler` sets `upgraded`. -/
theorem upgraded (h : p.Placed workers) : Proc.Placed workers { p with upgraded := true } := h

end Proc.Placed

end Yotta.Process
