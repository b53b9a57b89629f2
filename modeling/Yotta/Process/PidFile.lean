import Yotta.Lib.Directory
import Yotta.Lib.Numeral
import Yotta.Lib.Run

/-!
# Pid files

Model of `write_pidfile` (`yta_process.c`, lines 156–176), of `upgrade_handler` (lines
111–154) and of what `signal_handler` and `exit_and_cleanup_main` (lines 81–109) do to the
pid file, in any number of masters that are started with the same path.

The masters share a directory. A label is the next call of one of them, or a signal that
it gets; `upgrade_handler` may interrupt the other handlers, also behind
`free(pidfile_to_delete)`, and may be interrupted by them.
-/

namespace Yotta.Process

open Yotta.Bytes Yotta.Numeral

abbrev Name := List UInt8

/-- `sprintf(new_name, "%s%s", pidfile_to_delete, old_pid)` -/
def oldName (n : Name) : Name := n ++ ascii ".old"

/-- Where a master is in `write_pidfile` and in `upgrade_handler`. -/
inductive Stage
  /-- before `fopen` -/
  | starting
  /-- before `fwrite` -/
  | opened
  /-- before `pidfile_to_delete = pidfile_path` -/
  | written
  /-- after it, and outside of `upgrade_handler` -/
  | running
  /-- before `rename` -/
  | upgrading
  /-- before `pidfile_to_delete = new_name` -/
  | renamed
  /-- before `upgraded = 1` -/
  | assigned
  /-- before `fork` -/
  | forking
deriving DecidableEq

/-- How far a master is with its end. -/
inductive Ending
  | alive
  /-- `signal_handler` waits for the workers. -/
  | waiting
  /-- after `remove` -/
  | removed
deriving DecidableEq

structure Master where
  stage : Stage
  ending : Ending
  /-- `pidfile_to_delete`, `none` for `NULL` -/
  pidfile : Option Name
  /-- `pidfile_to_delete` has been freed. -/
  freed : Bool
  upgraded : Bool
  /-- `new_name` in `upgrade_handler` -/
  newName : Name
  /-- the stream of `write_pidfile` until `fclose` -/
  stream : Option ℕ
  /-- the name that the file of this stream has now, `none` when it has removed it -/
  file : Option Name

/-- A master before `write_pidfile`. -/
def Master.init : Master where
  stage := .starting
  ending := .alive
  pidfile := none
  freed := false
  upgraded := false
  newName := []
  stream := none
  file := none

structure Host where
  masters : ℕ → Option Master
  /-- the pids of all masters that there have been -/
  pids : List ℕ
  dir : Directory Name (List UInt8)

namespace Host

inductive Call
  /-- `fopen` in `write_pidfile` -/
  | open
  /-- `fwrite`, to the buffer of the stream -/
  | write
  /-- `pidfile_to_delete = pidfile_path` -/
  | name
  /-- `fclose` -/
  | close
  /-- `exit(1)` outside of the handlers -/
  | abort
  /-- SIGTERM, SIGINT or SIGQUIT arrives. -/
  | terminate
  /-- `remove` in `exit_and_cleanup_main` -/
  | remove
  /-- `free(pidfile_to_delete)` there -/
  | free
  /-- The memory that has been freed is used again. -/
  | overwrite (n : Name)
  /-- `exit` there -/
  | exit
  /-- SIGUSR1 arrives. -/
  | upgrade
  /-- `rename` in `upgrade_handler` -/
  | rename
  /-- `pidfile_to_delete = new_name` -/
  | assign
  /-- `upgraded = 1` -/
  | mark
  /-- `fork` there; the child calls `execve`. -/
  | fork (child : ℕ)

inductive Label
  /-- A master is started from outside. -/
  | start (pid : ℕ)
  | call (pid : ℕ) (c : Call)

def setMaster (s : Host) (pid : ℕ) (m : Option Master) : Host :=
  { s with masters := Function.update s.masters pid m }

/-- A process begins to execute the program. -/
def launch (s : Host) (pid : ℕ) : Host :=
  { s.setMaster pid (some .init) with pids := pid :: s.pids }

/-- What is in the buffer of the stream is written. -/
def flush (s : Host) (pid : ℕ) (m : Master) : Host :=
  match m.stream with
  | some i => if m.stage = .opened then s else { s with dir := s.dir.write i (decimal pid) }
  | none => s

/-- The process is gone, after `exit` has closed its stream. -/
def exit (s : Host) (pid : ℕ) (m : Master) : Host := (s.flush pid m).setMaster pid none

/-- `rename(pidfile_to_delete, new_name)` -/
def rename (s : Host) (pid : ℕ) (m : Master) (n : Name) : Host :=
  { s.setMaster pid
      (some { m with
        stage := .renamed
        file := if m.file = some n then some m.newName else m.file }) with
    dir := s.dir.rename n m.newName }

/-- `remove(pidfile_to_delete)` -/
def remove (s : Host) (pid : ℕ) (m : Master) (n : Name) : Host :=
  { s.setMaster pid
      (some { m with
        ending := .removed
        file := if m.file = some n then none else m.file }) with
    dir := s.dir.remove n }

/-- `fopen(pidfile_path, "w")` -/
def openPidfile (path : Name) (s : Host) (pid : ℕ) (m : Master) : Host :=
  { s.setMaster pid
      (some { m with
        stage := .opened
        stream := some (s.dir.openTruncate [] path).2
        file := some path }) with
    dir := (s.dir.openTruncate [] path).1 }

/-- A call of the master `m`. -/
def callStep (path : Name) (s : Host) (pid : ℕ) (m : Master) : Call → Option Host
  | .open =>
    if m.stage = .starting ∧ m.ending = .alive then some (s.openPidfile path pid m) else none
  | .write =>
    if m.stage = .opened ∧ m.ending = .alive then
      some (s.setMaster pid (some { m with stage := .written }))
    else none
  | .name =>
    if m.stage = .written ∧ m.ending = .alive then
      some (s.setMaster pid (some { m with stage := .running, pidfile := some path }))
    else none
  | .close =>
    if m.pidfile.isSome ∧ m.stream.isSome ∧ m.ending = .alive then
      some ((s.flush pid m).setMaster pid (some { m with stream := none }))
    else none
  | .abort => if m.ending = .alive then some (s.exit pid m) else none
  | .terminate =>
    if m.ending = .alive then some (s.setMaster pid (some { m with ending := .waiting })) else none
  | .remove =>
    if m.ending = .alive then none
    else
      match m.pidfile with
      | some n => some (s.remove pid m n)
      | none => some (s.setMaster pid (some { m with ending := .removed }))
  | .free =>
    if m.ending = .removed ∧ m.upgraded then
      some (s.setMaster pid (some { m with freed := true }))
    else none
  | .overwrite n =>
    if m.freed then some (s.setMaster pid (some { m with pidfile := some n })) else none
  -- SIGUSR1 may have set `upgraded` after the test of it
  | .exit => if m.ending = .removed then some (s.exit pid m) else none
  | .upgrade =>
    match m.pidfile with
    | some n =>
      -- the signal is blocked while its handler runs
      if m.stage = .running then
        some (s.setMaster pid (some { m with stage := .upgrading, newName := oldName n }))
      else none
    -- `strlen(NULL)`
    | none => some (s.setMaster pid none)
  | .rename =>
    match m.pidfile with
    | some n =>
      if m.stage = .upgrading then
        if (s.dir.inode n).isSome then some (s.rename pid m n)
        else some (s.setMaster pid (some { m with stage := .running }))
      else none
    | none => none
  | .assign =>
    if m.stage = .renamed then
      some (s.setMaster pid
        (some { m with stage := .assigned, pidfile := some m.newName, freed := false }))
    else none
  | .mark =>
    if m.stage = .assigned then
      some (s.setMaster pid (some { m with stage := .forking, upgraded := true }))
    else none
  | .fork child =>
    if m.stage = .forking ∧ s.masters child = none then
      some ((s.setMaster pid (some { m with stage := .running })).launch child)
    else none

/-- One step of the system. -/
def step (path : Name) (s : Host) : Label → Option Host
  | .start pid => if s.masters pid = none then some (s.launch pid) else none
  | .call pid c => (s.masters pid).bind (s.callStep path pid · c)

/-- Before the first master is started. -/
def init (dir : Directory Name (List UInt8)) : Host where
  masters _ := none
  pids := []
  dir := dir

/-! ## Steps -/

/-- What a step does, rule by rule. -/
inductive Steps (path : Name) (s : Host) : Label → Host → Prop
  | start {pid : ℕ} : s.masters pid = none → Steps path s (.start pid) (s.launch pid)
  | open {pid : ℕ} {m : Master} : s.masters pid = some m → m.stage = .starting →
    Steps path s (.call pid .open) (s.openPidfile path pid m)
  | write {pid : ℕ} {m : Master} : s.masters pid = some m → m.stage = .opened →
    Steps path s (.call pid .write) (s.setMaster pid (some { m with stage := .written }))
  | name {pid : ℕ} {m : Master} : s.masters pid = some m → m.stage = .written →
    m.ending = .alive → Steps path s (.call pid .name)
      (s.setMaster pid (some { m with stage := .running, pidfile := some path }))
  | close {pid : ℕ} {m : Master} : s.masters pid = some m → m.pidfile.isSome →
    Steps path s (.call pid .close) ((s.flush pid m).setMaster pid (some { m with stream := none }))
  | exit {pid : ℕ} {m : Master} {c : Call} : s.masters pid = some m →
    Steps path s (.call pid c) (s.exit pid m)
  | terminate {pid : ℕ} {m : Master} : s.masters pid = some m → m.ending = .alive →
    Steps path s (.call pid .terminate) (s.setMaster pid (some { m with ending := .waiting }))
  | remove {pid : ℕ} {m : Master} {n : Name} : s.masters pid = some m → m.pidfile = some n →
    Steps path s (.call pid .remove) (s.remove pid m n)
  | removeNull {pid : ℕ} {m : Master} : s.masters pid = some m → m.pidfile = none →
    Steps path s (.call pid .remove) (s.setMaster pid (some { m with ending := .removed }))
  | free {pid : ℕ} {m : Master} : s.masters pid = some m → m.ending = .removed → m.upgraded →
    Steps path s (.call pid .free) (s.setMaster pid (some { m with freed := true }))
  | overwrite {pid : ℕ} {m : Master} {n : Name} : s.masters pid = some m → m.freed →
    Steps path s (.call pid (.overwrite n)) (s.setMaster pid (some { m with pidfile := some n }))
  | upgrade {pid : ℕ} {m : Master} {n : Name} : s.masters pid = some m → m.stage = .running →
    Steps path s (.call pid .upgrade)
      (s.setMaster pid (some { m with stage := .upgrading, newName := oldName n }))
  | upgradeNull {pid : ℕ} {m : Master} : s.masters pid = some m →
    Steps path s (.call pid .upgrade) (s.setMaster pid none)
  | rename {pid : ℕ} {m : Master} {n : Name} : s.masters pid = some m → m.stage = .upgrading →
    m.pidfile = some n → (s.dir.inode n).isSome →
    Steps path s (.call pid .rename) (s.rename pid m n)
  | renameFails {pid : ℕ} {m : Master} : s.masters pid = some m → m.stage = .upgrading →
    Steps path s (.call pid .rename) (s.setMaster pid (some { m with stage := .running }))
  | assign {pid : ℕ} {m : Master} : s.masters pid = some m → m.stage = .renamed →
    Steps path s (.call pid .assign) (s.setMaster pid
      (some { m with stage := .assigned, pidfile := some m.newName, freed := false }))
  | mark {pid : ℕ} {m : Master} : s.masters pid = some m → m.stage = .assigned →
    Steps path s (.call pid .mark)
      (s.setMaster pid (some { m with stage := .forking, upgraded := true }))
  | fork {pid child : ℕ} {m : Master} : s.masters pid = some m → m.stage = .forking →
    s.masters child = none → Steps path s (.call pid (.fork child))
      ((s.setMaster pid (some { m with stage := .running })).launch child)

variable {path : Name} {s t : Host} {l : Label}

theorem steps_of_step (h : s.step path l = some t) : s.Steps path l t := by
  cases l with
  | start pid =>
    unfold step at h
    dsimp only at h
    split at h
    · cases h
      exact .start ‹_›
    · cases h
  | call pid c =>
    obtain ⟨m, hm, h⟩ := Option.bind_eq_some_iff.mp h
    cases c <;> unfold callStep at h <;> dsimp only at h
    case «open» =>
      split at h
      · cases h
        exact .open hm (And.left ‹_›)
      · cases h
    case write =>
      split at h
      · cases h
        exact .write hm (And.left ‹_›)
      · cases h
    case name =>
      split at h
      · cases h
        exact .name hm (And.left ‹_›) (And.right ‹_›)
      · cases h
    case close =>
      split at h
      · cases h
        exact .close hm (And.left ‹_›)
      · cases h
    case abort =>
      split at h
      · cases h
        exact .exit hm
      · cases h
    case terminate =>
      split at h
      · cases h
        exact .terminate hm ‹_›
      · cases h
    case remove =>
      split at h
      · cases h
      · split at h
        · cases h
          exact .remove hm ‹_›
        · cases h
          exact .removeNull hm ‹_›
    case free =>
      split at h
      · cases h
        exact .free hm (And.left ‹_›) (And.right ‹_›)
      · cases h
    case overwrite n =>
      split at h
      · cases h
        exact .overwrite hm ‹_›
      · cases h
    case exit =>
      split at h
      · cases h
        exact .exit hm
      · cases h
    case upgrade =>
      split at h
      · split at h
        · cases h
          exact .upgrade hm ‹_›
        · cases h
      · cases h
        exact .upgradeNull hm
    case rename =>
      split at h
      · split at h
        · split at h
          · cases h
            exact .rename hm ‹_› ‹_› ‹_›
          · cases h
            exact .renameFails hm ‹_›
        · cases h
      · cases h
    case assign =>
      split at h
      · cases h
        exact .assign hm ‹_›
      · cases h
    case mark =>
      split at h
      · cases h
        exact .mark hm ‹_›
      · cases h
    case fork child =>
      split at h
      · cases h
        exact .fork hm (And.left ‹_›) (And.right ‹_›)
      · cases h

end Host

end Yotta.Process
