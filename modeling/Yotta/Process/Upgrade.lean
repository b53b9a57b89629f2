import Yotta.Process.ListenFds
import Yotta.Process.PidFile
import Yotta.Process.Workers

/-!
# An upgrade that fails

Model of one run of `upgrade_handler` (`yta_process.c`, lines 111–154) in the master, with
every outcome of the calls it makes, and of what the loop that replaces the workers (lines
251–282) does afterwards.

Results:
* `respawns_iff`: the loop replaces workers as long as `upgraded` is not set.
* `not_refork_of_upgraded`: once it is, the loop replaces no worker in any run.
* `unchanged_iff`: which failures leave the master as it was.
-/

namespace Yotta.Process

open Yotta.Bytes

/-! ## Model of the code -/

/-- The globals of the master that `upgrade_handler` uses, and the directory. -/
structure Upgrader where
  /-- the variables of `yta_fork_workers`, `upgraded` and `worker_count` among them -/
  proc : Proc
  /-- `pidfile_to_delete`, `none` for `NULL` -/
  pidfile : Option Name
  /-- `stored_argv`, `none` for `NULL` -/
  storedArgv : Option (List (List UInt8))
  /-- `stored_listen_fds`, `none` for `NULL` -/
  storedListenFds : Option (List ℤ)
  dir : Directory Name (List UInt8)

/-- Which calls of `upgrade_handler` succeed. -/
structure Calls where
  /-- `calloc` of `new_name` -/
  calloc : Bool
  /-- `rename`, where the file is there -/
  rename : Bool
  /-- `calloc` in `create_listen_fds_env` -/
  callocEnv : Bool
  fork : Bool
  /-- `execve` in the child -/
  execve : Bool

/-- What the child executes. -/
structure Binary where
  argv : List (List UInt8)
  /-- the one string of `envp` -/
  env : List UInt8

/-- What has become of the master and of the child when both have left the handler. -/
structure Outcome where
  master : Upgrader
  /-- The master has ended. -/
  ended : Bool
  binary : Option Binary

/-- The child behind `fork`; it ends when `execve` fails. -/
def upgradeChild (c : Calls) (s : Upgrader) (buf : List UInt8) : Option Binary :=
  if c.execve then s.storedArgv.map fun argv => { argv, env := cstr buf } else none

/-- `upgrade_handler` behind `rename` (lines 130–153). -/
def upgradeRenamed (c : Calls) (s : Upgrader) : Outcome :=
  match c.callocEnv, s.storedListenFds with
  | true, some listenFds =>
    let buf := createListenFdsEnv listenFds s.proc.workerCount
    let s := { s with proc := { s.proc with upgraded := true } }
    { master := s, ended := false, binary := if c.fork then upgradeChild c s buf else none }
  -- `exit(1)`, or a read from `NULL`
  | _, _ => { master := s, ended := true, binary := none }

/-- `upgrade_handler` in the master. -/
def upgradeHandler (c : Calls) (s : Upgrader) : Outcome :=
  match s.pidfile with
  -- `strlen(NULL)`
  | none => { master := s, ended := true, binary := none }
  | some n =>
    if !c.calloc then { master := s, ended := false, binary := none }
    else if !(c.rename && (s.dir.inode n).isSome) then
      { master := s, ended := false, binary := none }
    else upgradeRenamed c
      { s with pidfile := some (oldName n), dir := s.dir.rename n (oldName n) }

/-! ## The respawn loop -/

/-- The code between two system calls, step by step. -/
abbrev Proc.Goes (workers : ℕ) : Proc → Proc → Prop :=
  Relation.ReflTransGen fun p q => p.advance workers = some q

/-- When a worker in the table has died, the loop comes to the `fork` that replaces it. -/
def Proc.Respawns (workers : ℕ) (p : Proc) : Prop :=
  ∀ pids, p.workerPids = some pids → ∀ pid ∈ pids.take workers,
    ∃ q, Proc.Goes workers (p.waited (some pid)) q ∧ q.pc = .refork

theorem Proc.advance_scan {workers : ℕ} {p : Proc} (hpc : p.pc = .scan) :
    p.advance workers = some (if p.i < workers then
      if p.hit && !p.upgraded then { p with pc := .refork } else { p with i := p.i + 1 }
      else { p with pc := .loop }) := by
  unfold Proc.advance
  rw [hpc]

/-- From a slot at or in front of that of the worker the loop comes to `fork`. -/
theorem Proc.goes_refork {workers : ℕ} {pids : List ℕ} {pid : ℕ} :
    ∀ (n : ℕ) (p : Proc), p.pc = .scan → p.workerPids = some pids → p.pid = some pid →
      p.upgraded = false → pids[p.i + n]? = some pid → p.i + n < workers →
      ∃ q, Proc.Goes workers p q ∧ q.pc = .refork := by
  intro n
  induction n with
  | zero =>
    intro p hpc hpids hpid hup hslot hlt
    have hpass : (p.hit && !p.upgraded) = true := by
      unfold Proc.hit
      rw [hpids, hpid, hup]
      simpa using hslot
    refine ⟨{ p with pc := .refork }, .single ?_, rfl⟩
    rw [Proc.advance_scan hpc, if_pos (by omega), if_pos hpass]
  | succ n ih =>
    intro p hpc hpids hpid hup hslot hlt
    have hlt' : p.i < workers := by omega
    have hadvance : p.advance workers = some (if p.hit && !p.upgraded then _ else _) :=
      (Proc.advance_scan hpc).trans (congrArg some (if_pos hlt'))
    by_cases hpass : (p.hit && !p.upgraded) = true
    · rw [if_pos hpass] at hadvance
      exact ⟨_, .single hadvance, rfl⟩
    · -- the pid stands further behind
      rw [if_neg hpass] at hadvance
      obtain ⟨q, hq, hrefork⟩ := ih { p with i := p.i + 1 } hpc hpids hpid hup
        (by rw [← hslot, Nat.add_right_comm, Nat.add_assoc]) (by dsimp only; omega)
      exact ⟨q, .head hadvance hq, hrefork⟩

/-- With `upgraded` set the code comes to no `fork` of the loop. -/
theorem Proc.advance_ne_refork {workers : ℕ} {p q : Proc} (hup : p.upgraded = true)
    (h : p.advance workers = some q) : q.pc ≠ .refork := by
  by_cases hpc : p.pc = .scan
  · have hpass : ¬ (p.hit && !p.upgraded) = true := by simp [hup]
    rw [Proc.advance_scan hpc, if_neg hpass] at h
    obtain rfl := Option.some.inj h
    split_ifs
    · show p.pc ≠ .refork
      rw [hpc]
      exact nofun
    · exact nofun
  · intro hq
    unfold Proc.advance at h
    split at h
    all_goals first
      | (cases h; done)
      | (exact absurd ‹_› hpc)
      | obtain rfl := Option.some.inj h
        first
          | cases hq
          | (split_ifs at hq)

/-- The loop replaces the workers that die if and only if `upgraded` is not set. -/
theorem respawns_iff {workers : ℕ} {p : Proc} {pids : List ℕ} (hpids : p.workerPids = some pids)
    (hne : pids.take workers ≠ []) : p.Respawns workers ↔ p.upgraded = false := by
  constructor
  · intro h
    obtain ⟨pid, hpid⟩ := List.exists_mem_of_ne_nil _ hne
    obtain ⟨q, hgoes, hq⟩ := h pids hpids pid hpid
    by_contra hup
    rw [Bool.not_eq_false] at hup
    have hkeep : q.upgraded = true ∧ q.pc ≠ .refork := by
      clear hq
      induction hgoes with
      | refl => exact ⟨hup, nofun⟩
      | tail _ hstep ih =>
        exact ⟨(Family.upgraded_advance hstep).trans ih.1, Proc.advance_ne_refork ih.1 hstep⟩
    exact hkeep.2 hq
  · intro hup pids' hpids' pid hpid
    obtain rfl := Option.some.inj (hpids.symm.trans hpids')
    obtain ⟨n, hn, hslot⟩ := List.getElem_of_mem hpid
    rw [List.length_take] at hn
    rw [List.getElem_take] at hslot
    apply Proc.goes_refork n (p.waited (some pid)) rfl hpids rfl hup
    · show pids[0 + n]? = some pid
      rw [Nat.zero_add, List.getElem?_eq_getElem (by omega), hslot]
    · show 0 + n < workers
      omega

namespace Family

/-- Once `upgraded` is set no run replaces a worker again. -/
theorem not_refork_of_upgraded {workers : ℕ} {s t : Family} (hup : s.master.upgraded = true)
    (hpc : s.master.pc ≠ .refork) (h : Reaches (step workers) s t) :
    t.master.upgraded = true ∧ t.master.pc ≠ .refork := by
  apply h.invariant ⟨hup, hpc⟩
  rintro s l t ⟨hup, hpc⟩ - hstep
  cases steps_of_step hstep with
  | advance _ hp => exact ⟨(upgraded_advance hp).trans hup, Proc.advance_ne_refork hup hp⟩
  | fork _ hafter =>
    refine ⟨hup, ?_⟩
    rintro rfl
    unfold Proc.afterFork at hafter
    split at hafter <;> cases hafter
  | reap => exact ⟨hup, nofun⟩
  | waitError => exact ⟨hup, nofun⟩
  | upgrade => exact ⟨rfl, hpc⟩
  | _ => exact ⟨hup, hpc⟩

end Family

/-! ## What a failure leaves behind -/

/-- The master is as it was before the signal: it goes on, with its flag, its pointer and
the names in the directory. -/
structure Unchanged (s : Upgrader) (r : Outcome) : Prop where
  alive : r.ended = false
  upgraded : r.master.proc.upgraded = s.proc.upgraded
  pidfile : r.master.pidfile = s.pidfile
  names : r.master.dir.inode = s.dir.inode

/-- `calloc` or `rename` fails. -/
def Aborts (c : Calls) (s : Upgrader) (n : Name) : Prop :=
  c.calloc = false ∨ c.rename = false ∨ s.dir.inode n = none

/-- Nothing behind `rename` fails. -/
def Launches (c : Calls) (s : Upgrader) : Prop :=
  c.callocEnv = true ∧ c.fork = true ∧ c.execve = true ∧
    s.storedListenFds ≠ none ∧ s.storedArgv ≠ none

variable {c : Calls} {s : Upgrader} {n : Name}

theorem upgradeHandler_of_aborts (hn : s.pidfile = some n) (h : Aborts c s n) :
    upgradeHandler c s = { master := s, ended := false, binary := none } := by
  unfold upgradeHandler
  rw [hn]
  dsimp only
  by_cases hcalloc : c.calloc = false
  · rw [hcalloc]
    rfl
  · have hrename : (c.rename && (s.dir.inode n).isSome) = false := by
      rcases h with h | h | h
      · exact absurd h hcalloc
      · rw [h, Bool.false_and]
      · rw [h, Option.isSome_none, Bool.and_false]
    rw [Bool.eq_true_of_not_eq_false hcalloc, hrename]
    rfl

theorem upgradeHandler_of_not_aborts (hn : s.pidfile = some n) (h : ¬ Aborts c s n) :
    upgradeHandler c s = upgradeRenamed c
      { s with pidfile := some (oldName n), dir := s.dir.rename n (oldName n) } := by
  unfold Aborts at h
  rw [not_or, not_or] at h
  obtain ⟨hcalloc, hrename, hfile⟩ := h
  unfold upgradeHandler
  rw [hn]
  dsimp only
  rw [Bool.eq_true_of_not_eq_false hcalloc, Bool.eq_true_of_not_eq_false hrename,
    Option.isSome_iff_ne_none.mpr hfile]
  rfl

/-- Neither the pointer nor the directory changes behind `rename`. -/
theorem upgradeRenamed_master (c : Calls) (s : Upgrader) :
    (upgradeRenamed c s).master.pidfile = s.pidfile ∧ (upgradeRenamed c s).master.dir = s.dir := by
  unfold upgradeRenamed
  split <;> exact ⟨rfl, rfl⟩

theorem upgradeRenamed_binary (c : Calls) (s : Upgrader) :
    (upgradeRenamed c s).binary ≠ none ↔ Launches c s := by
  obtain ⟨calloc, rename, callocEnv, fork, execve⟩ := c
  unfold upgradeRenamed Launches upgradeChild
  cases callocEnv <;> cases fork <;> cases execve <;> cases s.storedListenFds <;>
    cases s.storedArgv <;> simp

/-- Where the master goes on behind `rename`, `upgraded` is set. -/
theorem upgraded_of_alive (h : (upgradeRenamed c s).ended = false) :
    (upgradeRenamed c s).master.proc.upgraded = true := by
  unfold upgradeRenamed at h ⊢
  split at h
  · rfl
  · cases h

theorem oldName_ne (n : Name) : oldName n ≠ n := by
  intro h
  have := congrArg List.length h
  unfold oldName at this
  rw [List.length_append] at this
  have : (ascii ".old").length = 4 := by decide
  omega

/-- **A failed upgrade.** The handler leaves no trace where no new binary runs, and the
loop goes on replacing workers, if and only if `pidfile_to_delete` is set, and it is
`calloc` or `rename` that fails or nothing does. -/
theorem unchanged_iff (c : Calls) (s : Upgrader) :
    ((upgradeHandler c s).binary = none → Unchanged s (upgradeHandler c s) ∧
      ∀ workers, s.proc.Respawns workers →
        (upgradeHandler c s).master.proc.Respawns workers) ↔
    ∃ n, s.pidfile = some n ∧ (Aborts c s n ∨ Launches c s) := by
  constructor
  · intro h
    cases hn : s.pidfile with
    | none =>
      have hcrash : upgradeHandler c s = { master := s, ended := true, binary := none } := by
        unfold upgradeHandler
        rw [hn]
      rw [hcrash] at h
      exact absurd (h rfl).1.alive nofun
    | some n =>
      refine ⟨n, rfl, ?_⟩
      by_contra hno
      rw [not_or] at hno
      have heq := upgradeHandler_of_not_aborts hn hno.1
      have hbinary : (upgradeHandler c s).binary = none := by
        by_contra hsome
        rw [heq] at hsome
        have hlaunches := (upgradeRenamed_binary c _).mp hsome
        exact hno.2 hlaunches
      have hpidfile := (h hbinary).1.pidfile
      rw [heq, (upgradeRenamed_master c _).1, hn] at hpidfile
      exact oldName_ne n (Option.some.inj hpidfile)
  · rintro ⟨n, hn, haborts | hlaunches⟩ hbinary
    · rw [upgradeHandler_of_aborts hn haborts]
      exact ⟨⟨rfl, rfl, rfl, rfl⟩, fun _ h => h⟩
    · by_cases haborts : Aborts c s n
      · rw [upgradeHandler_of_aborts hn haborts]
        exact ⟨⟨rfl, rfl, rfl, rfl⟩, fun _ h => h⟩
      · rw [upgradeHandler_of_not_aborts hn haborts] at hbinary
        exact absurd hbinary ((upgradeRenamed_binary c _).mpr hlaunches)

/-- After another failure that it outlives, the master replaces no worker any more. -/
theorem not_respawns_of_late {workers : ℕ} {pids : List ℕ} (hn : s.pidfile = some n)
    (h : ¬ Aborts c s n) (halive : (upgradeHandler c s).ended = false)
    (hpids : s.proc.workerPids = some pids) (hne : pids.take workers ≠ []) :
    ¬ (upgradeHandler c s).master.proc.Respawns workers := by
  have hkeep : (upgradeHandler c s).master.proc.workerPids = some pids := by
    rw [upgradeHandler_of_not_aborts hn h, ← hpids]
    unfold upgradeRenamed
    split <;> rfl
  rw [respawns_iff hkeep hne]
  rw [upgradeHandler_of_not_aborts hn h] at halive ⊢
  rw [upgraded_of_alive halive]
  exact nofun

/-- A master that waits for its one worker. -/
def waitingMaster : Upgrader where
  proc := { Proc.init with
    pc := .wait, workerCount := 1, workerPids := some [101], workerPid := 101, i := 1 }
  pidfile := some (ascii "yotta.pid")
  storedArgv := some [ascii "yotta"]
  storedListenFds := some [3]
  dir := ((Directory.empty []).openTruncate [] (ascii "yotta.pid")).1

/-- The new binary cannot be executed: the pid file keeps its new name, and the worker is
not replaced when it dies. -/
theorem execve_fails :
    let c : Calls :=
      { calloc := true, rename := true, callocEnv := true, fork := true, execve := false }
    (upgradeHandler c waitingMaster).binary = none ∧
    ¬ Unchanged waitingMaster (upgradeHandler c waitingMaster) ∧
    waitingMaster.proc.Respawns 1 ∧
    ¬ (upgradeHandler c waitingMaster).master.proc.Respawns 1 := by
  intro c
  have hfile : waitingMaster.dir.inode (ascii "yotta.pid") ≠ none := by decide
  have haborts : ¬ Aborts c waitingMaster (ascii "yotta.pid") := by
    rintro (h | h | h)
    · cases h
    · cases h
    · exact hfile h
  have hrun := upgradeHandler_of_not_aborts (s := waitingMaster) rfl haborts
  have hpids : waitingMaster.proc.workerPids = some [101] := rfl
  have hne : [101].take 1 ≠ [] := by decide
  refine ⟨?_, fun h => ?_, ?_, ?_⟩
  · rw [hrun]
    rfl
  · have := h.upgraded
    rw [hrun] at this
    cases this
  · exact (respawns_iff hpids hne).mpr rfl
  · apply not_respawns_of_late rfl haborts _ hpids hne
    rw [hrun]
    rfl

end Yotta.Process
