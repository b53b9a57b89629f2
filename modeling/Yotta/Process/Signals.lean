import Yotta.Process.Slots

/-!
# Signals to the workers

`forward_signal_to_workers` (lines 21–27) passes to `kill` what the table holds when the
signal arrives. `calm` tells when that is good: not while the table is being filled, not
between the `waitpid` that returns a worker of the table and the store of its
replacement, not after an upgrade has left a dead worker in it, and not after a handler
has waited for a worker. A child that the signal reaches before it has set up its own handlers
forwards it too.

Results:
* `Inv.sendsToOwn_iff`: the pids are those of workers of the master exactly then.
* `kills_own_workers`: the same, for every run, with what a child passes.
-/

namespace Yotta.Process

/-- `yta_fork_workers` is at a place where a signal finds a worker in each slot. -/
def Proc.settled (workers : ℕ) (p : Proc) : Bool :=
  match p.pc with
  | .spawn => p.i == workers
  | .spawnFork => false
  | .spawned => false
  | .scan =>
    -- the rest of the table does not hold the pid
    match p.workerPids, p.pid with
    | some pids, some pid => !(pids.drop p.i).contains pid
    | _, _ => true
  | .refork => false
  -- the replacement may have got the pid of the worker that died
  | .reforked => p.pid == some p.workerPid
  | _ => true

namespace Family

/-- A signal that arrives now is good. -/
def calm (workers : ℕ) (s : Family) : Bool :=
  s.master.workerPids.isNone ||
    (s.handler != .freed && !s.waited && !s.skipped && s.master.settled workers)

/-- The signals of a run arrive at such times, and at no child that has the handlers of the
master. -/
def CalmSignals (workers : ℕ) (s : Family) : Label → Prop
  | .signal _ => s.calm workers = true
  | .childSignal pid => ∀ c ∈ s.children pid, c.inherited.isNone = true
  | _ => True

instance (workers : ℕ) (s : Family) : (l : Label) → Decidable (s.CalmSignals workers l)
  | .signal _ => inferInstanceAs (Decidable (_ = true))
  | .childSignal pid =>
    inferInstanceAs (Decidable (∀ c ∈ s.children pid, c.inherited.isNone = true))
  | .advance => inferInstanceAs (Decidable True)
  | .fork _ => inferInstanceAs (Decidable True)
  | .fail => inferInstanceAs (Decidable True)
  | .reap _ => inferInstanceAs (Decidable True)
  | .waitError => inferInstanceAs (Decidable True)
  | .child _ => inferInstanceAs (Decidable True)
  | .die _ => inferInstanceAs (Decidable True)
  | .adopt _ => inferInstanceAs (Decidable True)
  | .upgradeFork _ => inferInstanceAs (Decidable True)
  | .execve _ => inferInstanceAs (Decidable True)
  | .upgrade => inferInstanceAs (Decidable True)
  | .handlerReap _ => inferInstanceAs (Decidable True)
  | .handlerError => inferInstanceAs (Decidable True)
  | .handlerAdvance => inferInstanceAs (Decidable True)

variable {workers : ℕ} {s t : Family} {pids : List ℕ}

theorem Held.isWorker {j : ℕ} (h : Held s.slotOf pids j) :
    ∃ pid, pids[j]? = some pid ∧ s.isWorker pid = true := by
  obtain ⟨pid, hget, hslot⟩ := h
  refine ⟨pid, hget, ?_⟩
  rw [isWorker_eq, hslot]
  rfl

theorem isWorker_of_none {pid : ℕ} (h : s.slotOf pid = none) : s.isWorker pid = false := by
  rw [isWorker_eq, h]
  rfl

/-- No worker has the pid `0`. -/
theorem Inv.isWorker_zero (h : s.Inv workers) : s.isWorker 0 = false :=
  isWorker_of_none h.slotOf_zero

theorem Inv.of_table (h : s.Inv workers) (hpids : s.master.workerPids = some pids) :
    pids.length = workers ∧ s.master.workerCount = workers ∧
      s.master.pc ∉ [.start, .pidfile, .publish, .allocate] := by
  have hearly : s.master.pc ∉ [.start, .pidfile, .publish, .allocate] := by
    have htable := h.table
    unfold TableAllocated at htable
    rw [hpids] at htable
    intro hpc
    simp only [List.mem_cons, List.not_mem_nil, or_false] at hpc
    rcases hpc with hpc | hpc | hpc | hpc <;> simp [hpc] at htable
  obtain ⟨_, heq, hlength, hcount⟩ := h.exists_table hearly
  obtain rfl := Option.some.inj (hpids.symm.trans heq)
  exact ⟨hlength, hcount, hearly⟩

/-- Where the table is settled, every slot is held by a worker. -/
theorem Inv.isWorker_of_settled (h : s.Inv workers) (hpids : s.master.workerPids = some pids)
    (hwaited : s.waited = false) (hskip : s.skipped = false)
    (hsettled : s.master.settled workers = true) {j pid : ℕ} (hj : pids[j]? = some pid) :
    s.isWorker pid = true := by
  obtain ⟨hlength, -, hearly⟩ := h.of_table hpids
  have hlt : j < workers := hlength ▸ (List.getElem?_eq_some_iff.mp hj).1
  have hheld : Held s.slotOf pids j → s.isWorker pid = true := by
    intro hheld
    obtain ⟨pid', hget, hworker⟩ := hheld.isWorker
    rwa [Option.some.inj (hj.symm.trans hget)]
  have hforks := h.forks
  have hslots := h.slots hwaited hskip hpids
  unfold Forks at hforks
  unfold Slots at hslots
  unfold Proc.settled at hsettled
  rw [hpids] at hsettled
  cases hpc : s.master.pc with
  | spawn =>
    rw [hpc] at hsettled hslots
    have hi : s.master.i = workers := by simpa using hsettled
    exact hheld (hslots.2.1 j (by omega))
  | spawnFork => rw [hpc] at hsettled; cases hsettled
  | spawned => rw [hpc] at hsettled; cases hsettled
  | loop =>
    rw [hpc] at hslots
    exact hheld (hslots j hlt)
  | wait =>
    rw [hpc] at hslots
    exact hheld (hslots j hlt)
  | scan =>
    rw [hpc] at hsettled hslots
    rcases hslots.2.2 j hlt with hheld' | ⟨hle, -, hsame⟩
    · exact hheld hheld'
    · -- the pid that was waited for would be in the rest of the table
      rw [show s.master.pid = some pid from hsame.symm.trans hj] at hsettled
      have hmem : pid ∈ pids.drop s.master.i := by
        have hget : (pids.drop s.master.i)[j - s.master.i]? = some pid := by
          rw [List.getElem?_drop, Nat.add_sub_cancel' hle]
          exact hj
        exact List.mem_of_getElem? hget
      exact absurd hmem (by simpa using hsettled)
  | refork => rw [hpc] at hsettled; cases hsettled
  | reforked =>
    rw [hpc] at hsettled hslots
    obtain ⟨hnew, -, ⟨old, hold, hget, -⟩, hothers⟩ := hslots
    by_cases hji : j = s.master.i
    · subst hji
      have hsame : s.master.pid = some s.master.workerPid := by simpa using hsettled
      obtain rfl := Option.some.inj (hj.symm.trans hget)
      obtain rfl := Option.some.inj (hold.symm.trans hsame)
      rw [isWorker_eq, hnew]
      rfl
    · exact hheld (hothers j hlt hji)
  | returned =>
    rw [hpc] at hforks
    have hzero : workers = 0 := hforks
    omega
  | _ => exact absurd hpc (by simp_all)

/-- Where it is not, a slot is held by nobody. -/
theorem Inv.exists_not_isWorker (h : s.Inv workers) (hpids : s.master.workerPids = some pids)
    (hwaited : s.waited = false) (hskip : s.skipped = false)
    (hsettled : s.master.settled workers = false) :
    ∃ pid ∈ pids, s.isWorker pid = false := by
  have hslots := h.slots hwaited hskip hpids
  unfold Slots at hslots
  unfold Proc.settled at hsettled
  rw [hpids] at hsettled
  cases hpc : s.master.pc with
  | spawn =>
    rw [hpc] at hslots hsettled
    obtain ⟨hle, -, hzero⟩ := hslots
    have hne : s.master.i ≠ workers := by simpa using hsettled
    exact ⟨0, List.mem_of_getElem? (hzero s.master.i le_rfl (by omega)), h.isWorker_zero⟩
  | spawnFork =>
    rw [hpc] at hslots
    obtain ⟨hlt, -, hzero⟩ := hslots
    exact ⟨0, List.mem_of_getElem? (hzero s.master.i le_rfl hlt), h.isWorker_zero⟩
  | spawned =>
    rw [hpc] at hslots
    obtain ⟨-, hlt, -, hzero⟩ := hslots
    exact ⟨0, List.mem_of_getElem? (hzero s.master.i le_rfl hlt), h.isWorker_zero⟩
  | scan =>
    rw [hpc] at hslots hsettled
    obtain ⟨-, hdead, -⟩ := hslots
    cases hpid : s.master.pid with
    | none => rw [hpid] at hsettled; cases hsettled
    | some pid =>
      rw [hpid] at hsettled
      have hmem : pid ∈ pids.drop s.master.i := by simpa using hsettled
      exact ⟨pid, List.mem_of_mem_drop hmem, isWorker_of_none (hdead pid hpid)⟩
  | refork =>
    rw [hpc] at hslots
    obtain ⟨-, ⟨pid, -, hget, hdead⟩, -⟩ := hslots
    exact ⟨pid, List.mem_of_getElem? hget, isWorker_of_none hdead⟩
  | reforked =>
    rw [hpc] at hslots hsettled
    obtain ⟨-, -, ⟨pid, hpid, hget, hdead⟩, -⟩ := hslots
    have hne : pid ≠ s.master.workerPid := by
      rintro rfl
      rw [hpid] at hsettled
      simp at hsettled
    exact ⟨pid, List.mem_of_getElem? hget, isWorker_of_none (hdead.resolve_right hne)⟩
  | _ => rw [hpc] at hsettled; cases hsettled

/-- **The pids that are passed to `kill`** are those of workers of the master exactly if
the signal arrives at such a time. -/
theorem Inv.sendsToOwn_iff (h : s.Inv workers) :
    s.sendsToOwn = true ↔ s.calm workers = true := by
  cases hpids : s.master.workerPids with
  | none => simp [sendsToOwn, owns, targets, calm, killTargets, hpids]
  | some pids =>
    obtain ⟨hlength, hcount, -⟩ := h.of_table hpids
    have htargets := killTargets_eq hpids (hlength.trans hcount.symm)
    have hsends : s.sendsToOwn = true ↔
        (∀ pid ∈ pids, s.isWorker pid = true) ∧ s.handler ≠ .freed := by
      unfold sendsToOwn owns targets
      rw [htargets, hpids]
      simp
    have hcalm : s.calm workers = true ↔ s.handler ≠ .freed ∧ s.waited = false ∧
        s.skipped = false ∧ s.master.settled workers = true := by
      unfold calm
      rw [hpids]
      simp [and_assoc]
    rw [hsends, hcalm]
    constructor
    · rintro ⟨hworkers, hfreed⟩
      have hwaited : s.waited = false := by
        by_contra hwaited
        obtain ⟨_, pid, heq, hget, hnone⟩ := h.waited (Bool.not_eq_false _ ▸ hwaited)
        obtain rfl := Option.some.inj (hpids.symm.trans heq)
        have hworker := hworkers pid (List.mem_of_getElem? hget)
        rw [isWorker_of_none hnone] at hworker
        cases hworker
      have hskip : s.skipped = false := by
        by_contra hskip
        obtain ⟨-, -, _, j, pid, heq, hget, hnone⟩ := h.skipped (Bool.not_eq_false _ ▸ hskip)
        obtain rfl := Option.some.inj (hpids.symm.trans heq)
        have hworker := hworkers pid (List.mem_of_getElem? hget)
        rw [isWorker_of_none hnone] at hworker
        cases hworker
      refine ⟨hfreed, hwaited, hskip, ?_⟩
      by_contra hsettled
      obtain ⟨pid, hmem, hother⟩ := h.exists_not_isWorker hpids hwaited hskip
        (Bool.not_eq_true _ ▸ hsettled)
      rw [hworkers pid hmem] at hother
      cases hother
    · rintro ⟨hfreed, hwaited, hskip, hsettled⟩
      refine ⟨fun pid hmem => ?_, hfreed⟩
      obtain ⟨j, hj⟩ := List.mem_iff_getElem?.mp hmem
      exact h.isWorker_of_settled hpids hwaited hskip hsettled hj

/-- A pid of a worker is not `0`. -/
theorem Inv.zero_notMem_killTargets (h : s.Inv workers) (hown : s.sendsToOwn = true) :
    0 ∉ s.killTargets := by
  intro hmem
  have hall := List.all_eq_true.mp (Bool.and_eq_true_iff.mp hown).1 0 hmem
  rw [h.isWorker_zero] at hall
  cases hall

theorem Inv.of_run {ok : Family → Label → Prop} (h : Run (step workers) ok init s) :
    s.Inv workers :=
  h.invariant inv_init fun _ _ _ hinv _ hs => hinv.of_steps (steps_of_step hs)

/-- Only a signal that arrives at another time goes astray. -/
theorem Steps.stray {l : Label} (hs : s.Steps workers l t) (hcalm : s.CalmSignals workers l)
    (h : s.Inv workers) (hstray : s.stray = false) : t.stray = false := by
  cases hs with
  | signal =>
    show (s.stray || !s.sendsToOwn) = false
    rw [hstray, h.sendsToOwn_iff.mpr hcalm]
    rfl
  | childHandles hc hinherited =>
    have hnone := hcalm _ hc
    rw [hinherited] at hnone
    cases hnone
  | _ => exact hstray

/-- **Signals to own workers.** In every run whose signals arrive while the table is not
there, or is settled, no handler has waited for a worker and no dead worker has been left
in it after an upgrade, and reach no child that has the handlers of the master, every pid that
is passed to `kill` is that of a worker that the master has forked and not waited for. In
every state that can be reached a signal to the master has this effect exactly then; the pid
`0` is not passed. A worker that has the handlers of the master would pass `0`, or the pid that
the master has waited for. -/
theorem kills_own_workers (workers : ℕ) :
    (∀ s, Run (step workers) (CalmSignals workers) init s → s.stray = false) ∧
    ∀ s, Reaches (step workers) init s →
      (s.sendsToOwn = true ↔ s.calm workers = true) ∧
      (s.sendsToOwn = true → 0 ∉ s.killTargets) ∧
      ∀ pid c p targets, s.children pid = some c → c.proc = some p →
        c.inherited = some targets →
        0 ∈ targets.pids ∨ ∃ dead ∈ p.pid, dead ∈ targets.pids := by
  constructor
  · intro s h
    induction h with
    | refl => rfl
    | tail hrun hcalm hs ih => exact (steps_of_step hs).stray hcalm (.of_run hrun) ih
  · intro s h
    have hinv := Inv.of_run h
    refine ⟨hinv.sendsToOwn_iff, hinv.zero_notMem_killTargets, ?_⟩
    intro pid c p targets hc hp hinherited
    exact (hinv.children hc hp).2.2 targets hinherited

/-- SIGTERM arrives when both workers have been forked and have set up their handlers, and is
forwarded to them. -/
theorem kills_own_workers_settled :
    ∃ s, Run (step 2) (CalmSignals 2) init s ∧ s.active = [.sigterm] ∧ s.killTargets = [10, 11] ∧
      s.stray = false := by
  have hstate : (exec (fun s l => if CalmSignals 2 s l then step 2 s l else none) init
      [.advance, .advance, .advance, .advance, .advance, .fork 10, .advance, .advance, .fork 11,
        .advance, .child 10, .child 11, .signal .sigterm, .childSignal 10, .childSignal 11]).map
        (fun s => (s.active, s.killTargets)) = some ([.sigterm], [10, 11]) := by
    decide
  obtain ⟨s, hexec, hstate⟩ := Option.map_eq_some_iff.mp hstate
  obtain ⟨hactive, htargets⟩ := Prod.mk.inj hstate
  have hrun : Run (step 2) (CalmSignals 2) init s := run_of_exec_ite hexec
  exact ⟨s, hrun, hactive, htargets, (kills_own_workers 2).1 s hrun⟩

/-- SIGTERM arrives when the first of two workers has been forked: `kill(0, SIGTERM)`. -/
theorem kills_process_group :
    ¬ ∀ (workers : ℕ) (s : Family), Reaches (step workers) init s → s.stray = false := by
  intro h
  have hstate : (exec (step 2) init [.advance, .advance, .advance, .advance, .advance, .fork 10,
      .advance, .signal .sigterm]).map (fun s => (s.killTargets, s.stray)) =
        some ([10, 0], true) := by
    decide
  obtain ⟨s, hexec, hstate⟩ := Option.map_eq_some_iff.mp hstate
  obtain ⟨-, hstray⟩ := Prod.mk.inj hstate
  rw [h 2 s (run_of_exec hexec)] at hstray
  cases hstray

end Family

end Yotta.Process
