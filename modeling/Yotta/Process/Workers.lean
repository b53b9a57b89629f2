import Yotta.Process.Slots

/-!
# One worker for each listening socket

`yta_run` (lines 602–617) serves the socket `listen_fds[worker_id]`. As long as there is
no upgrade and no signal, every socket has its worker, whatever children die.

Results:
* `Inv.oneWorkerPerSlot`, `Inv.workerId_eq`, `Inv.table_eq`: what the invariant says at a
  `waitpid`, of the workers, and of a pid that is not in the table.
* `one_worker_per_slot`: all of it, for every run.
-/

namespace Yotta.Process.Family

variable {workers : ℕ} {s t : Family}

/-! ## Without upgrades and signals -/

/-- No upgrade, no signal, and no call fails that the master does not outlive. -/
def Quiet (_ : Family) : Label → Prop
  | .signal _ => False
  | .upgrade => False
  | .fail => False
  | _ => True

theorem upgraded_advance {p p' : Proc} (hp : p.advance workers = some p') :
    p'.upgraded = p.upgraded := by
  unfold Proc.advance at hp
  split at hp
  all_goals first
    | cases hp; done
    | obtain rfl := Option.some.inj hp
      first | rfl | (split_ifs <;> rfl)

instance (s : Family) : (l : Label) → Decidable (s.Quiet l)
  | .signal _ => inferInstanceAs (Decidable False)
  | .upgrade => inferInstanceAs (Decidable False)
  | .fail => inferInstanceAs (Decidable False)
  | .advance => inferInstanceAs (Decidable True)
  | .fork _ => inferInstanceAs (Decidable True)
  | .reap _ => inferInstanceAs (Decidable True)
  | .waitError => inferInstanceAs (Decidable True)
  | .child _ => inferInstanceAs (Decidable True)
  | .die _ => inferInstanceAs (Decidable True)
  | .adopt _ => inferInstanceAs (Decidable True)
  | .upgradeFork _ => inferInstanceAs (Decidable True)
  | .execve _ => inferInstanceAs (Decidable True)
  | .childSignal _ => inferInstanceAs (Decidable True)
  | .handlerReap _ => inferInstanceAs (Decidable True)
  | .handlerError => inferInstanceAs (Decidable True)
  | .handlerAdvance => inferInstanceAs (Decidable True)

/-- In a quiet run no handler begins. -/
theorem quiet_of_steps {l : Label} (hquiet : s.Quiet l) (hs : s.Steps workers l t)
    (h : s.handler = .idle ∧ s.master.upgraded = false) :
    t.handler = .idle ∧ t.master.upgraded = false := by
  obtain ⟨hidle, hup⟩ := h
  cases hs with
  | advance _ hp => exact ⟨hidle, (upgraded_advance hp).trans hup⟩
  | fork => exact ⟨hidle, hup⟩
  | fail => exact ⟨hidle, hup⟩
  | reap => exact ⟨hidle, hup⟩
  | waitError => exact ⟨hidle, hup⟩
  | child => exact ⟨hidle, hup⟩
  | die => exact ⟨hidle, hup⟩
  | adopt => exact ⟨hidle, hup⟩
  | upgradeFork => exact ⟨hidle, hup⟩
  | execve => exact ⟨hidle, hup⟩
  | childHandles => exact ⟨hidle, hup⟩
  | childDefault => exact ⟨hidle, hup⟩
  | upgrade => exact hquiet.elim
  | signal => exact hquiet.elim
  | handlerReap hk => rw [hidle] at hk; cases hk
  | handlerError hk => rw [hidle] at hk; cases hk
  | handlerTable hk => rw [hidle] at hk; cases hk
  | handlerFree hk => rw [hidle] at hk; cases hk
  | exit hk => rw [hidle] at hk; cases hk

theorem quiet_of_run (h : Run (step workers) Quiet init s) :
    s.handler = .idle ∧ s.master.upgraded = false := by
  induction h with
  | refl => exact ⟨rfl, rfl⟩
  | tail _ hquiet hs ih => exact quiet_of_steps hquiet (steps_of_step hs) ih

/-- The table holds `workers` distinct pids, and the slot `i` the pid of the only worker
that is not waited for and whose slot is `i`. -/
structure OneWorkerPerSlot (workers : ℕ) (s : Family) (pids : List ℕ) : Prop where
  table : s.master.workerPids = some pids
  length : pids.length = workers
  nodup : pids.Nodup
  held : ∀ i < workers, ∃ pid, pids[i]? = some pid ∧ ∀ pid', s.slotOf pid' = some i ↔ pid' = pid

theorem Inv.oneWorkerPerSlot (h : s.Inv workers) (hidle : s.handler = .idle)
    (hskip : s.skipped = false) (hpc : s.master.pc = .wait) :
    ∃ pids, s.OneWorkerPerSlot workers pids := by
  obtain ⟨pids, hpids, hlength, -⟩ := h.exists_table (by rw [hpc]; decide)
  have hslots := h.slots_of_idle hidle hpids hskip
  unfold Slots at hslots
  rw [hpc] at hslots
  refine ⟨pids, hpids, hlength, nodup_of_held fun j hj => hslots j (hlength ▸ hj), fun i hi => ?_⟩
  obtain ⟨pid, hget, hslot⟩ := hslots i hi
  refine ⟨pid, hget, fun pid' => ⟨fun hslot' => ?_, fun heq => heq ▸ hslot⟩⟩
  rcases (h.recorded hslot').2 with ⟨pids', hpids', hget'⟩ | ⟨hforked, -⟩
  · obtain rfl := Option.some.inj (hpids.symm.trans hpids')
    exact Option.some.inj (hget'.symm.trans hget)
  · rw [hpc] at hforked
    rcases hforked with hforked | hforked <;> cases hforked

/-- The call of a worker returns its slot. -/
theorem Inv.workerId_eq (h : s.Inv workers) {pid : ℕ} {c : Child} {p : Proc}
    (hc : s.children pid = some c) (hp : c.proc = some p) (hreturned : p.pc = .returned) :
    ∃ i < workers, p.workerId = i ∧ s.slotOf pid = some i ∧ Records s.master pid i := by
  have hslot : s.slotOf pid = some p.i := by
    unfold slotOf
    rw [hc]
    show c.proc.map Proc.i = some p.i
    rw [hp]
    rfl
  obtain ⟨hi, hrecorded⟩ := h.recorded hslot
  obtain ⟨-, ⟨-, (hpc | hpc) | ⟨-, hid⟩⟩, -⟩ := h.children hc hp
  · rw [hreturned] at hpc
    cases hpc
  · rw [hreturned] at hpc
    cases hpc
  · exact ⟨p.i, hi, hid, hslot, hrecorded⟩

/-- The loop that looks for a pid changes the table only where the pid is. -/
theorem Inv.table_eq (h : s.Inv workers) (hidle : s.handler = .idle) (hskip : s.skipped = false)
    (hpc : s.master.pc ∈ [.loop, .wait, .scan, .refork, .reforked])
    {pids : List ℕ} (hpids : s.master.workerPids = some pids)
    (hother : ∀ pid, s.master.pid = some pid → pid ∉ pids) {l : Label}
    (hs : s.Steps workers l t) : t.master.workerPids = some pids := by
  have hslots := h.slots_of_idle hidle hpids hskip
  unfold Slots at hslots
  cases hs with
  | @advance p _ hp =>
    unfold Proc.advance at hp
    simp only [List.mem_cons, List.not_mem_nil, or_false] at hpc
    rcases hpc with hpc | hpc | hpc | hpc | hpc <;> rw [hpc] at hp hslots
    · obtain rfl := Option.some.inj hp
      exact hpids
    · cases hp
    · obtain rfl := Option.some.inj hp
      show (ite _ _ _ : Proc).workerPids = some pids
      split_ifs <;> exact hpids
    · cases hp
    · -- the slot that is written to holds the pid
      obtain ⟨-, -, ⟨pid, hpid, hget, -⟩, -⟩ := hslots
      exact absurd (List.mem_of_getElem? hget) (hother pid hpid)
  | _ => exact hpids

/-- **One worker per listening socket.** In every run without upgrades and signals in which
the calls of the master succeed: at every `waitpid` the table holds `workers` distinct
children, each the only worker of its slot; the call of every worker returns its slot,
which the master has recorded or is about to, so that the worker serves the socket of the
slot; and a pid that is not in the table changes no slot. -/
theorem one_worker_per_slot {listenFds : List ℕ} (h : Run (step workers) Quiet init s) :
    (s.master.pc = .wait → ∃ pids, s.OneWorkerPerSlot workers pids) ∧
    (∀ {pid c p}, s.children pid = some c → c.proc = some p → p.pc = .returned →
      ∃ i < workers, p.workerId = i ∧ s.slotOf pid = some i ∧ Records s.master pid i ∧
        p.served listenFds = listenFds[i]?) ∧
    ∀ {pids l t}, s.master.pc ∈ [.loop, .wait, .scan, .refork, .reforked] →
      s.master.workerPids = some pids → (∀ pid, s.master.pid = some pid → pid ∉ pids) →
      step workers s l = some t → t.master.workerPids = some pids := by
  have hinv : s.Inv workers :=
    h.invariant inv_init fun _ _ _ hinv _ hs => hinv.of_steps (steps_of_step hs)
  obtain ⟨hidle, hup⟩ := quiet_of_run h
  have hskip : s.skipped = false := by
    by_contra hskip
    rw [(hinv.skipped (Bool.not_eq_false _ ▸ hskip)).1] at hup
    cases hup
  refine ⟨hinv.oneWorkerPerSlot hidle hskip, fun hc hp hreturned => ?_,
    fun hpc hpids hother hs => hinv.table_eq hidle hskip hpc hpids hother (steps_of_step hs)⟩
  obtain ⟨i, hi, hid, hslot, hrecorded⟩ := hinv.workerId_eq hc hp hreturned
  refine ⟨i, hi, hid, hslot, hrecorded, ?_⟩
  unfold Proc.served
  rw [if_pos hreturned, hid]
  rfl

/-- The master starts two workers; the first of them dies and is replaced. -/
def replacement : List Label :=
  [.advance, .advance, .advance, .advance, .advance, .fork 10, .advance, .advance, .fork 11,
    .advance, .advance, .advance, .child 10, .child 10, .die 10, .reap 10, .advance, .fork 12,
    .child 12, .child 12, .advance, .advance]

theorem one_worker_per_slot_replacement :
    ∃ s, Run (step 2) Quiet init s ∧ s.OneWorkerPerSlot 2 [12, 11] := by
  have hstate : (exec (fun s l => if Quiet s l then step 2 s l else none) init replacement).map
      (fun s => (s.master.pc, s.master.workerPids)) = some (.wait, some [12, 11]) := by
    decide
  obtain ⟨s, hexec, hstate⟩ := Option.map_eq_some_iff.mp hstate
  obtain ⟨hpc, hpids⟩ := Prod.mk.inj hstate
  have hrun : Run (step 2) Quiet init s := run_of_exec_ite hexec
  obtain ⟨pids, hslots⟩ := (@one_worker_per_slot 2 s [] hrun).1 hpc
  obtain rfl := Option.some.inj (hpids.symm.trans hslots.table)
  exact ⟨s, hrun, hslots⟩

end Yotta.Process.Family
