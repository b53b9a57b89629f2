import Yotta.Process.Fork
import Mathlib.Data.List.Nodup
import Mathlib.Order.Basic
import Mathlib.Data.Nat.Basic

/-!
# The slots of the workers

Parent and child go on after `fork` with the same variables, and the slot of a worker is
the `i` that both of them have. `slotOf` reads it from the child, and the invariant
relates it to the table of the master.

Results:
* `Proc.IsChild.advance`: a worker leaves both loops with its slot in `worker_id`.
* `Inv.of_steps`: every step keeps the invariant, upgrades and signals included.
-/

namespace Yotta.Process

open Family

/-! ## Children -/

/-- What holds of the variables of a worker. -/
def Proc.IsChild (p : Proc) : Prop :=
  p.workerPid = 0 ∧ ((p.pc = .spawned ∨ p.pc = .reforked) ∨
    (p.pc = .loop ∨ p.pc = .returned) ∧ p.workerId = p.i)

/-- A worker leaves both loops, with its slot in `worker_id`. -/
theorem Proc.IsChild.advance {workers : ℕ} {p p' : Proc} (h : p.IsChild)
    (hp : p.advance workers = some p') : p'.IsChild ∧ p'.i = p.i := by
  obtain ⟨hzero, (hpc | hpc) | ⟨hpc | hpc, hid⟩⟩ := h
  · unfold Proc.advance at hp
    rw [hpc] at hp
    dsimp only at hp
    rw [if_pos hzero] at hp
    obtain rfl := Option.some.inj hp
    exact ⟨⟨hzero, Or.inr ⟨Or.inl rfl, rfl⟩⟩, rfl⟩
  · unfold Proc.advance at hp
    rw [hpc] at hp
    dsimp only at hp
    rw [if_pos hzero] at hp
    obtain rfl := Option.some.inj hp
    exact ⟨⟨hzero, Or.inr ⟨Or.inl rfl, rfl⟩⟩, rfl⟩
  · unfold Proc.advance at hp
    rw [hpc] at hp
    dsimp only at hp
    rw [if_neg (not_not.mpr hzero)] at hp
    obtain rfl := Option.some.inj hp
    exact ⟨⟨hzero, Or.inr ⟨Or.inr rfl, hid⟩⟩, rfl⟩
  · unfold Proc.advance at hp
    rw [hpc] at hp
    cases hp

/-- In the copy of the table that a worker has, its own slot is blank, or holds the pid that the
master has waited for. -/
def Proc.Copied (p : Proc) (inherited : Option Targets) : Prop :=
  ∀ targets ∈ inherited, 0 ∈ targets.pids ∨ ∃ pid ∈ p.pid, pid ∈ targets.pids

namespace Family

/-- The slot of a worker that the master has forked and not waited for. -/
def slotOf (s : Family) (pid : ℕ) : Option ℕ := (s.children pid).bind fun c => c.proc.map Proc.i

theorem isWorker_eq (s : Family) (pid : ℕ) : s.isWorker pid = (s.slotOf pid).isSome := by
  unfold isWorker slotOf
  cases s.children pid with
  | none => rfl
  | some c => exact (Option.isSome_map ..).symm

theorem killTargets_eq {s : Family} {pids : List ℕ} (hpids : s.master.workerPids = some pids)
    (hlength : pids.length = s.master.workerCount) : s.killTargets = pids := by
  unfold killTargets
  rw [hpids, ← hlength]
  exact List.take_length

/-! ## Invariant -/

/-- The master has written `pid` to the slot `j`, or is about to. -/
def Records (p : Proc) (pid j : ℕ) : Prop :=
  (∃ pids, p.workerPids = some pids ∧ pids[j]? = some pid) ∨
    (p.pc = .spawned ∨ p.pc = .reforked) ∧ p.workerPid = pid ∧ p.i = j

/-- The slot `j` of the table holds its worker. -/
def Held (slot : ℕ → Option ℕ) (pids : List ℕ) (j : ℕ) : Prop :=
  ∃ pid, pids[j]? = some pid ∧ slot pid = some j

/-- The table, as far as the master has come. -/
def Slots (workers : ℕ) (slot : ℕ → Option ℕ) (p : Proc) (pids : List ℕ) : Prop :=
  match p.pc with
  | .spawn => p.i ≤ workers ∧ (∀ j < p.i, Held slot pids j) ∧
    ∀ j, p.i ≤ j → j < workers → pids[j]? = some 0
  | .spawnFork => p.i < workers ∧ (∀ j < p.i, Held slot pids j) ∧
    ∀ j, p.i ≤ j → j < workers → pids[j]? = some 0
  | .spawned => slot p.workerPid = some p.i ∧ p.i < workers ∧ (∀ j < p.i, Held slot pids j) ∧
    ∀ j, p.i ≤ j → j < workers → pids[j]? = some 0
  | .loop => ∀ j < workers, Held slot pids j
  | .wait => ∀ j < workers, Held slot pids j
  | .scan => pids.Nodup ∧ (∀ pid, p.pid = some pid → slot pid = none) ∧
    ∀ j < workers, Held slot pids j ∨ p.i ≤ j ∧ p.pid.isSome ∧ pids[j]? = p.pid
  | .refork => p.i < workers ∧
    (∃ pid, p.pid = some pid ∧ pids[p.i]? = some pid ∧ slot pid = none) ∧
    ∀ j < workers, j ≠ p.i → Held slot pids j
  | .reforked => slot p.workerPid = some p.i ∧ p.i < workers ∧
    (∃ pid, p.pid = some pid ∧ pids[p.i]? = some pid ∧ (slot pid = none ∨ pid = p.workerPid)) ∧
    ∀ j < workers, j ≠ p.i → Held slot pids j
  | _ => True

/-- The table is allocated once `worker_count` has been published. -/
def TableAllocated (workers : ℕ) (p : Proc) : Prop :=
  match p.pc with
  | .start => p.workerPids = none
  | .pidfile => p.workerPids = none
  | .publish => p.workerPids = none
  | .allocate => p.workerPids = none ∧ p.workerCount = workers
  | _ => ∃ pids, p.workerPids = some pids ∧ pids.length = workers ∧ p.workerCount = workers

/-- The master has a worker, so that it stays in the loop that waits. -/
def Forks (workers : ℕ) (p : Proc) : Prop :=
  match p.pc with
  | .start => True
  | .pidfile => True
  | .publish => True
  | .allocate => True
  | .spawn => p.i = 0 ∨ p.workerPid ≠ 0
  | .spawnFork => p.i = 0 ∨ p.workerPid ≠ 0
  | .returned => workers = 0
  | _ => workers = 0 ∨ p.workerPid ≠ 0

structure Inv (workers : ℕ) (s : Family) : Prop where
  children : ∀ {pid c p}, s.children pid = some c → c.proc = some p →
    pid ≠ 0 ∧ p.IsChild ∧ p.Copied c.inherited
  table : TableAllocated workers s.master
  forks : Forks workers s.master
  recorded : ∀ {pid j}, s.slotOf pid = some j → j < workers ∧ Records s.master pid j
  idle : s.handler = .idle → s.waited = false
  counted : ∀ {k}, s.handler = .waiting (k + 1) → s.waited = true
  slots : s.waited = false → s.skipped = false → ∀ {pids}, s.master.workerPids = some pids →
    Slots workers s.slotOf s.master pids
  /-- A slot that has been left is not filled again. -/
  skipped : s.skipped = true → s.master.upgraded = true ∧
    (s.master.pc = .scan ∨ s.master.pc = .loop ∨ s.master.pc = .wait) ∧
    ∃ (pids : List ℕ) (j pid : ℕ), s.master.workerPids = some pids ∧ pids[j]? = some pid ∧
      s.slotOf pid = none
  /-- The handler has waited for the first worker. -/
  waited : s.waited = true →
    ∃ (pids : List ℕ) (pid : ℕ), s.master.workerPids = some pids ∧ pids[0]? = some pid ∧
      s.slotOf pid = none

variable {workers : ℕ} {s t : Family}

theorem inv_init : Inv workers init where
  children := nofun
  table := rfl
  forks := trivial
  recorded := nofun
  idle _ := rfl
  counted := nofun
  slots _ _ := nofun
  skipped := nofun
  waited := nofun

/-! ## The children go on -/

theorem slotOf_update (s : Family) (pid : ℕ) (c : Option Child) (x : ℕ) :
    ({ s with children := Function.update s.children pid c } : Family).slotOf x =
      if x = pid then c.bind fun c => c.proc.map Proc.i else s.slotOf x := by
  unfold slotOf
  dsimp only
  split_ifs with hx
  · rw [hx, Function.update_self]
  · rw [Function.update_of_ne hx]

/-- A child of the same slot takes the place of a child. -/
theorem Inv.setChild (h : s.Inv workers) {pid : ℕ} {c : Child}
    (hslot : c.proc.map Proc.i = s.slotOf pid)
    (hchild : ∀ p, c.proc = some p → pid ≠ 0 ∧ p.IsChild ∧ p.Copied c.inherited) :
    (s.setChild pid c).Inv workers := by
  have hsame : (s.setChild pid c).slotOf = s.slotOf := by
    funext x
    unfold Family.setChild
    rw [slotOf_update]
    split_ifs with hx
    · rw [hx, ← hslot]
      rfl
    · rfl
  refine ⟨?_, h.table, h.forks, ?_, h.idle, h.counted, ?_, ?_, ?_⟩
  · intro x c' p hc' hp
    unfold Family.setChild at hc'
    dsimp only at hc'
    by_cases hx : x = pid
    · subst hx
      rw [Function.update_self] at hc'
      obtain rfl := Option.some.inj hc'
      exact hchild p hp
    · rw [Function.update_of_ne hx] at hc'
      exact h.children hc' hp
  all_goals rw [hsame]
  · exact h.recorded
  · exact h.slots
  · exact h.skipped
  · exact h.waited

/-- A slot is not filled by a child that leaves. -/
theorem slotOf_forget (s : Family) (pid x : ℕ) :
    (s.forget pid).slotOf x = if x = pid then none else s.slotOf x := by
  rw [forget, slotOf_update]
  rfl

theorem slotOf_of_forget {pid x j : ℕ} (hx : (s.forget pid).slotOf x = some j) :
    s.slotOf x = some j ∧ x ≠ pid := by
  rw [slotOf_forget] at hx
  split_ifs at hx with heq
  exact ⟨hx, heq⟩

theorem children_of_forget {pid x : ℕ} {c : Child} (hc : (s.forget pid).children x = some c) :
    s.children x = some c := by
  unfold forget at hc
  dsimp only at hc
  by_cases hx : x = pid
  · subst hx
    rw [Function.update_self] at hc
    cases hc
  · rwa [Function.update_of_ne hx] at hc

theorem slotOf_forget_eq_none {pid x : ℕ} (hx : s.slotOf x = none) :
    (s.forget pid).slotOf x = none := by
  rw [slotOf_forget]
  split_ifs
  · rfl
  · exact hx

theorem Inv.slotOf_zero (h : s.Inv workers) : s.slotOf 0 = none := by
  by_contra hne
  obtain ⟨j, hj⟩ := Option.ne_none_iff_exists'.mp hne
  unfold slotOf at hj
  obtain ⟨c, hc, hj⟩ := Option.bind_eq_some_iff.mp hj
  obtain ⟨p, hp, -⟩ := Option.map_eq_some_iff.mp hj
  exact (h.children hc hp).1 rfl

/-! ## The handler waits -/

/-- `waitpid` in `signal_handler` has returned: the first slot is given up. -/
theorem Inv.handled (h : s.Inv workers) {k : ℕ} (hk : s.handler = .waiting k)
    {slot : ℕ → Option ℕ} (hslot : t.slotOf = slot)
    (hsub : ∀ {x j}, slot x = some j → s.slotOf x = some j)
    (hchildren : ∀ {x c}, t.children x = some c → s.children x = some c)
    (hmaster : t.master = s.master) (hskipped : t.skipped = s.skipped)
    (hhandler : t.handler = .waiting (k + 1)) (hwaited : t.waited = true)
    (hfirst : ∃ pid, s.slotPid k = some pid ∧ slot pid = none) : t.Inv workers := by
  have hnone : ∀ {x}, s.slotOf x = none → slot x = none := by
    intro x hx
    by_contra hne
    obtain ⟨j, hj⟩ := Option.ne_none_iff_exists'.mp hne
    rw [hsub hj] at hx
    cases hx
  refine ⟨fun hc => h.children (hchildren hc), ?_, ?_, ?_, ?_, fun _ => hwaited, ?_, ?_, ?_⟩
  · rw [hmaster]
    exact h.table
  · rw [hmaster]
    exact h.forks
  · rw [hmaster, hslot]
    exact fun hx => h.recorded (hsub hx)
  · rw [hhandler]
    exact Handler.noConfusion
  · rw [hwaited]
    exact Bool.noConfusion
  · rw [hmaster, hskipped, hslot]
    intro hskip
    obtain ⟨hup, hpc, pids, j, pid, hpids, hj, hpid⟩ := h.skipped hskip
    exact ⟨hup, hpc, pids, j, pid, hpids, hj, hnone hpid⟩
  · rw [hmaster, hslot]
    intro _
    cases k with
    | zero =>
      obtain ⟨pid, hpid, hgone⟩ := hfirst
      obtain ⟨pids, hpids, hzero⟩ := Option.bind_eq_some_iff.mp hpid
      split_ifs at hzero
      exact ⟨pids, pid, hpids, hzero, hgone⟩
    | succ k =>
      obtain ⟨pids, pid, hpids, hzero, hpid⟩ := h.waited (h.counted hk)
      exact ⟨pids, pid, hpids, hzero, hnone hpid⟩

/-! ## The master goes on -/

theorem Records.of_pc {p p' : Proc} {pid j : ℕ} (h : Records p pid j)
    (hpc : p.pc ∉ [.spawned, .reforked]) (htable : p'.workerPids = p.workerPids) :
    Records p' pid j := by
  rcases h with h | ⟨hforked, -⟩
  · rw [← htable] at h
    exact Or.inl h
  · exact absurd (by simpa using hforked) hpc

/-- The table holds no pid twice if every slot is held. -/
theorem nodup_of_held {slot : ℕ → Option ℕ} {pids : List ℕ}
    (h : ∀ j < pids.length, Held slot pids j) : pids.Nodup := by
  apply List.nodup_iff_getElem?_ne_getElem?.mpr
  intro j k hjk hk heq
  obtain ⟨pid, hj, hslot⟩ := h j (Nat.lt_trans hjk hk)
  obtain ⟨pid', hk', hslot'⟩ := h k hk
  rw [hj, hk'] at heq
  obtain rfl := Option.some.inj heq
  rw [hslot] at hslot'
  exact Nat.ne_of_lt hjk (Option.some.inj hslot')

/-- `worker_pids[i] = worker_pid` fills the slot `i` and no other. -/
theorem held_set {slot : ℕ → Option ℕ} {pids : List ℕ} {i j pid : ℕ} (hi : i < pids.length)
    (hpid : slot pid = some i) (hj : j ≠ i → Held slot pids j) : Held slot (pids.set i pid) j := by
  by_cases hji : j = i
  · subst hji
    exact ⟨pid, List.getElem?_set_self hi, hpid⟩
  · obtain ⟨pid', hget, hslot⟩ := hj hji
    exact ⟨pid', by rw [List.getElem?_set_ne (Ne.symm hji)]; exact hget, hslot⟩

/-- What is left to be shown of a step of the master outside of the handlers. -/
theorem Inv.setMaster (h : s.Inv workers) (hidle : s.handler = .idle) {p : Proc} {skipped : Bool}
    (htable : TableAllocated workers p) (hforks : Forks workers p)
    (hrecorded : ∀ {pid j}, s.slotOf pid = some j → Records p pid j)
    (hslots : skipped = false → ∀ {pids}, p.workerPids = some pids →
      Slots workers s.slotOf p pids)
    (hskipped : skipped = true → p.upgraded = true ∧
      (p.pc = .scan ∨ p.pc = .loop ∨ p.pc = .wait) ∧
      ∃ (pids : List ℕ) (j pid : ℕ), p.workerPids = some pids ∧ pids[j]? = some pid ∧
        s.slotOf pid = none) :
    Inv workers { s with master := p, skipped } where
  children := h.children
  table := htable
  forks := hforks
  recorded hx := ⟨(h.recorded hx).1, hrecorded hx⟩
  idle := h.idle
  counted := h.counted
  slots _ := hslots
  skipped := hskipped
  waited hwaited := absurd (h.idle hidle) (by rw [show s.waited = true from hwaited]; exact nofun)

/-- The slots in a state without a handler. -/
theorem Inv.slots_of_idle (h : s.Inv workers) (hidle : s.handler = .idle) {pids : List ℕ}
    (hpids : s.master.workerPids = some pids) (hskipped : s.skipped = false) :
    Slots workers s.slotOf s.master pids := h.slots (h.idle hidle) hskipped hpids

/-- Only the loop that looks for a pid skips a slot, and the loop that waits goes on with
it. -/
theorem Inv.skipped_eq_false (h : s.Inv workers) (hpc : s.master.pc ∉ [.scan, .loop, .wait]) :
    s.skipped = false := by
  by_contra hskip
  obtain ⟨-, hskips, -⟩ := h.skipped (Bool.not_eq_false _ ▸ hskip)
  apply hpc
  simpa using hskips

section Advance

variable {pids : List ℕ}

/-- The table, once it is allocated. -/
theorem Inv.exists_table (h : s.Inv workers)
    (hpc : s.master.pc ∉ [.start, .pidfile, .publish, .allocate]) :
    ∃ pids, s.master.workerPids = some pids ∧ pids.length = workers ∧
      s.master.workerCount = workers := by
  have htable := h.table
  unfold TableAllocated at htable
  split at htable
  case h_5 => exact htable
  all_goals simp_all

/-- Between `fork` and the store of what it has returned nothing else is recorded. -/
theorem Inv.records_of_pc (h : s.Inv workers) (hpc : s.master.pc ∉ [.spawned, .reforked])
    {pc : Pc} {i pid j : ℕ} (hslot : s.slotOf pid = some j) :
    Records { s.master with pc, i } pid j :=
  (h.recorded hslot).2.of_pc hpc rfl

/-- Before the table is allocated there is no worker. -/
theorem Inv.slotOf_early (h : s.Inv workers) (hnone : s.master.workerPids = none)
    (hpc : s.master.pc ∉ [.spawned, .reforked]) (pid : ℕ) : s.slotOf pid = none := by
  by_contra hne
  obtain ⟨j, hj⟩ := Option.ne_none_iff_exists'.mp hne
  rcases (h.recorded hj).2 with ⟨pids, hpids, -⟩ | ⟨hforked, -⟩
  · rw [hnone] at hpids
    cases hpids
  · exact hpc (by simpa using hforked)

theorem Inv.advance_early (h : s.Inv workers) (hidle : s.handler = .idle)
    (hnone : s.master.workerPids = none)
    (hpc : s.master.pc ∉ [.spawned, .reforked, .scan, .loop, .wait]) {p : Proc}
    (hp : p.workerPids = none) (htable : TableAllocated workers p) (hforks : Forks workers p) :
    Inv workers { s with master := p } := by
  have hskip : s.skipped = false :=
    h.skipped_eq_false fun hmem => hpc (List.mem_cons_of_mem _ (List.mem_cons_of_mem _ hmem))
  apply h.setMaster hidle htable hforks
  · intro pid j hslot
    rw [h.slotOf_early hnone (fun hmem => hpc (List.mem_append_left _ hmem))] at hslot
    cases hslot
  · intro _ pids hpids
    rw [hp] at hpids
    cases hpids
  · rw [hskip]
    exact Bool.noConfusion

theorem Inv.advance_allocate (h : s.Inv workers) (hidle : s.handler = .idle)
    (hpc : s.master.pc = .allocate) :
    Inv workers { s with
      master := { s.master with
        workerPids := some (List.replicate workers 0)
        workerPid := 0
        workerId := -1
        i := 0
        pc := .spawn } } := by
  have htable := h.table
  unfold TableAllocated at htable
  rw [hpc] at htable
  obtain ⟨hnone, hcount⟩ := htable
  have hskip : s.skipped = false := h.skipped_eq_false (by rw [hpc]; decide)
  apply h.setMaster hidle
  · exact ⟨_, rfl, List.length_replicate, hcount⟩
  · exact Or.inl rfl
  · intro pid j hslot
    rw [h.slotOf_early hnone (by rw [hpc]; decide)] at hslot
    cases hslot
  · intro _ pids hpids
    obtain rfl := Option.some.inj hpids
    refine ⟨Nat.zero_le _, fun j hj => absurd hj (Nat.not_lt_zero j), fun j _ hj => ?_⟩
    rw [List.getElem?_replicate, if_pos hj]
  · rw [hskip]
    exact Bool.noConfusion

theorem Inv.advance_spawn (h : s.Inv workers) (hidle : s.handler = .idle)
    (hpc : s.master.pc = .spawn) :
    Inv workers { s with
      master := if s.master.i < workers then { s.master with pc := .spawnFork }
                else { s.master with pc := .loop } } := by
  obtain ⟨pids, hpids, hlength, hcount⟩ := h.exists_table (by rw [hpc]; decide)
  have hskip : s.skipped = false := h.skipped_eq_false (by rw [hpc]; decide)
  have hslots := h.slots_of_idle hidle hpids hskip
  unfold Slots at hslots
  rw [hpc] at hslots
  obtain ⟨hle, hheld, hzero⟩ := hslots
  have hforks := h.forks
  unfold Forks at hforks
  rw [hpc] at hforks
  split_ifs with hlt
  · apply h.setMaster hidle
    · exact ⟨pids, hpids, hlength, hcount⟩
    · exact hforks
    · exact h.records_of_pc (by rw [hpc]; decide)
    · intro _ pids' hpids'
      obtain rfl := Option.some.inj (hpids.symm.trans hpids')
      exact ⟨hlt, hheld, hzero⟩
    · rw [hskip]
      exact Bool.noConfusion
  · apply h.setMaster hidle
    · exact ⟨pids, hpids, hlength, hcount⟩
    · exact hforks.imp_left fun hzero => by omega
    · exact h.records_of_pc (by rw [hpc]; decide)
    · intro _ pids' hpids' j hj
      obtain rfl := Option.some.inj (hpids.symm.trans hpids')
      exact hheld j (by omega)
    · rw [hskip]
      exact Bool.noConfusion

theorem store_workerPids {p : Proc} (hpids : p.workerPids = some pids) :
    p.store.workerPids = some (pids.set p.i p.workerPid) := by
  unfold Proc.store
  rw [hpids]
  rfl

/-- The master has stored the pid of a new worker. -/
theorem Inv.records_store (h : s.Inv workers) (hpids : s.master.workerPids = some pids)
    (hlength : pids.length = workers) (hi : s.master.i < workers)
    (hold : ∀ pid, pids[s.master.i]? = some pid →
      s.slotOf pid = none ∨ pid = s.master.workerPid)
    {p : Proc} (hp : p.workerPids = some (pids.set s.master.i s.master.workerPid)) {pid j : ℕ}
    (hslot : s.slotOf pid = some j) : Records p pid j := by
  have hset : (pids.set s.master.i s.master.workerPid)[s.master.i]? = some s.master.workerPid :=
    List.getElem?_set_self (by omega)
  refine Or.inl ⟨_, hp, ?_⟩
  rcases (h.recorded hslot).2 with ⟨pids', hpids', hget⟩ | ⟨-, rfl, rfl⟩
  · obtain rfl := Option.some.inj (hpids.symm.trans hpids')
    by_cases hj : j = s.master.i
    · subst hj
      -- the slot holds nobody but the new worker
      rcases hold pid hget with hnone | rfl
      · rw [hnone] at hslot
        cases hslot
      · exact hset
    · rw [List.getElem?_set_ne (Ne.symm hj)]
      exact hget
  · exact hset

theorem Inv.advance_spawned (h : s.Inv workers) (hidle : s.handler = .idle)
    (hpc : s.master.pc = .spawned) :
    Inv workers { s with
      master := if s.master.workerPid = 0 then
                  { s.master with workerId := s.master.i, pc := .loop }
                else { s.master.store with i := s.master.i + 1, pc := .spawn } } := by
  obtain ⟨pids, hpids, hlength, hcount⟩ := h.exists_table (by rw [hpc]; decide)
  have hskip : s.skipped = false := h.skipped_eq_false (by rw [hpc]; decide)
  have hslots := h.slots_of_idle hidle hpids hskip
  unfold Slots at hslots
  rw [hpc] at hslots
  obtain ⟨hnew, hlt, hheld, hzero⟩ := hslots
  have hforks := h.forks
  unfold Forks at hforks
  rw [hpc] at hforks
  have hpid : s.master.workerPid ≠ 0 := hforks.resolve_left (by omega)
  have hstore := store_workerPids hpids
  rw [if_neg hpid]
  apply h.setMaster hidle
  · exact ⟨_, hstore, by rw [List.length_set, hlength], hcount⟩
  · exact Or.inr hpid
  · refine h.records_store hpids hlength hlt (fun pid hget => ?_) ?_
    · rw [hzero _ le_rfl hlt] at hget
      obtain rfl := Option.some.inj hget
      exact Or.inl h.slotOf_zero
    · exact hstore
  · intro _ pids' hpids'
    obtain rfl := Option.some.inj (hstore.symm.trans hpids')
    refine ⟨hlt, fun j hj => ?_, fun j hle hj => ?_⟩
    · have hj : j < s.master.i + 1 := hj
      exact held_set (by omega) hnew fun hne => hheld j (by omega)
    · have hle : s.master.i + 1 ≤ j := hle
      rw [List.getElem?_set_ne (by omega)]
      exact hzero j (by omega) hj
  · rw [hskip]
    exact Bool.noConfusion

theorem Inv.advance_loop (h : s.Inv workers) (hidle : s.handler = .idle)
    (hpc : s.master.pc = .loop) :
    Inv workers { s with
      master := { s.master with pc := if s.master.workerPid ≠ 0 then .wait else .returned } } := by
  obtain ⟨pids, hpids, hlength, hcount⟩ := h.exists_table (by rw [hpc]; decide)
  have hforks := h.forks
  unfold Forks at hforks
  rw [hpc] at hforks
  split_ifs with hpid
  · apply h.setMaster hidle
    · exact ⟨pids, hpids, hlength, hcount⟩
    · exact hforks
    · exact h.records_of_pc (by rw [hpc]; decide)
    · intro hskip pids' hpids'
      have hslots := h.slots_of_idle hidle hpids' hskip
      unfold Slots at hslots
      rw [hpc] at hslots
      exact hslots
    · intro hskip
      obtain ⟨hup, -, hleft⟩ := h.skipped hskip
      exact ⟨hup, Or.inr (Or.inr rfl), hleft⟩
  · -- no worker has been asked for
    have hzero : workers = 0 := hforks.resolve_right hpid
    apply h.setMaster hidle
    · exact ⟨pids, hpids, hlength, hcount⟩
    · exact hzero
    · exact h.records_of_pc (by rw [hpc]; decide)
    · exact fun _ _ _ => trivial
    · intro hskip
      obtain ⟨-, -, pids', j, pid, hpids', hget, -⟩ := h.skipped hskip
      obtain rfl := Option.some.inj (hpids.symm.trans hpids')
      obtain ⟨hlt, -⟩ := List.getElem?_eq_some_iff.mp hget
      omega

/-- The slot `i` holds the pid that `waitpid` has returned. -/
theorem hit_iff {p : Proc} (hpids : p.workerPids = some pids) :
    p.hit = true ↔ ∃ pid, p.pid = some pid ∧ pids[p.i]? = some pid := by
  unfold Proc.hit
  rw [hpids]
  cases p.pid with
  | none => simp
  | some pid => simp

/-- The slots while the loop looks for the pid. -/
theorem Inv.slots_scan (h : s.Inv workers) (hidle : s.handler = .idle)
    (hpc : s.master.pc = .scan) (hpids : s.master.workerPids = some pids)
    (hskip : s.skipped = false) :
    pids.Nodup ∧ (∀ pid, s.master.pid = some pid → s.slotOf pid = none) ∧
      ∀ j < workers, Held s.slotOf pids j ∨
        s.master.i ≤ j ∧ s.master.pid.isSome ∧ pids[j]? = s.master.pid := by
  have hslots := h.slots_of_idle hidle hpids hskip
  unfold Slots at hslots
  rw [hpc] at hslots
  exact hslots

theorem Inv.forks_scan (h : s.Inv workers) (hpc : s.master.pc = .scan) :
    workers = 0 ∨ s.master.workerPid ≠ 0 := by
  have hforks := h.forks
  unfold Forks at hforks
  rw [hpc] at hforks
  exact hforks

/-- The pid is that of the slot `i`. -/
theorem Inv.scan_found (h : s.Inv workers) (hidle : s.handler = .idle)
    (hpc : s.master.pc = .scan) (hlt : s.master.i < workers) (hfound : s.master.hit = true)
    (hup : s.master.upgraded = false) :
    Inv workers { s with master := { s.master with pc := .refork } } := by
  obtain ⟨pids, hpids, hlength, hcount⟩ := h.exists_table (by rw [hpc]; decide)
  have hskip : s.skipped = false := by
    by_contra hskip
    rw [(h.skipped (Bool.not_eq_false _ ▸ hskip)).1] at hup
    cases hup
  obtain ⟨hnodup, hdead, hheld⟩ := h.slots_scan hidle hpc hpids hskip
  obtain ⟨pid, hpid, hget⟩ := (hit_iff hpids).mp hfound
  apply h.setMaster hidle
  · exact ⟨pids, hpids, hlength, hcount⟩
  · exact h.forks_scan hpc
  · exact h.records_of_pc (by rw [hpc]; decide)
  · intro _ pids' hpids'
    obtain rfl := Option.some.inj (hpids.symm.trans hpids')
    refine ⟨hlt, ⟨pid, hpid, hget, hdead pid hpid⟩, fun j hj hne => ?_⟩
    rcases hheld j hj with hj' | ⟨-, -, hsame⟩
    · exact hj'
    · -- the pid is in the table once
      have hne : j ≠ s.master.i := hne
      rw [hpid, ← hget] at hsame
      exact absurd ((List.getElem?_inj (by omega) hnodup).mp hsame) hne
  · rw [hskip]
    exact Bool.noConfusion

/-- It is not, or `upgraded` is set and the slot is left as it is. -/
theorem Inv.scan_passed (h : s.Inv workers) (hidle : s.handler = .idle)
    (hpc : s.master.pc = .scan)
    (hpass : (s.master.hit && !s.master.upgraded) = false) :
    Inv workers { s with
      master := { s.master with i := s.master.i + 1, pc := .scan }
      skipped := s.skipped || (s.master.hit && s.master.upgraded) } := by
  obtain ⟨pids, hpids, hlength, hcount⟩ := h.exists_table (by rw [hpc]; decide)
  apply h.setMaster hidle
  · exact ⟨pids, hpids, hlength, hcount⟩
  · exact h.forks_scan hpc
  · exact h.records_of_pc (by rw [hpc]; decide)
  · intro hskip pids' hpids'
    obtain rfl := Option.some.inj (hpids.symm.trans hpids')
    obtain ⟨hskip, hleft⟩ := Bool.or_eq_false_iff.mp hskip
    obtain ⟨hnodup, hdead, hheld⟩ := h.slots_scan hidle hpc hpids hskip
    have hmiss : s.master.hit = false := by
      cases hcase : s.master.hit with
      | false => rfl
      | true =>
        rw [hcase] at hpass hleft
        cases hup : s.master.upgraded <;> simp [hup] at hpass hleft
    refine ⟨hnodup, hdead, fun j hj => (hheld j hj).imp_right fun hleft => ?_⟩
    obtain ⟨hle, hsome, hsame⟩ := hleft
    refine ⟨?_, hsome, hsame⟩
    have hne : j ≠ s.master.i := by
      rintro rfl
      obtain ⟨pid, hpid⟩ := Option.isSome_iff_exists.mp hsome
      rw [(hit_iff hpids).mpr ⟨pid, hpid, hsame.trans hpid⟩] at hmiss
      cases hmiss
    show s.master.i + 1 ≤ j
    omega
  · intro hskip
    by_cases hbefore : s.skipped = true
    · obtain ⟨hup, -, hleft⟩ := h.skipped hbefore
      exact ⟨hup, Or.inl rfl, hleft⟩
    · have hbefore : s.skipped = false := Bool.not_eq_true _ ▸ hbefore
      rw [hbefore, Bool.false_or] at hskip
      obtain ⟨hfound, hup⟩ := Bool.and_eq_true_iff.mp hskip
      obtain ⟨pid, hpid, hget⟩ := (hit_iff hpids).mp hfound
      obtain ⟨-, hdead, -⟩ := h.slots_scan hidle hpc hpids hbefore
      exact ⟨hup, Or.inl rfl, pids, _, pid, hpids, hget, hdead pid hpid⟩

/-- All slots have been looked at. -/
theorem Inv.scan_end (h : s.Inv workers) (hidle : s.handler = .idle)
    (hpc : s.master.pc = .scan) (hge : ¬ s.master.i < workers) :
    Inv workers { s with
      master := { s.master with pc := .loop }
      skipped := s.skipped || (s.master.hit && s.master.upgraded) } := by
  obtain ⟨pids, hpids, hlength, hcount⟩ := h.exists_table (by rw [hpc]; decide)
  have hmiss : s.master.hit = false := by
    by_contra hcase
    obtain ⟨pid, -, hget⟩ := (hit_iff hpids).mp (Bool.not_eq_false _ ▸ hcase)
    obtain ⟨hlt, -⟩ := List.getElem?_eq_some_iff.mp hget
    omega
  rw [hmiss, Bool.false_and, Bool.or_false]
  apply h.setMaster hidle
  · exact ⟨pids, hpids, hlength, hcount⟩
  · exact h.forks_scan hpc
  · exact h.records_of_pc (by rw [hpc]; decide)
  · intro hskip pids' hpids' j hj
    obtain rfl := Option.some.inj (hpids.symm.trans hpids')
    rcases (h.slots_scan hidle hpc hpids hskip).2.2 j hj with hj' | ⟨hle, -⟩
    · exact hj'
    · omega
  · intro hskip
    obtain ⟨hup, -, hleft⟩ := h.skipped hskip
    exact ⟨hup, Or.inr (Or.inl rfl), hleft⟩

/-- The loop that looks for the pid: it is found in the slot `i`, or the rest of the table
is looked at. A worker that has died is passed where `upgraded` is set. -/
theorem Inv.advance_scan (h : s.Inv workers) (hidle : s.handler = .idle)
    (hpc : s.master.pc = .scan) :
    Inv workers { s with
      master := if s.master.i < workers then
                  if s.master.hit && !s.master.upgraded then { s.master with pc := .refork }
                  else { s.master with i := s.master.i + 1, pc := .scan }
                else { s.master with pc := .loop }
      skipped := s.skipped || (s.master.hit && s.master.upgraded) } := by
  split_ifs with hlt hfound
  · obtain ⟨hhit, hup⟩ := Bool.and_eq_true_iff.mp hfound
    have hup : s.master.upgraded = false := by simpa using hup
    rw [hup, Bool.and_false, Bool.or_false]
    exact h.scan_found hidle hpc hlt hhit hup
  · exact h.scan_passed hidle hpc (Bool.not_eq_true _ ▸ hfound)
  · exact h.scan_end hidle hpc hlt

theorem Inv.advance_reforked (h : s.Inv workers) (hidle : s.handler = .idle)
    (hpc : s.master.pc = .reforked) :
    Inv workers { s with
      master := if s.master.workerPid = 0 then
                  { s.master with workerId := s.master.i, pc := .loop }
                else { s.master.store with pc := .loop } } := by
  obtain ⟨pids, hpids, hlength, hcount⟩ := h.exists_table (by rw [hpc]; decide)
  have hskip : s.skipped = false := h.skipped_eq_false (by rw [hpc]; decide)
  have hslots := h.slots_of_idle hidle hpids hskip
  unfold Slots at hslots
  rw [hpc] at hslots
  obtain ⟨hnew, hlt, ⟨old, -, hold, hdead⟩, hheld⟩ := hslots
  have hforks := h.forks
  unfold Forks at hforks
  rw [hpc] at hforks
  have hpid : s.master.workerPid ≠ 0 := hforks.resolve_left (by omega)
  have hstore := store_workerPids hpids
  rw [if_neg hpid]
  apply h.setMaster hidle
  · exact ⟨_, hstore, by rw [List.length_set, hlength], hcount⟩
  · exact Or.inr hpid
  · refine h.records_store hpids hlength hlt (fun pid hget => ?_) ?_
    · obtain rfl := Option.some.inj (hold.symm.trans hget)
      exact hdead
    · exact hstore
  · intro _ pids' hpids' j hj
    obtain rfl := Option.some.inj (hstore.symm.trans hpids')
    exact held_set (by omega) hnew (hheld j hj)
  · rw [hskip]
    exact Bool.noConfusion

/-- **The master goes on.** -/
theorem Inv.advance (h : s.Inv workers) (hidle : s.handler = .idle) {p : Proc}
    (hp : s.master.advance workers = some p) :
    Inv workers { s with
      master := p
      skipped := s.skipped || (s.master.pc == .scan && s.master.hit && s.master.upgraded) } := by
  have hother : s.master.pc ≠ .scan →
      (s.skipped || (s.master.pc == .scan && s.master.hit && s.master.upgraded)) = s.skipped := by
    intro hne
    rw [beq_false_of_ne hne, Bool.false_and, Bool.false_and, Bool.or_false]
  unfold Proc.advance at hp
  split at hp
  case h_1 hpc =>
    obtain rfl := Option.some.inj hp
    rw [hother (by rw [hpc]; decide)]
    have hnone : s.master.workerPids = none := by simpa [TableAllocated, hpc] using h.table
    exact h.advance_early hidle hnone (by rw [hpc]; decide) hnone hnone trivial
  case h_2 hpc =>
    obtain rfl := Option.some.inj hp
    rw [hother (by rw [hpc]; decide)]
    have hnone : s.master.workerPids = none := by simpa [TableAllocated, hpc] using h.table
    exact h.advance_early hidle hnone (by rw [hpc]; decide) hnone hnone trivial
  case h_3 hpc =>
    obtain rfl := Option.some.inj hp
    rw [hother (by rw [hpc]; decide)]
    have hnone : s.master.workerPids = none := by simpa [TableAllocated, hpc] using h.table
    exact h.advance_early hidle hnone (by rw [hpc]; decide) hnone ⟨hnone, rfl⟩ trivial
  case h_4 hpc =>
    obtain rfl := Option.some.inj hp
    rw [hother (by rw [hpc]; decide)]
    exact h.advance_allocate hidle hpc
  case h_5 hpc =>
    obtain rfl := Option.some.inj hp
    rw [hother (by rw [hpc]; decide)]
    exact h.advance_spawn hidle hpc
  case h_6 hpc =>
    obtain rfl := Option.some.inj hp
    rw [hother (by rw [hpc]; decide)]
    exact h.advance_spawned hidle hpc
  case h_7 hpc =>
    obtain rfl := Option.some.inj hp
    rw [hother (by rw [hpc]; decide)]
    exact h.advance_loop hidle hpc
  case h_8 hpc =>
    obtain rfl := Option.some.inj hp
    rw [hpc, beq_self_eq_true, Bool.true_and]
    exact h.advance_scan hidle hpc
  case h_9 hpc =>
    obtain rfl := Option.some.inj hp
    rw [hother (by rw [hpc]; decide)]
    exact h.advance_reforked hidle hpc
  all_goals cases hp

end Advance

/-! ## System calls of the master -/

theorem slotOf_fork (s : Family) (pid : ℕ) (pc : Pc) (x : ℕ) :
    (s.fork pid pc).slotOf x = if x = pid then some s.master.i else s.slotOf x := by
  unfold Family.fork slotOf
  dsimp only
  split_ifs with hx
  · rw [hx, Function.update_self]
    rfl
  · rw [Function.update_of_ne hx]

theorem slotOf_fork_self {pid : ℕ} {pc : Pc} : (s.fork pid pc).slotOf pid = some s.master.i := by
  rw [slotOf_fork, if_pos rfl]

theorem slotOf_fork_of_ne {pid x : ℕ} {pc : Pc} (hx : x ≠ pid) :
    (s.fork pid pc).slotOf x = s.slotOf x := by
  rw [slotOf_fork, if_neg hx]

/-- The other slots are held by who held them. -/
theorem Held.fork {pids : List ℕ} {pid j : ℕ} {pc : Pc} (hgone : s.slotOf pid = none)
    (h : Held s.slotOf pids j) : Held (s.fork pid pc).slotOf pids j := by
  obtain ⟨x, hget, hslot⟩ := h
  have hx : x ≠ pid := by
    rintro rfl
    rw [hgone] at hslot
    cases hslot
  exact ⟨x, hget, (slotOf_fork_of_ne hx).trans hslot⟩

/-- Where `fork` is called and where it returns. -/
theorem afterFork_eq_some {p : Proc} {pc : Pc} (h : p.afterFork = some pc) :
    p.pc = .spawnFork ∧ pc = .spawned ∨ p.pc = .refork ∧ pc = .reforked := by
  unfold Proc.afterFork at h
  split at h
  · exact Or.inl ⟨‹_›, (Option.some.inj h).symm⟩
  · exact Or.inr ⟨‹_›, (Option.some.inj h).symm⟩
  · cases h

/-- The slot `i` has not been filled when the table is copied. -/
theorem Inv.copied_fork (h : s.Inv workers) (hidle : s.handler = .idle) {pc : Pc}
    (hpc : s.master.afterFork = some pc) :
    { s.master with workerPid := 0, pc : Proc }.Copied (some s.targets) := by
  rintro _ ⟨⟩
  have hbefore : s.master.pc = .spawnFork ∨ s.master.pc = .refork :=
    (afterFork_eq_some hpc).imp And.left And.left
  obtain ⟨pids, hpids, hlength, hcount⟩ :=
    h.exists_table (by rcases hbefore with h | h <;> rw [h] <;> decide)
  have hskip : s.skipped = false :=
    h.skipped_eq_false (by rcases hbefore with h | h <;> rw [h] <;> decide)
  have hslots := h.slots_of_idle hidle hpids hskip
  rw [show s.targets.pids = pids from killTargets_eq hpids (hlength.trans hcount.symm)]
  unfold Slots at hslots
  rcases hbefore with hat | hat
  · rw [hat] at hslots
    obtain ⟨hlt, -, hzero⟩ := hslots
    exact Or.inl (List.mem_of_getElem? (hzero s.master.i le_rfl hlt))
  · rw [hat] at hslots
    obtain ⟨-, ⟨pid, hpid, hget, -⟩, -⟩ := hslots
    exact Or.inr ⟨pid, hpid, List.mem_of_getElem? hget⟩

/-- **A worker is forked** in the slot `i`. -/
theorem Inv.fork (h : s.Inv workers) (hidle : s.handler = .idle) {pc : Pc}
    (hpc : s.master.afterFork = some pc) {pid : ℕ} (hpid : pid ≠ 0)
    (hnew : s.children pid = none) : (s.fork pid pc).Inv workers := by
  have hcases := afterFork_eq_some hpc
  have hbefore : s.master.pc = .spawnFork ∨ s.master.pc = .refork := hcases.imp And.left And.left
  have hafter : pc = .spawned ∨ pc = .reforked := hcases.imp And.right And.right
  have hskip : s.skipped = false :=
    h.skipped_eq_false (by rcases hbefore with h | h <;> rw [h] <;> decide)
  obtain ⟨pids, hpids, hlength, hcount⟩ :=
    h.exists_table (by rcases hbefore with h | h <;> rw [h] <;> decide)
  have hslots := h.slots_of_idle hidle hpids hskip
  have hgone : s.slotOf pid = none := by
    unfold slotOf
    rw [hnew]
    rfl
  have hlt : s.master.i < workers := by
    unfold Slots at hslots
    rcases hbefore with h | h <;> rw [h] at hslots <;> exact hslots.1
  have hcopied := h.copied_fork hidle hpc
  refine ⟨?_, ?_, ?_, ?_, h.idle, h.counted, ?_, ?_, ?_⟩
  · intro x c p hc hp
    unfold Family.fork at hc
    dsimp only at hc
    by_cases hx : x = pid
    · subst hx
      rw [Function.update_self] at hc
      obtain rfl := Option.some.inj hc
      obtain rfl := Option.some.inj hp
      exact ⟨hpid, ⟨rfl, Or.inl hafter⟩, hcopied⟩
    · rw [Function.update_of_ne hx] at hc
      exact h.children hc hp
  · rcases hafter with rfl | rfl <;> exact ⟨pids, hpids, hlength, hcount⟩
  · rcases hafter with rfl | rfl <;> exact Or.inr hpid
  · intro x j hslot
    by_cases hx : x = pid
    · subst hx
      rw [slotOf_fork_self] at hslot
      obtain rfl := Option.some.inj hslot
      exact ⟨hlt, Or.inr ⟨hafter, rfl, rfl⟩⟩
    · rw [slotOf_fork_of_ne hx] at hslot
      obtain ⟨hj, hrecorded⟩ := h.recorded hslot
      exact ⟨hj, hrecorded.of_pc (by rcases hbefore with h | h <;> rw [h] <;> decide) rfl⟩
  · intro _ _ pids' hpids'
    obtain rfl := Option.some.inj (hpids.symm.trans hpids')
    unfold Slots at hslots
    rcases hcases with ⟨hat, rfl⟩ | ⟨hat, rfl⟩
    · rw [hat] at hslots
      obtain ⟨-, hfilled, hzero⟩ := hslots
      exact ⟨slotOf_fork_self, hlt, fun j hj => (hfilled j hj).fork hgone, hzero⟩
    · rw [hat] at hslots
      obtain ⟨-, ⟨old, hold, hget, hdead⟩, hfilled⟩ := hslots
      refine ⟨slotOf_fork_self, hlt, ⟨old, hold, hget, ?_⟩,
        fun j hj hne => (hfilled j hj hne).fork hgone⟩
      by_cases hsame : old = pid
      · exact Or.inr hsame
      · rw [slotOf_fork_of_ne hsame]
        exact Or.inl hdead
  · intro hskip'
    rw [show s.skipped = true from hskip'] at hskip
    cases hskip
  · intro hwaited
    have hidle := h.idle hidle
    rw [show s.waited = true from hwaited] at hidle
    cases hidle

/-- **A child has been waited for**, or `waitpid` has failed; the loop that looks for the
pid begins. -/
theorem Inv.waited_scan (h : s.Inv workers) (hidle : s.handler = .idle)
    (hpc : s.master.pc = .wait) {slot : ℕ → Option ℕ} (hslot : t.slotOf = slot)
    {pid : Option ℕ} (hsub : ∀ {x j}, slot x = some j → s.slotOf x = some j)
    (hleft : ∀ {x j}, s.slotOf x = some j → slot x = some j ∨ pid = some x)
    (hdead : ∀ {x}, pid = some x → slot x = none)
    (hchildren : ∀ {x c}, t.children x = some c → s.children x = some c)
    (hmaster : t.master = s.master.waited pid) (hhandler : t.handler = s.handler)
    (hskipped : t.skipped = s.skipped) (hwaited : t.waited = s.waited) : t.Inv workers := by
  obtain ⟨pids, hpids, hlength, hcount⟩ := h.exists_table (by rw [hpc]; decide)
  have hnotwaited := h.idle hidle
  have hforks := h.forks
  unfold Forks at hforks
  rw [hpc] at hforks
  refine ⟨fun hc => h.children (hchildren hc), ?_, ?_, ?_, ?_, ?_, ?_, ?_, ?_⟩
  · rw [hmaster]
    exact ⟨pids, hpids, hlength, hcount⟩
  · rw [hmaster]
    exact hforks
  · rw [hslot, hmaster]
    intro x j hx
    obtain ⟨hj, hrecorded⟩ := h.recorded (hsub hx)
    exact ⟨hj, hrecorded.of_pc (by rw [hpc]; decide) rfl⟩
  · rw [hwaited]
    exact fun _ => hnotwaited
  · rw [hhandler, hidle]
    exact fun hcount => Handler.noConfusion hcount
  · rw [hslot, hmaster, hskipped]
    intro _ hskip pids' hpids'
    obtain rfl := Option.some.inj (hpids.symm.trans hpids')
    have hslots := h.slots_of_idle hidle hpids hskip
    unfold Slots at hslots
    rw [hpc] at hslots
    refine ⟨nodup_of_held fun j hj => hslots j (hlength ▸ hj), fun x hx => hdead hx,
      fun j hj => ?_⟩
    obtain ⟨x, hget, hx⟩ := hslots j hj
    rcases hleft hx with hx | rfl
    · exact Or.inl ⟨x, hget, hx⟩
    · exact Or.inr ⟨Nat.zero_le _, rfl, hget⟩
  · rw [hslot, hmaster, hskipped]
    intro hskip
    obtain ⟨hup, -, pids', j, x, hpids', hget, hx⟩ := h.skipped hskip
    refine ⟨hup, Or.inl rfl, pids', j, x, hpids', hget, ?_⟩
    by_contra hne
    obtain ⟨k, hk⟩ := Option.ne_none_iff_exists'.mp hne
    rw [hsub hk] at hx
    cases hx
  · rw [hwaited, hnotwaited]
    exact Bool.noConfusion

/-- A child dies. -/
theorem Inv.die (h : s.Inv workers) {pid : ℕ} {c : Child} (hc : s.children pid = some c) :
    (s.setChild pid { c with running := false }).Inv workers := by
  apply h.setChild
  · unfold slotOf
    rw [hc]
    rfl
  · intro p hp
    have hproc : c.proc = some p := hp
    have hchild := h.children hc hproc
    exact hchild

/-- A child that is not a worker comes. -/
theorem Inv.setNew (h : s.Inv workers) {pid : ℕ} (hnew : s.children pid = none) (c : Child)
    (hc : c.proc = none) : (s.setChild pid c).Inv workers := by
  apply h.setChild
  · unfold slotOf
    rw [hc, hnew]
    rfl
  · intro p hp
    rw [hc] at hp
    cases hp

/-- **Every step** keeps the invariant. -/
theorem Inv.of_steps (h : s.Inv workers) {l : Label} (hs : s.Steps workers l t) :
    t.Inv workers := by
  cases hs with
  | advance hidle hp => exact h.advance hidle hp
  | fork hidle hpc hpid hnew => exact h.fork hidle hpc hpid hnew
  | fail => exact { h with }
  | @reap pid hidle hpc =>
    have hslot : ({ s.forget pid with master := s.master.waited (some pid) } : Family).slotOf =
        (s.forget pid).slotOf := rfl
    refine h.waited_scan hidle hpc hslot (fun hx => (slotOf_of_forget hx).1) (fun {x j} hx => ?_)
      (fun {x} hx => ?_) children_of_forget rfl rfl rfl rfl
    · by_cases hxp : x = pid
      · exact Or.inr (by rw [hxp])
      · rw [slotOf_forget, if_neg hxp]
        exact Or.inl hx
    · obtain rfl := Option.some.inj hx
      rw [slotOf_forget, if_pos rfl]
  | waitError hidle hpc =>
    exact h.waited_scan hidle hpc rfl id Or.inl (by intro x hx; cases hx) id rfl rfl rfl rfl
  | @child pid p p' inherited hc hp =>
    have hslot : s.slotOf pid = some p.i := by
      unfold slotOf
      rw [hc]
      rfl
    obtain ⟨hpid, hchild, -⟩ := h.children hc rfl
    obtain ⟨hchild', hi⟩ := hchild.advance hp
    apply h.setChild
    · rw [hslot, ← hi]
      rfl
    · intro q hq
      obtain rfl := Option.some.inj hq
      exact ⟨hpid, hchild', nofun⟩
  | die hc => exact h.die hc
  | adopt _ hnew => exact h.setNew hnew _ rfl
  | upgradeFork _ _ hnew => exact h.setNew hnew _ rfl
  | @execve pid targets hc =>
    apply h.setChild
    · unfold slotOf
      rw [hc]
      rfl
    · exact nofun
  | childHandles hc _ => exact { h.die hc with }
  | childDefault hc => exact h.die hc
  | upgrade =>
    refine ⟨h.children, h.table, h.forks, h.recorded, h.idle, h.counted, h.slots, fun hskip => ?_,
      h.waited⟩
    exact ⟨rfl, (h.skipped hskip).2⟩
  | signal =>
    refine ⟨h.children, h.table, h.forks, h.recorded, ?_, ?_, h.slots, h.skipped, h.waited⟩
    · show s.handler.interrupt = .idle → _
      cases s.handler <;> exact nofun
    · intro k
      show s.handler.interrupt = .waiting (k + 1) → _
      cases s.handler <;> exact nofun
  | @handlerReap k pid hk hpid =>
    have hslot : ({ s.forget pid with handler := .waiting (k + 1), waited := true } :
        Family).slotOf = (s.forget pid).slotOf := rfl
    refine h.handled hk hslot (fun hx => (slotOf_of_forget hx).1) children_of_forget rfl rfl rfl
      rfl ?_
    rcases hpid with hpid | hzero
    · exact ⟨pid, hpid, by rw [slotOf_forget, if_pos rfl]⟩
    · exact ⟨0, hzero, slotOf_forget_eq_none h.slotOf_zero⟩
  | @handlerError k pid hk hpid hnone =>
    refine h.handled hk rfl id id rfl rfl rfl rfl ⟨pid, hpid, ?_⟩
    show s.slotOf pid = none
    unfold slotOf
    rw [hnone]
    rfl
  | handlerTable => exact { h with }
  | handlerFree hk => exact { h with idle := nofun, counted := nofun }
  | exit => exact { h with }

end Family

end Yotta.Process
