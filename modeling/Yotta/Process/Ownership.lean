import Yotta.Process.PidFile

/-!
# Who owns a pid file

Masters that share a directory may take the pid files of each other: by `fopen` when they
start, by `rename` when they are upgraded, and by `remove` when they end, where
`pidfile_to_delete` is behind: an upgrade is between `rename` and the assignment, or the file
has been removed, and the name with it perhaps freed.

Results:
* `Inv.of_steps`: as long as no `fopen` or `rename` takes the name of another master's file, and
  no `remove` comes where `pidfile_to_delete` is behind, each master keeps its own.
* `pidfile_ownership`: then each has its pid in it, and no termination removes that of
  another.
-/

namespace Yotta.Process

open Yotta.Bytes Yotta.Numeral

namespace Host

/-! ## Exclusive names -/

/-- The file of another master does not have the name. -/
def Free (s : Host) (pid : ℕ) (n : Name) : Prop :=
  ∀ q ∈ s.pids, q ≠ pid → ∀ m ∈ s.masters q, m.file ≠ some n

/-- There is no file with the pid, left by a master that had it before. -/
def Unused (s : Host) (pid : ℕ) : Prop := ∀ n ∈ s.dir.names, s.dir.file n ≠ some (decimal pid)

/-- No `fopen` or `rename` takes the name of another master's file, and a termination comes to
`remove` outside of an upgrade between `rename` and the assignment, and a second time only
where there is no file. -/
def Exclusive (path : Name) (s : Host) : Label → Prop
  | .start pid => s.Unused pid
  | .call _ (.fork child) => s.Unused child
  | .call pid .open => s.Free pid path
  | .call pid .rename =>
    ∀ m ∈ s.masters pid, ∀ n ∈ m.pidfile, s.Free pid n ∧ s.Free pid m.newName
  | .call pid .remove =>
    ∀ m ∈ s.masters pid, ∀ n ∈ m.pidfile,
      m.stage ≠ .renamed ∧ (m.ending = .waiting ∨ s.dir.inode n = none)
  | _ => True

instance (s : Host) (pid : ℕ) (n : Name) : Decidable (s.Free pid n) :=
  inferInstanceAs (Decidable (∀ q ∈ s.pids, q ≠ pid → ∀ m ∈ s.masters q, m.file ≠ some n))

instance (s : Host) (pid : ℕ) : Decidable (s.Unused pid) :=
  inferInstanceAs (Decidable (∀ n ∈ s.dir.names, s.dir.file n ≠ some (decimal pid)))

instance (path : Name) (s : Host) : (l : Label) → Decidable (s.Exclusive path l)
  | .start pid => inferInstanceAs (Decidable (s.Unused pid))
  | .call _ (.fork child) => inferInstanceAs (Decidable (s.Unused child))
  | .call pid .open => inferInstanceAs (Decidable (s.Free pid path))
  | .call pid .rename =>
    inferInstanceAs (Decidable (∀ m ∈ s.masters pid, ∀ n ∈ m.pidfile,
      s.Free pid n ∧ s.Free pid m.newName))
  | .call pid .remove =>
    inferInstanceAs (Decidable (∀ m ∈ s.masters pid, ∀ n ∈ m.pidfile,
      m.stage ≠ .renamed ∧ (m.ending = .waiting ∨ s.dir.inode n = none)))
  | .call _ .write => inferInstanceAs (Decidable True)
  | .call _ .name => inferInstanceAs (Decidable True)
  | .call _ .close => inferInstanceAs (Decidable True)
  | .call _ .abort => inferInstanceAs (Decidable True)
  | .call _ .terminate => inferInstanceAs (Decidable True)
  | .call _ .free => inferInstanceAs (Decidable True)
  | .call _ (.overwrite _) => inferInstanceAs (Decidable True)
  | .call _ .exit => inferInstanceAs (Decidable True)
  | .call _ .upgrade => inferInstanceAs (Decidable True)
  | .call _ .assign => inferInstanceAs (Decidable True)
  | .call _ .mark => inferInstanceAs (Decidable True)

/-! ## Invariant -/

end Host

/-- Where `pidfile_to_delete` and the file are at a stage. -/
def Master.Place (path : Name) (m : Master) : Stage → Prop
  | .starting => m.file = none ∧ m.stream = none ∧ m.pidfile = none
  | .opened => m.file = some path ∧ m.pidfile = none
  | .written => m.file = some path ∧ m.pidfile = none
  | .renamed => m.pidfile.isSome ∧ (m.file = some m.newName ∨ m.file = none)
  | _ => ∃ n, m.pidfile = some n ∧ (m.file = some n ∨ m.file = none)

/-- `pidfile_to_delete` names the file of the master, but for the time before it is set, and
the one between `rename` and the assignment. -/
structure Master.Named (path : Name) (m : Master) : Prop where
  place : m.Place path m.stage
  /-- Only `remove` takes the file away. -/
  kept : m.file = none → m.stage = .starting ∨ m.ending = .removed
  removed : m.ending = .removed → m.pidfile.isSome → m.file = none
  upgraded : m.upgraded → m.pidfile.isSome
  freed : m.freed → m.ending = .removed ∧ m.pidfile.isSome

section

variable {path : Name} {m : Master}

theorem Master.Named.place_at (h : m.Named path) {stage : Stage} (hstage : m.stage = stage) :
    m.Place path stage := hstage ▸ h.place

/-- It has a file, unless it has removed it. -/
theorem Master.Named.removed_of_none (h : m.Named path) (hstage : m.stage ≠ .starting)
    (hnone : m.file = none) : m.ending = .removed :=
  (h.kept hnone).resolve_left hstage

/-- `pidfile_to_delete` is set, and not behind. -/
def Stage.Current (stage : Stage) : Prop :=
  stage = .running ∨ stage = .upgrading ∨ stage = .assigned ∨ stage = .forking

theorem Stage.Current.ne_starting {stage : Stage} (h : stage.Current) : stage ≠ .starting := by
  rcases h with rfl | rfl | rfl | rfl <;> exact nofun

theorem Master.Named.exists_pidfile (h : m.Named path) (hstage : m.stage.Current) :
    ∃ n, m.pidfile = some n ∧ (m.file = some n ∨ m.file = none) := by
  rcases hstage with hstage | hstage | hstage | hstage <;> exact h.place_at hstage

theorem Master.Named.current_or_renamed (h : m.Named path) (hsome : m.pidfile.isSome) :
    m.stage.Current ∨ m.stage = .renamed := by
  cases hstage : m.stage with
  | starting =>
    rw [(h.place_at hstage).2.2] at hsome
    cases hsome
  | opened =>
    rw [(h.place_at hstage).2] at hsome
    cases hsome
  | written =>
    rw [(h.place_at hstage).2] at hsome
    cases hsome
  | running => exact Or.inl (Or.inl rfl)
  | upgrading => exact Or.inl (Or.inr (Or.inl rfl))
  | renamed => exact Or.inr rfl
  | assigned => exact Or.inl (Or.inr (Or.inr (Or.inl rfl)))
  | forking => exact Or.inl (Or.inr (Or.inr (Or.inr rfl)))

/-- Where `pidfile_to_delete` is set and not behind, it names the file. -/
theorem Master.Named.file_eq (h : m.Named path) (hstage : m.stage ≠ .renamed) {n : Name}
    (hn : m.pidfile = some n) : m.file = some n ∨ m.file = none := by
  have hcurrent := (h.current_or_renamed (Option.isSome_of_eq_some hn)).resolve_right hstage
  obtain ⟨n', hn', hfile⟩ := h.exists_pidfile hcurrent
  obtain rfl := Option.some.inj (hn.symm.trans hn')
  exact hfile

/-- Where there is no file, any name will do. -/
theorem Master.Named.place_of_none (h : m.Named path) (hsome : m.pidfile.isSome) {m' : Master}
    {n : Name} (hn : m'.pidfile = some n) (hstage : m'.stage = m.stage) (hnone : m'.file = none) :
    m'.Place path m'.stage := by
  rw [hstage]
  rcases h.current_or_renamed hsome with (hstage | hstage | hstage | hstage) | hstage <;> rw [hstage]
  · exact ⟨n, hn, Or.inr hnone⟩
  · exact ⟨n, hn, Or.inr hnone⟩
  · exact ⟨n, hn, Or.inr hnone⟩
  · exact ⟨n, hn, Or.inr hnone⟩
  · exact ⟨Option.isSome_of_eq_some hn, Or.inr hnone⟩

theorem Master.Named.freed_of_alive (h : m.Named path) (halive : m.ending = .alive) :
    ¬ m.freed := by
  intro hfreed
  have hremoved := (h.freed hfreed).1
  rw [halive] at hremoved
  cases hremoved

theorem Master.named_init : Master.init.Named path where
  place := ⟨rfl, rfl, rfl⟩
  kept _ := Or.inl rfl
  removed hremoved := by cases hremoved
  upgraded hupgraded := by cases hupgraded
  freed hfreed := by cases hfreed

theorem Master.Named.opened (h : m.Named path) (hstage : m.stage = .starting) (i : ℕ) :
    { m with stage := .opened, stream := some i, file := some path : Master }.Named path := by
  have hplace := h.place_at hstage
  have hnull : ¬ m.pidfile.isSome := by simp [hplace.2.2]
  exact {
    place := ⟨rfl, hplace.2.2⟩
    kept := fun hnone => by cases hnone
    removed := fun _ hsome => absurd hsome hnull
    upgraded := fun hupgraded => absurd (h.upgraded hupgraded) hnull
    freed := fun hfreed => absurd (h.freed hfreed).2 hnull }

theorem Master.Named.written (h : m.Named path) (hstage : m.stage = .opened) :
    { m with stage := .written : Master }.Named path where
  place := h.place_at hstage
  kept hnone := Or.inr (h.removed_of_none (hstage ▸ nofun) hnone)
  removed := h.removed
  upgraded := h.upgraded
  freed := h.freed

theorem Master.Named.named (h : m.Named path) (hstage : m.stage = .written)
    (halive : m.ending = .alive) :
    { m with stage := .running, pidfile := some path : Master }.Named path where
  place := ⟨path, rfl, Or.inl (h.place_at hstage).1⟩
  kept hnone := Or.inr (h.removed_of_none (hstage ▸ nofun) hnone)
  removed hremoved := by
    rw [halive] at hremoved
    cases hremoved
  upgraded _ := rfl
  freed hfreed := absurd hfreed (h.freed_of_alive halive)

theorem Master.Named.closed (h : m.Named path) (hsome : m.pidfile.isSome) :
    { m with stream := none : Master }.Named path where
  place := by
    show ({ m with stream := none } : Master).Place path m.stage
    rcases h.current_or_renamed hsome with (hs | hs | hs | hs) | hs <;> rw [hs] <;>
      exact h.place_at hs
  kept := h.kept
  removed := h.removed
  upgraded := h.upgraded
  freed := h.freed

theorem Master.Named.terminated (h : m.Named path) (halive : m.ending = .alive) :
    { m with ending := .waiting : Master }.Named path where
  place := h.place
  kept hnone := by
    refine Or.inl ((h.kept hnone).resolve_right ?_)
    rw [halive]
    exact nofun
  removed hremoved := by cases hremoved
  upgraded := h.upgraded
  freed hfreed := absurd hfreed (h.freed_of_alive halive)

/-- Where `pidfile_to_delete` names the file, it does so at the next stage of this kind. -/
theorem Master.Named.goOn (h : m.Named path) (hfrom : m.stage.Current) {stage : Stage}
    (hto : stage.Current) (newName : Name) : { m with stage, newName : Master }.Named path where
  place := by
    have hplace := h.exists_pidfile hfrom
    rcases hto with rfl | rfl | rfl | rfl <;> exact hplace
  kept hnone := Or.inr (h.removed_of_none hfrom.ne_starting hnone)
  removed := h.removed
  upgraded := h.upgraded
  freed := h.freed

theorem Master.Named.marked (h : m.Named path) (hstage : m.stage = .assigned) :
    { m with stage := .forking, upgraded := true : Master }.Named path where
  place := h.exists_pidfile (Or.inr (Or.inr (Or.inl hstage)))
  kept hnone := Or.inr (h.removed_of_none (hstage ▸ nofun) hnone)
  removed := h.removed
  upgraded _ := by
    obtain ⟨n, hn, -⟩ := h.exists_pidfile (Or.inr (Or.inr (Or.inl hstage)))
    exact Option.isSome_of_eq_some hn
  freed := h.freed

theorem Master.Named.renamed (h : m.Named path) (hstage : m.stage = .upgrading) {n : Name}
    (hn : m.pidfile = some n) :
    { m with
      stage := .renamed
      file := if m.file = some n then some m.newName else m.file : Master }.Named path where
  place := by
    refine ⟨Option.isSome_of_eq_some hn, ?_⟩
    rcases h.file_eq (hstage ▸ nofun) hn with hfile | hfile
    · exact Or.inl (if_pos hfile)
    · exact Or.inr ((if_neg (hfile ▸ nofun)).trans hfile)
  kept hnone := by
    refine Or.inr (h.removed_of_none (hstage ▸ nofun) ?_)
    dsimp only at hnone
    split at hnone
    · cases hnone
    · exact hnone
  removed hremoved hsome := by
    have hfile := h.removed hremoved hsome
    exact (if_neg (hfile ▸ nofun)).trans hfile
  upgraded := h.upgraded
  freed := h.freed

theorem Master.Named.assigned (h : m.Named path) (hstage : m.stage = .renamed) :
    { m with stage := .assigned, pidfile := some m.newName, freed := false : Master }.Named
      path := by
  have hplace := h.place_at hstage
  exact {
    place := ⟨m.newName, rfl, hplace.2⟩
    kept := fun hnone => Or.inr (h.removed_of_none (hstage ▸ nofun) hnone)
    removed := fun hremoved _ => h.removed hremoved hplace.1
    upgraded := fun _ => rfl
    freed := fun hfreed => by cases hfreed }

theorem Master.Named.unlinked (h : m.Named path) (hstage : m.stage ≠ .renamed) {n : Name}
    (hn : m.pidfile = some n) :
    { m with ending := .removed
             file := if m.file = some n then none else m.file : Master }.Named path := by
  have hnone : (if m.file = some n then none else m.file) = none := by
    rcases h.file_eq hstage hn with hfile | hfile
    · exact if_pos hfile
    · exact (if_neg (hfile ▸ nofun)).trans hfile
  rw [hnone]
  have hsome := Option.isSome_of_eq_some hn
  exact {
    place := h.place_of_none hsome hn rfl rfl
    kept := fun _ => Or.inr rfl
    removed := fun _ _ => rfl
    upgraded := h.upgraded
    freed := fun _ => ⟨rfl, hsome⟩ }

/-- `remove(NULL)` -/
theorem Master.Named.unlinkedNull (h : m.Named path) (hnull : m.pidfile = none) :
    { m with ending := .removed : Master }.Named path where
  place := h.place
  kept _ := Or.inr rfl
  removed _ hsome := by
    rw [hnull] at hsome
    cases hsome
  upgraded := h.upgraded
  freed hfreed := ⟨rfl, (h.freed hfreed).2⟩

theorem Master.Named.released (h : m.Named path) (hremoved : m.ending = .removed)
    (hupgraded : m.upgraded) : { m with freed := true : Master }.Named path where
  place := h.place
  kept := h.kept
  removed := h.removed
  upgraded := h.upgraded
  freed _ := ⟨hremoved, h.upgraded hupgraded⟩

/-- There is no file any more that the name could be of. -/
theorem Master.Named.overwritten (h : m.Named path) (hfreed : m.freed) (n : Name) :
    { m with pidfile := some n : Master }.Named path := by
  obtain ⟨hremoved, hsome⟩ := h.freed hfreed
  have hnone := h.removed hremoved hsome
  exact {
    place := h.place_of_none hsome rfl rfl hnone
    kept := h.kept
    removed := fun _ _ => hnone
    upgraded := fun _ => rfl
    freed := fun _ => ⟨hremoved, rfl⟩ }

end

/-- The file of the master is the one that its stream is open on, and holds the pid when
there is no stream any more. -/
def Master.Holds (dir : Directory Name (List UInt8)) (pid : ℕ) (m : Master) : Prop :=
  ∀ n, m.file = some n → ∃ i, dir.inode n = some i ∧ (∀ j, m.stream = some j → j = i) ∧
    (m.stream = none → dir.content i = decimal pid)

namespace Host

variable {path : Name} {s t : Host} {l : Label}

structure Inv (path : Name) (s : Host) : Prop where
  sound : s.dir.Sound
  listed : ∀ {q m}, s.masters q = some m → q ∈ s.pids
  named : ∀ {q m}, s.masters q = some m → m.Named path
  holds : ∀ {q m}, s.masters q = some m → m.Holds s.dir q
  distinct : ∀ {q q' m m' n}, s.masters q = some m → s.masters q' = some m' → q ≠ q' →
    m.file = some n → m'.file ≠ some n
  stream_lt : ∀ {q m i}, s.masters q = some m → m.stream = some i → i < s.dir.next
  /-- A stream is not open on the file of another. -/
  stream : ∀ {q m i n}, s.masters q = some m → m.stream = some i → s.dir.inode n = some i →
    m.file = some n
  /-- The pid of a master is in its own file only. -/
  holder : ∀ {q m n}, s.masters q = some m → s.dir.file n = some (decimal q) → m.file = some n

theorem inv_init {dir : Directory Name (List UInt8)} (h : dir.Sound) : (init dir).Inv path where
  sound := h
  listed hm := by cases hm
  named hm := by cases hm
  holds hm := by cases hm
  distinct hm := by cases hm
  stream_lt hm := by cases hm
  stream hm := by cases hm
  holder hm := by cases hm

/-- The masters after one of them has changed. -/
theorem masters_setMaster_eq_some {pid q : ℕ} {o : Option Master} {m : Master}
    (h : (s.setMaster pid o).masters q = some m) :
    q = pid ∧ o = some m ∨ q ≠ pid ∧ s.masters q = some m := by
  unfold setMaster at h
  dsimp only at h
  by_cases hq : q = pid
  · subst hq
    rw [Function.update_self] at h
    exact Or.inl ⟨rfl, h⟩
  · rw [Function.update_of_ne hq] at h
    exact Or.inr ⟨hq, h⟩

/-- The directory is left alone, and the masters that are left keep their files. -/
theorem Inv.of_masters (h : s.Inv path) (hdir : t.dir = s.dir) (hpids : t.pids = s.pids)
    (hmasters : ∀ {q m'}, t.masters q = some m' → m'.Named path ∧ m'.Holds s.dir q ∧
      ∃ m, s.masters q = some m ∧ m'.file = m.file ∧
        ∀ i, m'.stream = some i → m.stream = some i) :
    t.Inv path where
  sound := hdir ▸ h.sound
  listed hm' := by
    obtain ⟨-, -, m, hm, -, -⟩ := hmasters hm'
    exact hpids ▸ h.listed hm
  named hm' := (hmasters hm').1
  holds hm' := hdir ▸ (hmasters hm').2.1
  distinct hm₁ hm₂ hne hn := by
    obtain ⟨-, -, m, hm, hfile, -⟩ := hmasters hm₁
    obtain ⟨-, -, m', hm', hfile', -⟩ := hmasters hm₂
    rw [hfile']
    exact h.distinct hm hm' hne (hfile ▸ hn)
  stream_lt hm' hi := by
    obtain ⟨-, -, m, hm, -, hstream⟩ := hmasters hm'
    exact hdir ▸ h.stream_lt hm (hstream _ hi)
  stream hm' hi hn := by
    obtain ⟨-, -, m, hm, hfile, hstream⟩ := hmasters hm'
    rw [hfile]
    exact h.stream hm (hstream _ hi) (hdir ▸ hn)
  holder hm' hn := by
    obtain ⟨-, -, m, hm, hfile, -⟩ := hmasters hm'
    rw [hfile]
    exact h.holder hm (hdir ▸ hn)

variable {pid : ℕ} {m : Master}

/-- A master goes on, and keeps its file, and its stream or none. -/
theorem Inv.set (h : s.Inv path) (hm : s.masters pid = some m) {m' : Master}
    (hnamed : m'.Named path) (hholds : m'.Holds s.dir pid) (hfile : m'.file = m.file)
    (hstream : ∀ i, m'.stream = some i → m.stream = some i) :
    (s.setMaster pid (some m')).Inv path := by
  refine h.of_masters rfl rfl fun hq => ?_
  rcases masters_setMaster_eq_some hq with ⟨rfl, heq⟩ | ⟨-, hq⟩
  · obtain rfl := Option.some.inj heq
    exact ⟨hnamed, hholds, m, hm, hfile, hstream⟩
  · exact ⟨h.named hq, h.holds hq, _, hq, rfl, fun _ hi => hi⟩

theorem Inv.advance (h : s.Inv path) (hm : s.masters pid = some m) {m' : Master}
    (hnamed : m'.Named path) (hfile : m'.file = m.file) (hstream : m'.stream = m.stream) :
    (s.setMaster pid (some m')).Inv path := by
  have hholds : m'.Holds s.dir pid := by
    unfold Master.Holds
    rw [hfile, hstream]
    exact h.holds hm
  exact h.set hm hnamed hholds hfile fun _ hi => hstream ▸ hi

/-- A master is gone. -/
theorem Inv.gone (h : s.Inv path) : (s.setMaster pid none).Inv path := by
  refine h.of_masters rfl rfl fun hq => ?_
  rcases masters_setMaster_eq_some hq with ⟨-, heq⟩ | ⟨-, hq⟩
  · cases heq
  · exact ⟨h.named hq, h.holds hq, _, hq, rfl, fun _ hi => hi⟩

/-- A master is there that has no file yet. -/
theorem Inv.launch (h : s.Inv path) (hunused : s.Unused pid) : (s.launch pid).Inv path where
  sound := h.sound
  listed hq := by
    rcases masters_setMaster_eq_some hq with ⟨rfl, -⟩ | ⟨-, hq⟩
    · exact List.mem_cons_self
    · exact List.mem_cons_of_mem _ (h.listed hq)
  named hq := by
    rcases masters_setMaster_eq_some hq with ⟨-, heq⟩ | ⟨-, hq⟩
    · obtain rfl := Option.some.inj heq
      exact Master.named_init
    · exact h.named hq
  holds hq := by
    rcases masters_setMaster_eq_some hq with ⟨-, heq⟩ | ⟨-, hq⟩
    · obtain rfl := Option.some.inj heq
      intro n hn
      cases hn
    · exact h.holds hq
  distinct hq hq' hne hn := by
    rcases masters_setMaster_eq_some hq with ⟨-, heq⟩ | ⟨-, hq⟩
    · obtain rfl := Option.some.inj heq
      cases hn
    · rcases masters_setMaster_eq_some hq' with ⟨-, heq⟩ | ⟨-, hq'⟩
      · obtain rfl := Option.some.inj heq
        intro hn'
        cases hn'
      · exact h.distinct hq hq' hne hn
  stream_lt hq hi := by
    rcases masters_setMaster_eq_some hq with ⟨-, heq⟩ | ⟨-, hq⟩
    · obtain rfl := Option.some.inj heq
      cases hi
    · exact h.stream_lt hq hi
  stream hq hi hn := by
    rcases masters_setMaster_eq_some hq with ⟨-, heq⟩ | ⟨-, hq⟩
    · obtain rfl := Option.some.inj heq
      cases hi
    · exact h.stream hq hi hn
  holder {q m n} hq hn := by
    rcases masters_setMaster_eq_some hq with ⟨rfl, -⟩ | ⟨-, hq⟩
    · -- the name would be that of a file with the pid
      obtain ⟨i, hi, -⟩ := Directory.file_eq_some_iff.mp hn
      exact absurd hn (hunused n (h.sound.mem_names hi))
    · exact h.holder hq hn

/-- A master writes to its stream. -/
theorem Inv.write (h : s.Inv path) (hm : s.masters pid = some m) {i : ℕ}
    (hi : m.stream = some i) : ({ s with dir := s.dir.write i (decimal pid) } : Host).Inv path where
  sound := h.sound.write i _
  listed := h.listed
  named := h.named
  holds {q m'} hq n hn := by
    obtain ⟨j, hj, hstream, hcontent⟩ := h.holds hq n hn
    refine ⟨j, hj, hstream, fun hnone => ?_⟩
    by_cases hji : j = i
    · subst hji
      -- the stream is open on the file
      have hqp : q = pid := by
        by_contra hne
        exact h.distinct hq hm hne hn (h.stream hm hi hj)
      subst hqp
      exact Directory.content_write_self
    · show (s.dir.write i (decimal pid)).content j = _
      rw [Directory.content_write_of_ne hji]
      exact hcontent hnone
  distinct := h.distinct
  stream_lt := h.stream_lt
  stream := h.stream
  holder {q m' n} hq hn := by
    obtain ⟨j, hj, hcontent⟩ := Directory.file_eq_some_iff.mp hn
    by_cases hji : j = i
    · subst hji
      have hqp : pid = q := decimal_injective (Directory.content_write_self.symm.trans hcontent)
      subst hqp
      obtain rfl := Option.some.inj (hm.symm.trans hq)
      exact h.stream hm hi hj
    · have hold : s.dir.content j = decimal q :=
        (Directory.content_write_of_ne hji _).symm.trans hcontent
      exact h.holder hq (Directory.file_eq_some_iff.mpr ⟨j, hj, hold⟩)

theorem Inv.flush (h : s.Inv path) (hm : s.masters pid = some m) : (s.flush pid m).Inv path := by
  unfold Host.flush
  split
  case h_1 i hi =>
    split
    · exact h
    · exact h.write hm hi
  case h_2 => exact h

/-- The file of another master does not have a free name. -/
theorem Inv.ne_of_free (h : s.Inv path) {n n' : Name} {q : ℕ} {m' : Master} (hfree : s.Free pid n)
    (hq : s.masters q = some m') (hne : q ≠ pid) (hn' : m'.file = some n') : n' ≠ n := by
  rintro rfl
  exact hfree q (h.listed hq) hne m' hq hn'

/-- `fopen(pidfile_path, "w")`, where the path is free. -/
theorem Inv.openPidfile (h : s.Inv path) (hm : s.masters pid = some m)
    (hstage : m.stage = .starting) (hfree : s.Free pid path) :
    (s.openPidfile path pid m).Inv path where
  sound := h.sound.openTruncate []
  listed hq := by
    rcases masters_setMaster_eq_some hq with ⟨rfl, -⟩ | ⟨-, hq⟩
    · exact h.listed hm
    · exact h.listed hq
  named hq := by
    rcases masters_setMaster_eq_some hq with ⟨-, heq⟩ | ⟨-, hq⟩
    · obtain rfl := Option.some.inj heq
      exact (h.named hm).opened hstage _
    · exact h.named hq
  holds hq n hn := by
    rcases masters_setMaster_eq_some hq with ⟨-, heq⟩ | ⟨hne, hq⟩
    · obtain rfl := Option.some.inj heq
      obtain rfl := Option.some.inj hn
      exact ⟨_, Directory.inode_openTruncate_self [], fun j hj => (Option.some.inj hj).symm,
        fun hnone => by cases hnone⟩
    · have hnp := h.ne_of_free hfree hq hne hn
      obtain ⟨i, hi, hstream, hcontent⟩ := h.holds hq n hn
      have hi' := (Directory.inode_openTruncate_of_ne [] hnp).trans hi
      refine ⟨i, hi', hstream, fun hnone => ?_⟩
      have hfile := h.sound.file_openTruncate_of_ne [] hnp
      rw [Directory.file_eq_of_inode hi, Directory.file_eq_of_inode hi'] at hfile
      exact (Option.some.inj hfile).trans (hcontent hnone)
  distinct hq hq' hne hn hn' := by
    rcases masters_setMaster_eq_some hq with ⟨hqp, heq⟩ | ⟨hqp, hold⟩ <;>
      rcases masters_setMaster_eq_some hq' with ⟨hqp', heq'⟩ | ⟨hqp', hold'⟩
    · exact hne (hqp.trans hqp'.symm)
    · obtain rfl := Option.some.inj heq
      exact h.ne_of_free hfree hold' hqp' hn' (Option.some.inj hn).symm
    · obtain rfl := Option.some.inj heq'
      exact h.ne_of_free hfree hold hqp hn (Option.some.inj hn').symm
    · exact h.distinct hold hold' hne hn hn'
  stream_lt {q m' i} hq hi := by
    rcases masters_setMaster_eq_some hq with ⟨-, heq⟩ | ⟨-, hq⟩
    · obtain rfl := Option.some.inj heq
      obtain rfl := Option.some.inj hi
      exact (h.sound.openTruncate []).lt_next (Directory.inode_openTruncate_self [])
    · exact Nat.lt_of_lt_of_le (h.stream_lt hq hi) (Directory.next_le_openTruncate [])
  stream {q m' i n} hq hi hn := by
    have hself : (s.openPidfile path pid m).dir.inode path = some (s.dir.openTruncate [] path).2 :=
      Directory.inode_openTruncate_self []
    rcases masters_setMaster_eq_some hq with ⟨-, heq⟩ | ⟨hne, hother⟩
    · obtain rfl := Option.some.inj heq
      obtain rfl := Option.some.inj hi
      exact congrArg some ((h.sound.openTruncate []).inj hself hn)
    · by_cases hnp : n = path
      · subst hnp
        obtain rfl := Option.some.inj (hself.symm.trans hn)
        have hsnd : s.dir.inode n = some _ ∨ _ := Directory.openTruncate_snd []
        rcases hsnd with hold | hnew
        · exact h.stream hother hi hold
        · -- nobody has a stream on a new file
          exact absurd (h.stream_lt hother hi) (hnew ▸ Nat.lt_irrefl _)
      · exact h.stream hother hi ((Directory.inode_openTruncate_of_ne [] hnp).symm.trans hn)
  holder {q m' n} hq hn := by
    have hnp : n ≠ path := by
      rintro rfl
      -- the file is blank
      obtain ⟨i, hi, hcontent⟩ := Directory.file_eq_some_iff.mp hn
      have hself : (s.openPidfile n pid m).dir.inode n = some (s.dir.openTruncate [] n).2 :=
        Directory.inode_openTruncate_self []
      obtain rfl := Option.some.inj (hself.symm.trans hi)
      exact decimal_ne_nil q (hcontent.symm.trans (Directory.content_openTruncate_self []))
    have hold : s.dir.file n = some (decimal q) :=
      (h.sound.file_openTruncate_of_ne [] hnp).symm.trans hn
    rcases masters_setMaster_eq_some hq with ⟨rfl, -⟩ | ⟨-, hq⟩
    · -- the master had no file
      have hnone := ((h.named hm).place_at hstage).1
      exact absurd ((h.holder hm hold).symm.trans hnone) (Option.some_ne_none n)
    · exact h.holder hq hold

/-- The files of the masters have gone where `rename` has put them. -/
theorem Inv.masters_rename (h : s.Inv path) (hm : s.masters pid = some m) {n : Name}
    (hfile : m.file = some n ∨ m.file = none) (hfree : s.Free pid n)
    (hfreeNew : s.Free pid m.newName) {q : ℕ} {m' : Master}
    (hq : (s.rename pid m n).masters q = some m') :
    ∃ mq, s.masters q = some mq ∧ m'.stream = mq.stream ∧ ∀ n', m'.file = some n' ↔
      n' = m.newName ∧ mq.file = some n ∨ n' ≠ m.newName ∧ n' ≠ n ∧ mq.file = some n' := by
  rcases masters_setMaster_eq_some hq with ⟨rfl, heq⟩ | ⟨hne, hq⟩
  · obtain rfl := Option.some.inj heq
    refine ⟨m, hm, rfl, fun n' => ?_⟩
    dsimp only
    rcases hfile with hfile | hfile <;> rw [hfile]
    · simp only [if_true, Option.some.injEq, and_true]
      constructor
      · rintro rfl
        exact Or.inl rfl
      · rintro (rfl | ⟨-, hne, heq⟩)
        · rfl
        · exact absurd heq.symm hne
    · simp
  · refine ⟨m', hq, rfl, fun n' => ⟨fun hn' => Or.inr ?_, ?_⟩⟩
    · exact ⟨h.ne_of_free hfreeNew hq hne hn', h.ne_of_free hfree hq hne hn', hn'⟩
    · rintro (⟨-, hn⟩ | ⟨-, -, hn'⟩)
      · exact absurd rfl (h.ne_of_free hfree hq hne hn)
      · exact hn'

/-- `rename`, where both names are free. -/
theorem Inv.rename (h : s.Inv path) (hm : s.masters pid = some m) {n : Name}
    (hstage : m.stage = .upgrading) (hpidfile : m.pidfile = some n) (hfree : s.Free pid n)
    (hfreeNew : s.Free pid m.newName) : (s.rename pid m n).Inv path := by
  have hfile := (h.named hm).file_eq (hstage ▸ nofun) hpidfile
  have hback := fun {q m'} (hq : (s.rename pid m n).masters q = some m') =>
    h.masters_rename hm hfile hfree hfreeNew hq
  refine ⟨h.sound.rename, ?_, ?_, ?_, ?_, ?_, ?_, ?_⟩
  · intro q m' hq
    obtain ⟨mq, hmq, -⟩ := hback hq
    exact h.listed hmq
  · intro q m' hq
    rcases masters_setMaster_eq_some hq with ⟨-, heq⟩ | ⟨-, hq⟩
    · obtain rfl := Option.some.inj heq
      exact (h.named hm).renamed hstage hpidfile
    · exact h.named hq
  · intro q m' hq n' hn'
    obtain ⟨mq, hmq, hstream, hnames⟩ := hback hq
    rw [hstream]
    rcases (hnames n').mp hn' with ⟨rfl, hn⟩ | ⟨hno, hnn, hn⟩
    · obtain ⟨i, hi, hrest⟩ := h.holds hmq n hn
      exact ⟨i, Directory.inode_rename_new.trans hi, hrest⟩
    · obtain ⟨i, hi, hrest⟩ := h.holds hmq n' hn
      exact ⟨i, (Directory.inode_rename_of_ne hnn hno).trans hi, hrest⟩
  · intro q q' m₁ m₂ n' hq hq' hne hn hn'
    obtain ⟨mq, hmq, -, hnames⟩ := hback hq
    obtain ⟨mq', hmq', -, hnames'⟩ := hback hq'
    rcases (hnames n').mp hn with ⟨heq, hn⟩ | ⟨hno, -, hn⟩ <;>
      rcases (hnames' n').mp hn' with ⟨heq', hn'⟩ | ⟨hno', -, hn'⟩
    · exact h.distinct hmq hmq' hne hn hn'
    · exact hno' heq
    · exact hno heq'
    · exact h.distinct hmq hmq' hne hn hn'
  · intro q m' i hq hi
    obtain ⟨mq, hmq, hstream, -⟩ := hback hq
    exact h.stream_lt hmq (hstream ▸ hi)
  · intro q m' i n' hq hi hn'
    obtain ⟨mq, hmq, hstream, hnames⟩ := hback hq
    rw [hstream] at hi
    apply (hnames n').mpr
    rcases Directory.inode_rename_eq_some hn' with ⟨heq, hinode⟩ | ⟨hno, hnn, hinode⟩
    · exact Or.inl ⟨heq, h.stream hmq hi hinode⟩
    · exact Or.inr ⟨hno, hnn, h.stream hmq hi hinode⟩
  · intro q m' n' hq hn'
    obtain ⟨mq, hmq, -, hnames⟩ := hback hq
    obtain ⟨i, hi, hcontent⟩ := Directory.file_eq_some_iff.mp hn'
    apply (hnames n').mpr
    rcases Directory.inode_rename_eq_some hi with ⟨heq, hinode⟩ | ⟨hno, hnn, hinode⟩
    · exact Or.inl ⟨heq, h.holder hmq (Directory.file_eq_some_iff.mpr ⟨i, hinode, hcontent⟩)⟩
    · refine Or.inr ⟨hno, hnn, h.holder hmq ?_⟩
      exact Directory.file_eq_some_iff.mpr ⟨i, hinode, hcontent⟩

/-- The name is not that of a file of a master any more. -/
theorem Inv.masters_remove (h : s.Inv path) (hm : s.masters pid = some m) {n : Name}
    (hfree : s.Free pid n) {q : ℕ} {m' : Master} (hq : (s.remove pid m n).masters q = some m') :
    ∃ mq, s.masters q = some mq ∧ m'.stream = mq.stream ∧
      ∀ n', m'.file = some n' ↔ n' ≠ n ∧ mq.file = some n' := by
  rcases masters_setMaster_eq_some hq with ⟨rfl, heq⟩ | ⟨hne, hq⟩
  · obtain rfl := Option.some.inj heq
    refine ⟨m, hm, rfl, fun n' => ?_⟩
    dsimp only
    split
    case isTrue hfile =>
      rw [hfile]
      constructor
      · exact nofun
      · rintro ⟨hne, heq⟩
        exact absurd (Option.some.inj heq).symm hne
    case isFalse hfile =>
      exact ⟨fun hn' => ⟨fun heq => hfile (heq ▸ hn'), hn'⟩, And.right⟩
  · exact ⟨m', hq, rfl, fun n' =>
      ⟨fun hn' => ⟨h.ne_of_free hfree hq hne hn', hn'⟩, And.right⟩⟩

/-- The name that a termination removes once is that of the master's own file. -/
theorem Inv.free_of_remove (h : s.Inv path) (hm : s.masters pid = some m) {n : Name}
    (hpidfile : m.pidfile = some n) (hstage : m.stage ≠ .renamed)
    (honce : m.ending = .waiting ∨ s.dir.inode n = none) : s.Free pid n := by
  intro q _ hne m' hq hn
  rcases honce with hwaiting | hnone
  · have hnamed := h.named hm
    have hsome := Option.isSome_of_eq_some hpidfile
    have hcurrent := (hnamed.current_or_renamed hsome).resolve_right hstage
    have hfile : m.file ≠ none := by
      intro hnone
      have hremoved := hnamed.removed_of_none hcurrent.ne_starting hnone
      rw [hwaiting] at hremoved
      cases hremoved
    exact h.distinct hm hq (Ne.symm hne) ((hnamed.file_eq hstage hpidfile).resolve_right hfile) hn
  · obtain ⟨i, hi, -⟩ := h.holds hq n hn
    rw [hnone] at hi
    cases hi

/-- `remove`, where `pidfile_to_delete` is not behind. -/
theorem Inv.remove (h : s.Inv path) (hm : s.masters pid = some m) {n : Name}
    (hpidfile : m.pidfile = some n) (hstage : m.stage ≠ .renamed)
    (honce : m.ending = .waiting ∨ s.dir.inode n = none) : (s.remove pid m n).Inv path := by
  have hfree := h.free_of_remove hm hpidfile hstage honce
  have hback := fun {q m'} (hq : (s.remove pid m n).masters q = some m') =>
    h.masters_remove hm hfree hq
  refine ⟨h.sound.remove, ?_, ?_, ?_, ?_, ?_, ?_, ?_⟩
  · intro q m' hq
    obtain ⟨mq, hmq, -⟩ := hback hq
    exact h.listed hmq
  · intro q m' hq
    rcases masters_setMaster_eq_some hq with ⟨-, heq⟩ | ⟨-, hq⟩
    · obtain rfl := Option.some.inj heq
      exact (h.named hm).unlinked hstage hpidfile
    · exact h.named hq
  · intro q m' hq n' hn'
    obtain ⟨mq, hmq, hstream, hnames⟩ := hback hq
    obtain ⟨hne, hn'⟩ := (hnames n').mp hn'
    obtain ⟨i, hi, hrest⟩ := h.holds hmq n' hn'
    exact ⟨i, (Directory.inode_remove_of_ne hne).trans hi, hstream ▸ hrest⟩
  · intro q q' m₁ m₂ n' hq hq' hne hn hn'
    obtain ⟨mq, hmq, -, hnames⟩ := hback hq
    obtain ⟨mq', hmq', -, hnames'⟩ := hback hq'
    exact h.distinct hmq hmq' hne ((hnames n').mp hn).2 ((hnames' n').mp hn').2
  · intro q m' i hq hi
    obtain ⟨mq, hmq, hstream, -⟩ := hback hq
    exact h.stream_lt hmq (hstream ▸ hi)
  · intro q m' i n' hq hi hn'
    obtain ⟨mq, hmq, hstream, hnames⟩ := hback hq
    obtain ⟨hne, hinode⟩ := Directory.inode_remove_eq_some hn'
    exact (hnames n').mpr ⟨hne, h.stream hmq (hstream ▸ hi) hinode⟩
  · intro q m' n' hq hn'
    obtain ⟨mq, hmq, -, hnames⟩ := hback hq
    obtain ⟨i, hi, hcontent⟩ := Directory.file_eq_some_iff.mp hn'
    obtain ⟨hne, hinode⟩ := Directory.inode_remove_eq_some hi
    refine (hnames n').mpr ⟨hne, h.holder hmq ?_⟩
    exact Directory.file_eq_some_iff.mpr ⟨i, hinode, hcontent⟩

theorem Inv.exit (h : s.Inv path) (hm : s.masters pid = some m) : (s.exit pid m).Inv path :=
  (h.flush hm).gone

@[simp] theorem masters_flush : (s.flush pid m).masters = s.masters := by
  unfold Host.flush
  split
  · split <;> rfl
  · rfl

@[simp] theorem inode_flush : (s.flush pid m).dir.inode = s.dir.inode := by
  unfold Host.flush
  split
  · split <;> rfl
  · rfl

/-- `fclose` -/
theorem Inv.close (h : s.Inv path) (hm : s.masters pid = some m) (hpidfile : m.pidfile.isSome) :
    ((s.flush pid m).setMaster pid (some { m with stream := none })).Inv path := by
  have hnot : m.stage ≠ .opened := by
    rcases (h.named hm).current_or_renamed hpidfile with (hs | hs | hs | hs) | hs <;> rw [hs] <;>
      exact nofun
  have hm' : (s.flush pid m).masters pid = some m := (congrFun masters_flush pid).trans hm
  refine (h.flush hm).set hm' ((h.named hm).closed hpidfile) ?_ rfl ?_
  · -- the pid is in the file now
    intro n hn
    obtain ⟨i, hi, hstream, hcontent⟩ := h.holds hm n hn
    have hnone : ∀ j, (none : Option ℕ) = some j → j = i := nofun
    refine ⟨i, (congrFun inode_flush n).trans hi, hnone, fun _ => ?_⟩
    unfold Host.flush
    split
    case h_1 j hj =>
      rw [if_neg hnot, hstream j hj]
      exact Directory.content_write_self
    case h_2 hnone => exact hcontent hnone
  · intro i hi
    cases hi

/-- **Step rule.** -/
theorem Inv.of_steps (h : s.Inv path) (hok : s.Exclusive path l) (hs : s.Steps path l t) :
    t.Inv path := by
  cases hs with
  | start _ => exact h.launch hok
  | «open» hm hstage => exact h.openPidfile hm hstage hok
  | write hm hstage => exact h.advance hm ((h.named hm).written hstage) rfl rfl
  | name hm hstage halive => exact h.advance hm ((h.named hm).named hstage halive) rfl rfl
  | close hm hpidfile => exact h.close hm hpidfile
  | exit hm => exact h.exit hm
  | terminate hm halive =>
    exact h.advance hm ((h.named hm).terminated halive) rfl rfl
  | remove hm hpidfile =>
    obtain ⟨hstage, honce⟩ := hok _ hm _ hpidfile
    exact h.remove hm hpidfile hstage honce
  | removeNull hm hnull => exact h.advance hm ((h.named hm).unlinkedNull hnull) rfl rfl
  | free hm hremoved hupgraded =>
    exact h.advance hm ((h.named hm).released hremoved hupgraded) rfl rfl
  | overwrite hm hfreed => exact h.advance hm ((h.named hm).overwritten hfreed _) rfl rfl
  | upgrade hm hstage =>
    exact h.advance hm ((h.named hm).goOn (Or.inl hstage) (Or.inr (Or.inl rfl)) _) rfl rfl
  | upgradeNull hm => exact h.gone
  | rename hm hstage hpidfile hfile =>
    obtain ⟨hfree, hfreeNew⟩ := hok _ hm _ hpidfile
    exact h.rename hm hstage hpidfile hfree hfreeNew
  | renameFails hm hstage =>
    exact h.advance hm ((h.named hm).goOn (Or.inr (Or.inl hstage)) (Or.inl rfl) _) rfl rfl
  | assign hm hstage => exact h.advance hm ((h.named hm).assigned hstage) rfl rfl
  | mark hm hstage => exact h.advance hm ((h.named hm).marked hstage) rfl rfl
  | @fork _ _ m hm hstage _ =>
    have hgoOn := (h.named hm).goOn (Or.inr (Or.inr (Or.inr hstage))) (Or.inl rfl) m.newName
    exact (h.advance hm hgoOn rfl rfl).launch hok

theorem Inv.of_run {dir : Directory Name (List UInt8)} (hdir : dir.Sound)
    (h : Run (step path) (Exclusive path) (init dir) s) : s.Inv path :=
  h.invariant (inv_init hdir) fun _ _ _ hinv hok hs => hinv.of_steps hok (steps_of_step hs)

/-! ## Ownership -/

/-- No handler and no start-up is in progress. -/
def Settled (s : Host) : Prop :=
  ∀ q ∈ s.pids, ∀ m ∈ s.masters q, m.stage = .running ∧ m.ending = .alive ∧ m.stream = none

instance (s : Host) : Decidable s.Settled :=
  inferInstanceAs (Decidable (∀ q ∈ s.pids, ∀ m ∈ s.masters q, _ ∧ _ ∧ _))

/-- The `pidfile_to_delete` of each master names a file with its pid. -/
def Owned (s : Host) : Prop :=
  ∀ q m, s.masters q = some m → ∃ n, m.pidfile = some n ∧ s.dir.file n = some (decimal q)

theorem Inv.owned (h : s.Inv path) (hsettled : s.Settled) : s.Owned := by
  intro q m hm
  obtain ⟨hstage, halive, hstream⟩ := hsettled q (h.listed hm) m hm
  have hnamed := h.named hm
  obtain ⟨n, hn, hfile⟩ := hnamed.place_at hstage
  have hnone : m.file ≠ none := by
    intro hnone
    have hremoved := hnamed.removed_of_none (hstage ▸ nofun) hnone
    rw [halive] at hremoved
    cases hremoved
  obtain ⟨i, hi, -, hcontent⟩ := h.holds hm n (hfile.resolve_right hnone)
  exact ⟨n, hn, Directory.file_eq_some_iff.mpr ⟨i, hi, hcontent hstream⟩⟩

/-- The pid of another master stays in its file when a stream is closed. -/
theorem Inv.file_flush (h : s.Inv path) (hm : s.masters pid = some m) {q : ℕ} {m' : Master}
    {n : Name} (hq : s.masters q = some m') (hne : q ≠ pid)
    (hn : s.dir.file n = some (decimal q)) : (s.flush pid m).dir.file n = some (decimal q) := by
  obtain ⟨j, hj, hcontent⟩ := Directory.file_eq_some_iff.mp hn
  refine Directory.file_eq_some_iff.mpr ⟨j, (congrFun inode_flush n).trans hj, ?_⟩
  unfold Host.flush
  split
  case h_1 i hi =>
    have hji : j ≠ i := by
      rintro rfl
      exact h.distinct hq hm hne (h.holder hq hn) (h.stream hm hi hj)
    split
    · exact hcontent
    · exact (Directory.content_write_of_ne hji _).trans hcontent
  case h_2 => exact hcontent

/-- The pid of another master stays in its file when a name is removed that is free. -/
theorem Inv.file_remove (h : s.Inv path) {n₀ : Name} (hfree : s.Free pid n₀) {q : ℕ}
    {m' : Master} {n : Name} (hq : s.masters q = some m') (hne : q ≠ pid)
    (hn : s.dir.file n = some (decimal q)) : (s.remove pid m n₀).dir.file n = some (decimal q) := by
  obtain ⟨j, hj, hcontent⟩ := Directory.file_eq_some_iff.mp hn
  have hnn := h.ne_of_free hfree hq hne (h.holder hq hn)
  exact Directory.file_eq_some_iff.mpr ⟨j, (Directory.inode_remove_of_ne hnn).trans hj, hcontent⟩

/-- The calls of a termination leave the pids of the others in their files. -/
theorem Inv.spares (h : s.Inv path) {c : Call} (hc : c ∈ [.terminate, .remove, .free, .exit])
    (hok : s.Exclusive path (.call pid c)) (hs : s.Steps path (.call pid c) t) {q : ℕ}
    {m' : Master} {n : Name} (hq : s.masters q = some m') (hne : q ≠ pid)
    (hn : s.dir.file n = some (decimal q)) : t.dir.file n = some (decimal q) := by
  cases hs with
  | exit hm => exact h.file_flush hm hq hne hn
  | terminate _ _ => exact hn
  | free _ _ _ => exact hn
  | remove hm hpidfile =>
    obtain ⟨hstage, honce⟩ := hok _ hm _ hpidfile
    exact h.file_remove (h.free_of_remove hm hpidfile hstage honce) hq hne hn
  | removeNull _ _ => exact hn
  | _ => simp at hc

/-- The calls of `write_pidfile` -/
def startUp (pid : ℕ) : List Label :=
  [.call pid .open, .call pid .write, .call pid .name, .call pid .close]

/-- SIGUSR1 to a master, and the start-up of the next one -/
def upgradeTo (pid child : ℕ) : List Label :=
  [.call pid .upgrade, .call pid .rename, .call pid .assign, .call pid .mark,
    .call pid (.fork child)] ++ startUp child

end Host

end Yotta.Process
