import Yotta.Core.Contexts

/-!
# The lifecycle of the contexts

What holds of a reactor in every run in which no wait of the master loop fails, the
signal is delivered once, and no error is reported of the listening socket: whatever a
handler is given has not been freed.

Results:
* `Inv.of_steps`: every step keeps the invariant.
* `Inv.lifecycle`: what it says about the contexts.
* `Inv.added_eq`: no context is added after the termination.
-/

namespace Yotta.Core.Reactor

variable {κ υ ε μ : Type}

/-! ## Invariants -/

/-- The rest of a batch: each context once, and each of them a live one, or the one of
the listening socket without an error. -/
structure Pending (s : Reactor κ υ) (batch : Batch) : Prop where
  nodup : (batch.map Prod.fst).Nodup
  mem : ∀ x ∈ batch, x.1 ∈ s.live ∨ x.1 = 0 ∧ s.terminated = false ∧ x.2.failed = false

/-- What holds where the worker is. -/
def StageSound (s : Reactor κ υ) : Prop :=
  match s.stage with
  | .branch => s.masterEvent.isSome ∧ (s.masterEvent = some .signal → s.terminated = false)
  | .sockets batch => s.Pending batch
  | .accepting batch => s.Pending batch ∧ s.terminated = false
  | .reading id _ batch => s.Pending batch ∧ id ∈ s.live ∧ id ∉ batch.map Prod.fst
  | .writing id batch => s.Pending batch ∧ id ∈ s.live ∧ id ∉ batch.map Prod.fst
  | .timers batch => s.Pending batch ∧ ∀ x ∈ batch, x.1 ∈ s.live
  | .left => s.terminated = true ∧ s.live = []
  | .undefined => False
  | _ => True

structure Inv (s : Reactor κ υ) : Prop where
  sound : s.Sound
  stage : s.StageSound

/-- A run in which no wait of the master loop fails, the signal is delivered once, and no
error is reported of the listening socket. -/
def Smooth (s : Reactor κ υ) : Label μ → Prop
  | .interrupt => False
  | .deliver .signal => s.terminated = false
  | .epoll events => ∀ ev ∈ events, ev.1.2 = 0 → ev.2.failed = false
  | _ => True

instance (s : Reactor κ υ) : (l : Label μ) → Decidable (s.Smooth l)
  | .interrupt => inferInstanceAs (Decidable False)
  | .deliver .signal => inferInstanceAs (Decidable (s.terminated = false))
  | .deliver .sockets => inferInstanceAs (Decidable True)
  | .deliver .timers => inferInstanceAs (Decidable True)
  | .epoll events =>
    inferInstanceAs (Decidable (∀ ev ∈ events, ev.1.2 = 0 → ev.2.failed = false))
  | .next => inferInstanceAs (Decidable True)
  | .branch _ => inferInstanceAs (Decidable True)
  | .epollError => inferInstanceAs (Decidable True)
  | .accept _ _ _ => inferInstanceAs (Decidable True)
  | .acceptError => inferInstanceAs (Decidable True)
  | .acceptExit => inferInstanceAs (Decidable True)
  | .read _ _ => inferInstanceAs (Decidable True)
  | .readFailure _ => inferInstanceAs (Decidable True)
  | .write _ => inferInstanceAs (Decidable True)

variable {s t : Reactor κ υ}

/-! ## Batches -/

namespace Pending

variable {batch : Batch} {x : ℕ × Flags}

/-- A batch stays as long as its contexts do. -/
theorem mono (h : s.Pending batch) (hterm : t.terminated = s.terminated)
    (hlive : ∀ x ∈ batch, x.1 ∈ s.live → x.1 ∈ t.live) : t.Pending batch where
  nodup := h.nodup
  mem x hx := by
    rw [hterm]
    exact (h.mem x hx).imp (hlive x hx) id

theorem tail (h : s.Pending (x :: batch)) : s.Pending batch where
  nodup := (List.nodup_cons.mp h.nodup).2
  mem y hy := h.mem y (List.mem_cons_of_mem x hy)

theorem head_notMem (h : s.Pending (x :: batch)) : x.1 ∉ batch.map Prod.fst :=
  (List.nodup_cons.mp h.nodup).1

theorem cleanupContext (h : s.Pending batch) {id : ℕ} (hid : id ∉ batch.map Prod.fst)
    (e : Entry κ υ) (stage : Stage) : (s.cleanupContext id e stage).Pending batch := by
  apply h.mono (cleanupContext_terminated ..)
  intro x hx hlive
  refine mem_live_cleanupContext.mpr ⟨hlive, ?_⟩
  rintro rfl
  exact hid (List.mem_map_of_mem hx)

theorem acceptContext (h : s.Pending batch) {svc : Service κ υ ε μ} (hsvc : svc.Admits)
    {mem : μ} {infd timerFd : ℕ} : (s.acceptContext svc mem infd timerFd).Pending batch := by
  rw [acceptContext_eq (hsvc mem).1]
  refine h.mono ?_ ?_
  · rfl
  intro x _ hlive
  show x.1 ∈ (s.added ++ [s.nextId]).filter (· ∉ s.cleaned)
  rw [List.filter_append]
  exact List.mem_append_left _ hlive

end Pending

/-- Distinct descriptors of an epoll set belong to distinct contexts. -/
theorem Harvest.nodup {set : List (ℕ × ℕ)} {events : List ((ℕ × ℕ) × Flags)}
    (h : Harvest set events)
    (hset : ∀ {fd fd' id}, (fd, id) ∈ set → (fd', id) ∈ set → fd = fd') :
    ((batchOf events).map Prod.fst).Nodup := by
  obtain ⟨-, hnodup, hmem⟩ := h
  unfold batchOf
  rw [List.map_map]
  apply List.Nodup.map_on _ (List.Nodup.of_map _ hnodup)
  intro ev hev ev' hev' heq
  have heq : ev.1.2 = ev'.1.2 := heq
  have hev₂ := hmem ev' hev'
  rw [show ev'.1 = (ev'.1.1, ev.1.2) by rw [heq]] at hev₂
  exact List.inj_on_of_nodup_map hnodup hev hev' (hset (hmem ev hev) hev₂)

/-- **The events of the socket set.** -/
theorem Sound.pending_socketEvents (h : s.Sound) {events : List ((ℕ × ℕ) × Flags)}
    (hevents : Harvest s.socketSet events)
    (hlisten : ∀ ev ∈ events, ev.1.2 = 0 → ev.2.failed = false) :
    s.Pending (batchOf events) where
  nodup := by
    apply hevents.nodup
    intro fd fd' id hfd hfd'
    obtain ⟨e, he, rfl⟩ := h.mem_socketSet.mp hfd
    obtain ⟨e', he', rfl⟩ := h.mem_socketSet.mp hfd'
    rw [Option.some.inj (he.symm.trans he')]
  mem := by
    intro x hx
    obtain ⟨ev, hev, rfl⟩ := List.mem_map.mp hx
    obtain ⟨e, he, -⟩ := h.mem_socketSet.mp (hevents.2.2 ev hev)
    have hsome : (s.heap ev.1.2).isSome := by rw [he]; rfl
    rcases (h.heap_isSome _).mp hsome with hlive | ⟨hzero, hterm⟩
    · exact Or.inl hlive
    · exact Or.inr ⟨hzero, hterm, hlisten ev hev hzero⟩

/-- **The events of the timer set.** -/
theorem Sound.pending_timerEvents (h : s.Sound) {events : List ((ℕ × ℕ) × Flags)}
    (hevents : Harvest s.timerSet events) :
    s.Pending (batchOf events) ∧ ∀ x ∈ batchOf events, x.1 ∈ s.live := by
  have hlive : ∀ x ∈ batchOf events, x.1 ∈ s.live := by
    intro x hx
    obtain ⟨ev, hev, rfl⟩ := List.mem_map.mp hx
    obtain ⟨e, he, htimer, hzero⟩ := h.mem_timerSet.mp (hevents.2.2 ev hev)
    apply h.live_of_heap he
    intro hid
    -- the listening socket has no timer
    have he : s.heap 0 = some e := by rw [← hid]; exact he
    exact hzero (htimer.symm.trans (h.listener he).2)
  refine ⟨⟨?_, fun x hx => Or.inl (hlive x hx)⟩, hlive⟩
  apply hevents.nodup
  intro fd fd' id hfd hfd'
  obtain ⟨e, he, rfl, -⟩ := h.mem_timerSet.mp hfd
  obtain ⟨e', he', rfl, -⟩ := h.mem_timerSet.mp hfd'
  rw [Option.some.inj (he.symm.trans he')]

/-! ## Steps -/

variable {svc : Service κ υ ε μ}

theorem stageSound_sockets {batch : Batch} (h : t.Pending batch)
    (hstage : t.stage = .sockets batch) :
    t.StageSound := by
  unfold StageSound
  rw [hstage]
  exact h

theorem stageSound_reading {id : ℕ} {out : Bool} {batch : Batch} (h : t.Pending batch)
    (hid : id ∈ t.live) (hnot : id ∉ batch.map Prod.fst)
    (hstage : t.stage = .reading id out batch) :
    t.StageSound := by
  unfold StageSound
  rw [hstage]
  exact ⟨h, hid, hnot⟩

theorem stageSound_writing {id : ℕ} {batch : Batch} (h : t.Pending batch)
    (hid : id ∈ t.live) (hnot : id ∉ batch.map Prod.fst) (hstage : t.stage = .writing id batch) :
    t.StageSound := by
  unfold StageSound
  rw [hstage]
  exact ⟨h, hid, hnot⟩

theorem stageSound_timers {batch : Batch} (h : t.Pending batch)
    (hlive : ∀ x ∈ batch, x.1 ∈ t.live) (hstage : t.stage = .timers batch) : t.StageSound := by
  unfold StageSound
  rw [hstage]
  exact ⟨h, hlive⟩

/-- **After a handler** of a live context that is not in the rest of the batch: what is
left to be shown is that the worker may go on at `stage`, or at `rest`. -/
theorem Sound.settle (h : s.Sound) {id : ℕ} {e : Entry κ υ} (he : s.heap id = some e)
    (hid : id ∈ s.live) {batch : Batch} (hbatch : s.Pending batch)
    (hnot : id ∉ batch.map Prod.fst) {stage rest : Stage} (handled : Handled κ υ ε)
    (hstage : ∀ t : Reactor κ υ, t.Pending batch → (∀ i ∈ s.live, i ∈ t.live) →
      t.stage = stage → t.StageSound)
    (hrest : ∀ t : Reactor κ υ, t.Pending batch → (∀ i ∈ s.live, i ≠ id → i ∈ t.live) →
      t.stage = rest → t.StageSound) :
    (s.settle id e stage rest handled).Inv := by
  cases handled with
  | status io status =>
    have hset := h.setIo he io
    have hpending : (s.setIo id e io).Pending batch := hbatch.mono rfl fun _ _ hlive => hlive
    cases status with
    | «continue» =>
      refine ⟨hset.withStage _, hstage _ ?_ (fun _ hi => hi) rfl⟩
      exact hpending.mono rfl fun _ _ hlive => hlive
    | again =>
      refine ⟨hset.withStage _, hrest _ ?_ (fun _ hi _ => hi) rfl⟩
      exact hpending.mono rfl fun _ _ hlive => hlive
    | error =>
      have he' : (s.setIo id e io).heap id = some { e with io } := Function.update_self ..
      refine ⟨hset.cleanupContext he' hid rest, hrest _ (hpending.cleanupContext hnot _ _) ?_ rfl⟩
      exact fun i hi hne => mem_live_cleanupContext.mpr ⟨hi, hne⟩
  | abort => exact ⟨h.withStage _, trivial⟩
  | raise e => exact ⟨h.withStage _, trivial⟩

/-- `cleanup_context` of a live context that is not in the rest of the batch. -/
theorem Sound.inv_cleanupContext (h : s.Sound) {id : ℕ} {e : Entry κ υ} (he : s.heap id = some e)
    (hid : id ∈ s.live) {batch : Batch} (hbatch : s.Pending batch)
    (hnot : id ∉ batch.map Prod.fst) : (s.cleanupContext id e (.sockets batch)).Inv :=
  ⟨h.cleanupContext he hid _, stageSound_sockets (hbatch.cleanupContext hnot _ _) rfl⟩

theorem Sound.inv_leaveReadLoop (h : s.Sound) {id : ℕ} {out : Bool} {batch : Batch}
    (hid : id ∈ s.live) (hbatch : s.Pending batch) (hnot : id ∉ batch.map Prod.fst) :
    (s.leaveReadLoop id out batch).Inv := by
  have hpending : (s.leaveReadLoop id out batch).Pending batch :=
    hbatch.mono rfl fun _ _ hlive => hlive
  refine ⟨h.withStage _, ?_⟩
  cases out with
  | true => exact stageSound_writing hpending hid hnot rfl
  | false => exact stageSound_sockets hpending rfl

/-- **An event of the socket set** is handled. -/
theorem Sound.serveSocket (h : s.Sound) {id : ℕ} {f : Flags} {batch : Batch}
    (hbatch : s.Pending ((id, f) :: batch)) : (s.serveSocket id f batch).Inv := by
  have hnot : id ∉ batch.map Prod.fst := hbatch.head_notMem
  have hmem := hbatch.mem (id, f) List.mem_cons_self
  obtain ⟨e, he⟩ := Option.isSome_iff_exists.mp ((h.heap_isSome id).mpr
    (hmem.imp_right fun hzero => ⟨hzero.1, hzero.2.1⟩))
  unfold Reactor.serveSocket
  rw [he]
  dsimp only
  split_ifs with hfailed haccept hinp
  · rcases hmem with hlive | ⟨-, -, hquiet⟩
    · exact h.inv_cleanupContext he hlive hbatch.tail hnot
    · exact absurd hfailed (by rw [hquiet]; exact Bool.false_ne_true)
  · have hterm : s.terminated = false := by
      simpa using (Bool.and_eq_true_iff.mp haccept).1
    exact ⟨h.withStage _, hbatch.tail.mono rfl fun _ _ hlive => hlive, hterm⟩
  all_goals
    -- the listening socket has been told apart
    have hlive : id ∈ s.live := by
      rcases hmem with hlive | ⟨rfl, hterm, -⟩
      · exact hlive
      · have hfd : s.listenFd = e.fd := (h.listener he).1.symm
        have hquiet : s.terminated = false := hterm
        simp [hfd, hquiet] at haccept
  · refine ⟨h.withStage _, stageSound_reading ?_ hlive hnot rfl⟩
    exact hbatch.tail.mono rfl fun _ _ hlive => hlive
  · exact h.inv_leaveReadLoop hlive hbatch.tail hnot

/-- **An event of the timer set** is handled. -/
theorem Sound.serveTimer (h : s.Sound) {id : ℕ} {f : Flags} {batch : Batch}
    (hbatch : s.Pending ((id, f) :: batch)) (hlive : ∀ x ∈ (id, f) :: batch, x.1 ∈ s.live) :
    (s.serveTimer svc id f batch).Inv := by
  have hnot : id ∉ batch.map Prod.fst := hbatch.head_notMem
  have hid : id ∈ s.live := hlive (id, f) List.mem_cons_self
  obtain ⟨e, he⟩ := h.exists_entry hid
  -- the other contexts of the batch stay
  have hrest : ∀ t : Reactor κ υ, t.Pending batch → (∀ i ∈ s.live, i ≠ id → i ∈ t.live) →
      t.stage = .timers batch → t.StageSound := by
    intro t ht hstay hstage
    apply stageSound_timers ht _ hstage
    intro x hx
    apply hstay x.1 (hlive x (List.mem_cons_of_mem _ hx))
    rintro rfl
    exact hnot (List.mem_map_of_mem hx)
  unfold Reactor.serveTimer
  rw [he]
  dsimp only
  split_ifs
  · refine ⟨h.cleanupContext he hid _, hrest _ (hbatch.tail.cleanupContext hnot _ _) ?_ rfl⟩
    exact fun i hi hne => mem_live_cleanupContext.mpr ⟨hi, hne⟩
  · exact h.settle he hid hbatch.tail hnot _
      (fun t ht hstay => hrest t ht fun i hi _ => hstay i hi) hrest
  · exact ⟨h.withStage _, trivial⟩

/-- The branches on an event that has been delivered. -/
theorem Sound.branchOn (h : s.Sound) {e : MasterEvent}
    (hterm : e = .signal → s.terminated = false) : (s.branchOn (some e)).Inv := by
  cases e with
  | sockets => exact ⟨{ h with }, trivial⟩
  | timers => exact ⟨{ h with }, trivial⟩
  | signal =>
    have hsound : Sound { s with handled := s.handled ++ [.signal] } := { h with }
    obtain ⟨l, hl⟩ := h.exists_listener (hterm rfl)
    refine ⟨hsound.terminate (hterm rfl), ?_⟩
    unfold StageSound
    rw [show (s.branchOn (some .signal)).stage = .test by
      show (if (s.heap 0).isSome then Stage.test else .undefined) = .test
      rw [hl]
      rfl]
    trivial

/-- **Every step** of a smooth run keeps the invariant. -/
theorem Inv.of_steps (hsvc : svc.Admits) (h : s.Inv) {l : Label μ} (hsmooth : s.Smooth l)
    (hs : s.Steps svc l t) : t.Inv := by
  obtain ⟨hsound, hstage⟩ := h
  unfold StageSound at hstage
  cases hs with
  | loop =>
    refine ⟨hsound.withStage _, ?_⟩
    unfold StageSound
    dsimp only
    split_ifs with hloop
    · trivial
    · obtain ⟨hterm, hclients⟩ : s.terminated = true ∧ s.currentClients = 0 := by
        simpa using hloop
      have hlength := hsound.clients_eq
      refine ⟨hterm, List.length_eq_zero_iff.mp ?_⟩
      show s.live.length = 0
      omega
  | socketsDone => exact ⟨hsound.withStage _, trivial⟩
  | timersDone => exact ⟨hsound.withStage _, trivial⟩
  | socket h =>
    rw [h] at hstage
    exact hsound.serveSocket hstage
  | timer h =>
    rw [h] at hstage
    exact hsound.serveTimer hstage.1 hstage.2
  | readLost h hnone =>
    rw [h] at hstage
    obtain ⟨e, he⟩ := hsound.exists_entry hstage.2.1
    rw [hnone] at he
    cases he
  | writeLost h hnone =>
    rw [h] at hstage
    obtain ⟨e, he⟩ := hsound.exists_entry hstage.2.1
    rw [hnone] at he
    cases he
  | readDone l h =>
    rw [h] at hstage
    exact hsound.inv_leaveReadLoop hstage.2.1 hstage.1 hstage.2.2
  | writeDone h =>
    rw [h] at hstage
    refine ⟨hsound.withStage _, stageSound_sockets ?_ rfl⟩
    exact hstage.1.mono rfl fun _ _ hlive => hlive
  | @deliver e h =>
    refine ⟨{ hsound with }, rfl, ?_⟩
    intro he
    obtain rfl := Option.some.inj he
    exact hsmooth
  | interrupt => exact hsmooth.elim
  | branch h he =>
    rw [h] at hstage
    exact hsound.branchOn fun hsignal => hstage.2 (by rw [he, hsignal])
  | branchUninit h hnone =>
    rw [h, hnone] at hstage
    cases hstage.1
  | socketEvents h hevents =>
    refine ⟨hsound.withStage _, stageSound_sockets ?_ rfl⟩
    exact (hsound.pending_socketEvents hevents hsmooth).mono rfl fun _ _ hlive => hlive
  | timerEvents h hevents =>
    obtain ⟨hpending, hlive⟩ := hsound.pending_timerEvents hevents
    refine ⟨hsound.withStage _, stageSound_timers ?_ hlive rfl⟩
    exact hpending.mono rfl fun _ _ hlive => hlive
  | epollError => exact ⟨hsound.withStage _, trivial⟩
  | accept h hinfd htimer hlt =>
    rw [h] at hstage
    refine ⟨hsound.acceptContext hsvc hinfd htimer hlt, ?_⟩
    unfold StageSound
    rw [acceptContext_stage hsvc, h, acceptContext_terminated hsvc]
    exact ⟨hstage.1.acceptContext hsvc, hstage.2⟩
  | acceptError h =>
    rw [h] at hstage
    refine ⟨hsound.withStage _, stageSound_sockets ?_ rfl⟩
    exact hstage.1.mono rfl fun _ _ hlive => hlive
  | acceptExit => exact ⟨hsound.withStage _, trivial⟩
  | read h he =>
    rw [h] at hstage
    obtain ⟨hpending, hid, hnot⟩ := hstage
    exact hsound.settle he hid hpending hnot _
      (fun t ht hstay => stageSound_reading ht (hstay _ hid) hnot)
      fun t ht _ => stageSound_sockets ht
  | readClose h he =>
    rw [h] at hstage
    exact hsound.inv_cleanupContext he hstage.2.1 hstage.1 hstage.2.2
  | write h he =>
    rw [h] at hstage
    obtain ⟨hpending, hid, hnot⟩ := hstage
    exact hsound.settle he hid hpending hnot _
      (fun t ht hstay => stageSound_writing ht (hstay _ hid) hnot)
      fun t ht _ => stageSound_sockets ht

theorem inv_create (listenFd : ℕ) (ctx : Ctx κ υ) : (create listenFd ctx).Inv :=
  ⟨sound_create listenFd ctx, trivial⟩

/-! ## What the invariant says -/

/-- The contexts that are being served, or will be in the rest of the batch. -/
def targets (s : Reactor κ υ) : List ℕ :=
  match s.stage with
  | .sockets batch => batch.map Prod.fst
  | .accepting batch => batch.map Prod.fst
  | .reading id _ batch => id :: batch.map Prod.fst
  | .writing id batch => id :: batch.map Prod.fst
  | .timers batch => batch.map Prod.fst
  | _ => []

/-- The lifecycle of the contexts. -/
structure Lifecycle (s : Reactor κ υ) : Prop where
  /-- `current_clients` counts the contexts that have been added to the socket set and not
  been passed to `cleanup_context`. -/
  clients : s.currentClients = s.live.length
  /-- No context is passed to it twice. -/
  cleaned_nodup : s.cleaned.Nodup
  cleaned_subset : s.cleaned ⊆ s.added
  /-- The close callback is called exactly then. -/
  closeCalls : s.closeCalls = s.cleaned
  /-- What is being served has not been freed, nor has the rest of the batch. -/
  targets : ∀ id ∈ s.targets, s.heap id ≠ none ∧ id ∉ s.cleaned
  defined : s.stage ≠ .undefined
  /-- `accept` is not called after the termination. -/
  terminated : s.terminated = true → ∀ batch, s.stage ≠ .accepting batch
  /-- The loop ends after the termination, with no context left. -/
  left : s.stage = .left → s.terminated = true ∧ s.live = []

theorem Sound.notMem_cleaned (h : s.Sound) {id : ℕ} (hid : id ∈ s.live ∨ id = 0) :
    id ∉ s.cleaned := by
  rcases hid with hlive | rfl
  · exact of_decide_eq_true (List.mem_filter.mp hlive).2
  · intro hmem
    exact (h.fresh 0 (h.cleaned_subset hmem)).1.ne rfl

theorem Sound.mem_pending (h : s.Sound) {batch : Batch} (hbatch : s.Pending batch) {id : ℕ}
    (hid : id ∈ batch.map Prod.fst) : s.heap id ≠ none ∧ id ∉ s.cleaned := by
  obtain ⟨x, hx, rfl⟩ := List.mem_map.mp hid
  have hmem := hbatch.mem x hx
  constructor
  · apply Option.isSome_iff_ne_none.mp
    exact (h.heap_isSome x.1).mpr (hmem.imp_right fun hzero => ⟨hzero.1, hzero.2.1⟩)
  · exact h.notMem_cleaned (hmem.imp_right And.left)

theorem Sound.mem_served (h : s.Sound) {batch : Batch} {served id : ℕ} (hbatch : s.Pending batch)
    (hlive : served ∈ s.live) (hid : id ∈ served :: batch.map Prod.fst) :
    s.heap id ≠ none ∧ id ∉ s.cleaned := by
  rcases List.mem_cons.mp hid with rfl | hid
  · obtain ⟨e, he⟩ := h.exists_entry hlive
    exact ⟨by rw [he]; exact Option.some_ne_none e, h.notMem_cleaned (Or.inl hlive)⟩
  · exact h.mem_pending hbatch hid

theorem Inv.lifecycle (h : s.Inv) : s.Lifecycle := by
  obtain ⟨hsound, hstage⟩ := h
  unfold StageSound at hstage
  refine ⟨hsound.clients_eq, hsound.cleaned_nodup, hsound.cleaned_subset, hsound.closeCalls_eq,
    ?_, ?_, ?_, ?_⟩
  · intro id hid
    unfold Reactor.targets at hid
    split at hid
    case h_1 heq =>
      rw [heq] at hstage
      exact hsound.mem_pending hstage hid
    case h_2 heq =>
      rw [heq] at hstage
      exact hsound.mem_pending hstage.1 hid
    case h_3 heq =>
      rw [heq] at hstage
      exact hsound.mem_served hstage.1 hstage.2.1 hid
    case h_4 heq =>
      rw [heq] at hstage
      exact hsound.mem_served hstage.1 hstage.2.1 hid
    case h_5 heq =>
      rw [heq] at hstage
      exact hsound.mem_pending hstage.1 hid
    case h_6 => cases hid
  · intro heq
    rw [heq] at hstage
    exact hstage
  · intro hterm batch heq
    rw [heq] at hstage
    rw [hstage.2] at hterm
    cases hterm
  · intro heq
    rw [heq] at hstage
    exact hstage

/-- **Every smooth run** keeps the invariant. -/
theorem Inv.of_run (hsvc : svc.Admits) (h : s.Inv) (hrun : Run (step svc) Smooth s t) : t.Inv :=
  hrun.invariant h fun _ _ _ hinv hsmooth hs => hinv.of_steps hsvc hsmooth (steps_of_step hs)

/-! ## After the termination -/

theorem settle_added (s : Reactor κ υ) (id : ℕ) (e : Entry κ υ) (stage rest : Stage)
    (handled : Handled κ υ ε) : (s.settle id e stage rest handled).added = s.added := by
  rcases handled with ⟨io, _ | _ | _⟩ | _ | _
  · rfl
  · rfl
  · exact cleanupContext_added ..
  · rfl
  · rfl

theorem serveSocket_added (s : Reactor κ υ) (id : ℕ) (f : Flags) (batch : Batch) :
    (s.serveSocket id f batch).added = s.added := by
  unfold serveSocket
  split
  · rfl
  · split_ifs
    · exact cleanupContext_added ..
    all_goals rfl

theorem serveTimer_added (s : Reactor κ υ) (id : ℕ) (f : Flags) (batch : Batch) :
    (s.serveTimer svc id f batch).added = s.added := by
  unfold serveTimer
  split
  · rfl
  · split_ifs
    · exact cleanupContext_added ..
    · exact settle_added ..
    · rfl

theorem branchOn_added (s : Reactor κ υ) (e : Option MasterEvent) :
    (s.branchOn e).added = s.added := by
  rcases e with _ | _ | _ | _ <;> rfl

/-- Only `accept_loop` adds a context. -/
theorem Steps.added_eq {l : Label μ} (h : s.Steps svc l t)
    (haccept : ∀ batch, s.stage ≠ .accepting batch) : t.added = s.added := by
  cases h with
  | socket => exact serveSocket_added ..
  | timer => exact serveTimer_added ..
  | branch => exact branchOn_added ..
  | branchUninit => exact branchOn_added ..
  | accept h => exact absurd h (haccept _)
  | read => exact settle_added ..
  | readClose => exact cleanupContext_added ..
  | write => exact settle_added ..
  | _ => rfl

/-- The termination is not taken back. -/
theorem Steps.terminated {l : Label μ} (h : s.Steps svc l t) (hterm : s.terminated = true) :
    t.terminated = true := by
  by_cases hl : l.isMaster = false
  · rw [(h.frame hl).2.terminated, hterm]
  · cases h with
    | deliver => exact hterm
    | interrupt => exact hterm
    | @branch e => cases e <;> first | exact hterm | rfl
    | @branchUninit garbage => rcases garbage with _ | _ | _ | _ <;> first | exact hterm | rfl
    | readDone l h hor => exact (hor.elim (fun h => hl (h ▸ rfl)) fun h => hl (h ▸ rfl)).elim
    | _ => exact absurd rfl hl

theorem terminated_of_run {ok : Reactor κ υ → Label μ → Prop} (hterm : s.terminated = true)
    (hrun : Run (step svc) ok s t) : t.terminated = true := by
  induction hrun with
  | refl => exact hterm
  | tail _ _ hs ih => exact (steps_of_step hs).terminated ih

/-- **After the termination** no context is added. -/
theorem Inv.added_eq (hsvc : svc.Admits) (h : s.Inv) (hterm : s.terminated = true)
    (hrun : Run (step svc) Smooth s t) : t.added = s.added := by
  induction hrun with
  | refl => rfl
  | tail hrun hsmooth hs ih =>
    have hinv := h.of_run hsvc hrun
    have hu := terminated_of_run hterm hrun
    rw [(steps_of_step hs).added_eq (hinv.lifecycle.terminated hu), ih]

end Yotta.Core.Reactor
