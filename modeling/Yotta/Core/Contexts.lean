import Yotta.Core.Reactor
import Mathlib.Data.List.Nodup

/-!
# The contexts of a reactor

What holds of the heap and of the two epoll sets: the socket set holds exactly the
descriptors of the contexts that are allocated, the timer set exactly their timers,
no descriptor belongs to two contexts, and `current_clients` counts them.

Results:
* `Sound.cleanupContext`, `Sound.acceptContext`, `Sound.terminate`, `Sound.setIo`: the changes
  to the heap keep what is said of it.
* `sound_create`: it holds of a new reactor.
-/

namespace Yotta.Core

variable {κ υ ε μ : Type}

/-! ## Descriptors -/

/-- The descriptors of a context. -/
def Entry.fds (e : Entry κ υ) : List ℕ := if e.timerFd = 0 then [e.fd] else [e.fd, e.timerFd]

theorem Entry.mem_fds {e : Entry κ υ} {fd : ℕ} :
    fd ∈ e.fds ↔ fd = e.fd ∨ fd = e.timerFd ∧ e.timerFd ≠ 0 := by
  unfold Entry.fds
  split_ifs with h <;> simp [h]

theorem Entry.fd_mem_fds (e : Entry κ υ) : e.fd ∈ e.fds := Entry.mem_fds.mpr (Or.inl rfl)

theorem Entry.timerFd_mem_fds {e : Entry κ υ} (h : e.timerFd ≠ 0) : e.timerFd ∈ e.fds :=
  Entry.mem_fds.mpr (Or.inr ⟨rfl, h⟩)

/-- `accept_callback` takes the connection and sets a close callback. -/
def Service.Admits (svc : Service κ υ ε μ) : Prop :=
  ∀ mem, (svc.accept mem).status = .ok ∧ (svc.accept mem).setsClose = true

namespace Reactor

/-! ## Invariants -/

/-- The contexts that have been added to the socket set and not been cleaned up. -/
def live (s : Reactor κ υ) : List ℕ := s.added.filter (· ∉ s.cleaned)

/-- What holds of the contexts and of the epoll sets. -/
structure Sound (s : Reactor κ υ) : Prop where
  nextId_pos : 0 < s.nextId
  fresh : ∀ id ∈ s.added, 0 < id ∧ id < s.nextId
  added_nodup : s.added.Nodup
  cleaned_nodup : s.cleaned.Nodup
  cleaned_subset : s.cleaned ⊆ s.added
  closeCalls_eq : s.closeCalls = s.cleaned
  clients_eq : s.currentClients = s.live.length
  heap_isSome : ∀ id, (s.heap id).isSome ↔ id ∈ s.live ∨ id = 0 ∧ s.terminated = false
  closes : ∀ {id e}, s.heap id = some e → id ≠ 0 → e.closeCallback = true
  listener : ∀ {e}, s.heap 0 = some e → e.fd = s.listenFd ∧ e.timerFd = 0
  opened : ∀ {id e fd}, s.heap id = some e → fd ∈ e.fds → fd ∈ s.openFds
  apart : ∀ {id id' e e' fd}, s.heap id = some e → s.heap id' = some e' →
    fd ∈ e.fds → fd ∈ e'.fds → id = id'
  mem_socketSet : ∀ {fd id}, (fd, id) ∈ s.socketSet ↔ ∃ e, s.heap id = some e ∧ e.fd = fd
  mem_timerSet : ∀ {fd id},
    (fd, id) ∈ s.timerSet ↔ ∃ e, s.heap id = some e ∧ e.timerFd = fd ∧ fd ≠ 0

variable {s t : Reactor κ υ}

/-- Where the worker is does not matter to its contexts. -/
theorem Sound.withStage (h : s.Sound) (stage : Stage) : Sound { s with stage } := { h with }

namespace Sound

theorem live_nodup (h : s.Sound) : s.live.Nodup := h.added_nodup.filter _

theorem pos_of_live (h : s.Sound) {id : ℕ} (hid : id ∈ s.live) : id ≠ 0 :=
  (h.fresh id (List.mem_filter.mp hid).1).1.ne'

theorem exists_entry (h : s.Sound) {id : ℕ} (hid : id ∈ s.live) : ∃ e, s.heap id = some e :=
  Option.isSome_iff_exists.mp ((h.heap_isSome id).mpr (Or.inl hid))

theorem exists_listener (h : s.Sound) (hterm : s.terminated = false) : ∃ e, s.heap 0 = some e :=
  Option.isSome_iff_exists.mp ((h.heap_isSome 0).mpr (Or.inr ⟨rfl, hterm⟩))

theorem live_of_heap (h : s.Sound) {id : ℕ} {e : Entry κ υ} (he : s.heap id = some e)
    (hid : id ≠ 0) : id ∈ s.live := by
  have hsome : (s.heap id).isSome := by rw [he]; rfl
  rcases (h.heap_isSome id).mp hsome with hlive | ⟨hzero, -⟩
  · exact hlive
  · exact absurd hzero hid

end Sound

/-! ## Clean-up -/

section Cleanup

variable (s : Reactor κ υ) (id : ℕ) (e : Entry κ υ) (stage : Stage)

@[simp] theorem cleanupContext_heap :
    (s.cleanupContext id e stage).heap = Function.update s.heap id none := by
  unfold cleanupContext callClose
  split_ifs <;> rfl

@[simp] theorem cleanupContext_nextId : (s.cleanupContext id e stage).nextId = s.nextId := by
  unfold cleanupContext callClose
  split_ifs <;> rfl

@[simp] theorem cleanupContext_listenFd :
    (s.cleanupContext id e stage).listenFd = s.listenFd := by
  unfold cleanupContext callClose
  split_ifs <;> rfl

@[simp] theorem cleanupContext_terminated :
    (s.cleanupContext id e stage).terminated = s.terminated := by
  unfold cleanupContext callClose
  split_ifs <;> rfl

@[simp] theorem cleanupContext_currentClients :
    (s.cleanupContext id e stage).currentClients = s.currentClients - 1 := by
  unfold cleanupContext callClose
  split_ifs <;> rfl

@[simp] theorem cleanupContext_added : (s.cleanupContext id e stage).added = s.added := by
  unfold cleanupContext callClose
  split_ifs <;> rfl

@[simp] theorem cleanupContext_cleaned :
    (s.cleanupContext id e stage).cleaned = s.cleaned ++ [id] := by
  unfold cleanupContext callClose
  split_ifs <;> rfl

variable {s id e stage}

theorem cleanupContext_closeCalls (h : e.closeCallback = true) :
    (s.cleanupContext id e stage).closeCalls = s.closeCalls ++ [id] := by
  unfold cleanupContext callClose
  simp only [if_pos h]
  split_ifs <;> rfl

theorem cleanupContext_heap_eq_some {i : ℕ} {e' : Entry κ υ} :
    (s.cleanupContext id e stage).heap i = some e' ↔ s.heap i = some e' ∧ i ≠ id := by
  rw [cleanupContext_heap]
  by_cases hi : i = id
  · subst hi
    simp
  · simp [hi]

theorem mem_cleanupContext_openFds {fd : ℕ} :
    fd ∈ (s.cleanupContext id e stage).openFds ↔ fd ∈ s.openFds ∧ fd ∉ e.fds := by
  unfold cleanupContext callClose Entry.fds
  by_cases ht : e.timerFd = 0 <;> by_cases hc : e.closeCallback <;>
    simp [ht, hc, closeFd, free, and_assoc, and_comm]

theorem mem_cleanupContext_socketSet {fd i : ℕ} :
    (fd, i) ∈ (s.cleanupContext id e stage).socketSet ↔ (fd, i) ∈ s.socketSet ∧ fd ∉ e.fds := by
  unfold cleanupContext callClose Entry.fds
  by_cases ht : e.timerFd = 0 <;> by_cases hc : e.closeCallback <;>
    simp [ht, hc, closeFd, free, and_assoc, and_comm]

theorem mem_cleanupContext_timerSet {fd i : ℕ} :
    (fd, i) ∈ (s.cleanupContext id e stage).timerSet ↔ (fd, i) ∈ s.timerSet ∧ fd ∉ e.fds := by
  unfold cleanupContext callClose Entry.fds
  by_cases ht : e.timerFd = 0 <;> by_cases hc : e.closeCallback <;>
    simp [ht, hc, closeFd, free, and_assoc, and_comm]

end Cleanup

theorem live_cleanupContext {id : ℕ} {e : Entry κ υ} {stage : Stage} :
    (s.cleanupContext id e stage).live = s.live.filter (· ≠ id) := by
  unfold live
  rw [List.filter_filter, cleanupContext_added, cleanupContext_cleaned]
  apply List.filter_congr
  intro i _
  simp [and_comm]

theorem mem_live_cleanupContext {id i : ℕ} {e : Entry κ υ} {stage : Stage} :
    i ∈ (s.cleanupContext id e stage).live ↔ i ∈ s.live ∧ i ≠ id := by
  rw [live_cleanupContext, List.mem_filter, decide_eq_true_iff]

/-- One context less is live. -/
theorem Sound.length_live_cleanupContext (h : s.Sound) {id : ℕ} (hid : id ∈ s.live)
    {e : Entry κ υ} {stage : Stage} :
    ((s.cleanupContext id e stage).live.length : ℤ) = s.live.length - 1 := by
  have herase : s.live.filter (· ≠ id) = s.live.erase id := by
    rw [h.live_nodup.erase_eq_filter]
    apply List.filter_congr
    intro i _
    rw [Bool.eq_iff_iff]
    simp
  have hpos := List.length_pos_of_mem hid
  rw [live_cleanupContext, herase, List.length_erase_of_mem hid]
  omega

/-- **Clean-up.** The context leaves the heap and both epoll sets. -/
theorem Sound.cleanupContext (h : s.Sound) {id : ℕ} {e : Entry κ υ} (he : s.heap id = some e)
    (hid : id ∈ s.live) (stage : Stage) : (s.cleanupContext id e stage).Sound where
  nextId_pos := by
    rw [cleanupContext_nextId]
    exact h.nextId_pos
  fresh := by
    rw [cleanupContext_added, cleanupContext_nextId]
    exact h.fresh
  added_nodup := by
    rw [cleanupContext_added]
    exact h.added_nodup
  cleaned_nodup := by
    rw [cleanupContext_cleaned, List.nodup_append_comm]
    exact List.nodup_cons.mpr ⟨by simpa using (List.mem_filter.mp hid).2, h.cleaned_nodup⟩
  cleaned_subset := by
    rw [cleanupContext_cleaned, cleanupContext_added]
    apply List.append_subset.mpr
    exact ⟨h.cleaned_subset, by simpa using (List.mem_filter.mp hid).1⟩
  closeCalls_eq := by
    rw [cleanupContext_closeCalls (h.closes he (h.pos_of_live hid)), cleanupContext_cleaned,
      h.closeCalls_eq]
  clients_eq := by
    rw [cleanupContext_currentClients, h.length_live_cleanupContext hid, h.clients_eq]
  heap_isSome i := by
    rw [cleanupContext_heap, mem_live_cleanupContext, cleanupContext_terminated]
    by_cases hi : i = id
    · subst hi
      simp [h.pos_of_live hid]
    · rw [Function.update_of_ne hi, h.heap_isSome]
      simp [hi]
  closes he' := h.closes (cleanupContext_heap_eq_some.mp he').1
  listener he' := by
    rw [cleanupContext_listenFd]
    exact h.listener (cleanupContext_heap_eq_some.mp he').1
  opened := by
    intro i e' fd he' hfd
    obtain ⟨he', hi⟩ := cleanupContext_heap_eq_some.mp he'
    apply mem_cleanupContext_openFds.mpr
    exact ⟨h.opened he' hfd, fun hmem => hi (h.apart he' he hfd hmem)⟩
  apart h₁ h₂ :=
    h.apart (cleanupContext_heap_eq_some.mp h₁).1 (cleanupContext_heap_eq_some.mp h₂).1
  mem_socketSet := by
    intro fd i
    rw [mem_cleanupContext_socketSet, h.mem_socketSet]
    constructor
    · rintro ⟨⟨e', he', rfl⟩, hfd⟩
      refine ⟨e', cleanupContext_heap_eq_some.mpr ⟨he', ?_⟩, rfl⟩
      rintro rfl
      obtain rfl := Option.some.inj (he.symm.trans he')
      exact hfd e.fd_mem_fds
    · rintro ⟨e', he', rfl⟩
      obtain ⟨he', hi⟩ := cleanupContext_heap_eq_some.mp he'
      exact ⟨⟨e', he', rfl⟩, fun hmem => hi (h.apart he' he e'.fd_mem_fds hmem)⟩
  mem_timerSet := by
    intro fd i
    rw [mem_cleanupContext_timerSet, h.mem_timerSet]
    constructor
    · rintro ⟨⟨e', he', rfl, hzero⟩, hfd⟩
      refine ⟨e', cleanupContext_heap_eq_some.mpr ⟨he', ?_⟩, rfl, hzero⟩
      rintro rfl
      obtain rfl := Option.some.inj (he.symm.trans he')
      exact hfd (e.timerFd_mem_fds hzero)
    · rintro ⟨e', he', rfl, hzero⟩
      obtain ⟨he', hi⟩ := cleanupContext_heap_eq_some.mp he'
      exact ⟨⟨e', he', rfl, hzero⟩,
        fun hmem => hi (h.apart he' he (e'.timerFd_mem_fds hzero) hmem)⟩

/-! ## A callback has returned -/

section Callback

variable {id : ℕ} {e : Entry κ υ} {io : Ctx κ υ}

/-- Each context is as it was, but for the members that callbacks write to. -/
theorem setIo_heap_eq_some (he : s.heap id = some e) {i : ℕ} {e' : Entry κ υ}
    (he' : (s.setIo id e io).heap i = some e') :
    ∃ e₀ io', s.heap i = some e₀ ∧ e' = { e₀ with io := io' } := by
  unfold setIo at he'
  dsimp only at he'
  by_cases hi : i = id
  · subst hi
    rw [Function.update_self] at he'
    exact ⟨e, io, he, (Option.some.inj he').symm⟩
  · rw [Function.update_of_ne hi] at he'
    exact ⟨e', e'.io, he', rfl⟩

theorem exists_setIo_heap (he : s.heap id = some e) {i : ℕ} {e₀ : Entry κ υ}
    (he₀ : s.heap i = some e₀) :
    ∃ io', (s.setIo id e io).heap i = some { e₀ with io := io' } := by
  unfold setIo
  dsimp only
  by_cases hi : i = id
  · subst hi
    obtain rfl := Option.some.inj (he.symm.trans he₀)
    exact ⟨io, Function.update_self ..⟩
  · exact ⟨e₀.io, by rw [Function.update_of_ne hi]; exact he₀⟩

theorem setIo_heap_isSome (he : s.heap id = some e) (i : ℕ) :
    ((s.setIo id e io).heap i).isSome ↔ (s.heap i).isSome := by
  rw [Option.isSome_iff_exists, Option.isSome_iff_exists]
  constructor
  · rintro ⟨e', he'⟩
    obtain ⟨e₀, -, he₀, -⟩ := setIo_heap_eq_some he he'
    exact ⟨e₀, he₀⟩
  · rintro ⟨e₀, he₀⟩
    obtain ⟨io', he'⟩ := exists_setIo_heap he he₀
    exact ⟨_, he'⟩

/-- **A callback has returned.** What it writes to is not spoken of. -/
theorem Sound.setIo (h : s.Sound) (he : s.heap id = some e) (io : Ctx κ υ) :
    (s.setIo id e io).Sound where
  nextId_pos := h.nextId_pos
  fresh := h.fresh
  added_nodup := h.added_nodup
  cleaned_nodup := h.cleaned_nodup
  cleaned_subset := h.cleaned_subset
  closeCalls_eq := h.closeCalls_eq
  clients_eq := h.clients_eq
  heap_isSome i := (setIo_heap_isSome he i).trans (h.heap_isSome i)
  closes he' hi := by
    obtain ⟨e₀, io', he₀, rfl⟩ := setIo_heap_eq_some he he'
    have hclose := h.closes he₀ hi
    exact hclose
  listener he' := by
    obtain ⟨e₀, io', he₀, rfl⟩ := setIo_heap_eq_some he he'
    have hlistener := h.listener he₀
    exact hlistener
  opened he' hmem := by
    obtain ⟨e₀, io', he₀, rfl⟩ := setIo_heap_eq_some he he'
    exact h.opened he₀ hmem
  apart h₁ h₂ hmem₁ hmem₂ := by
    obtain ⟨e₁, io₁, he₁, rfl⟩ := setIo_heap_eq_some he h₁
    obtain ⟨e₂, io₂, he₂, rfl⟩ := setIo_heap_eq_some he h₂
    exact h.apart he₁ he₂ hmem₁ hmem₂
  mem_socketSet := by
    intro fd i
    show (fd, i) ∈ s.socketSet ↔ _
    rw [h.mem_socketSet]
    constructor
    · rintro ⟨e₀, he₀, rfl⟩
      obtain ⟨io', he'⟩ := exists_setIo_heap he he₀
      exact ⟨_, he', rfl⟩
    · rintro ⟨e', he', rfl⟩
      obtain ⟨e₀, io', he₀, rfl⟩ := setIo_heap_eq_some he he'
      exact ⟨e₀, he₀, rfl⟩
  mem_timerSet := by
    intro fd i
    show (fd, i) ∈ s.timerSet ↔ _
    rw [h.mem_timerSet]
    constructor
    · rintro ⟨e₀, he₀, rfl, hzero⟩
      obtain ⟨io', he'⟩ := exists_setIo_heap he he₀
      exact ⟨_, he', rfl, hzero⟩
    · rintro ⟨e', he', rfl, hzero⟩
      obtain ⟨e₀, io', he₀, rfl⟩ := setIo_heap_eq_some he he'
      exact ⟨e₀, he₀, rfl, hzero⟩

end Callback

/-! ## A new connection -/

section Admit

variable {svc : Service κ υ ε μ} {mem : μ} {infd timerFd : ℕ}

/-- What `accept_loop` does where the connection is taken. -/
theorem acceptContext_eq (hstatus : (svc.accept mem).status = .ok) :
    s.acceptContext svc mem infd timerFd =
      { s with
        nextId := s.nextId + 1
        heap := Function.update s.heap s.nextId (some ((svc.accept mem).entry infd timerFd))
        openFds :=
          if (svc.accept mem).armsTimer then timerFd :: infd :: s.openFds else infd :: s.openFds
        timerSet :=
          if (svc.accept mem).armsTimer then (timerFd, s.nextId) :: s.timerSet else s.timerSet
        socketSet := (infd, s.nextId) :: s.socketSet
        currentClients := s.currentClients + 1
        added := s.added ++ [s.nextId] } := by
  unfold Reactor.acceptContext
  dsimp only
  rw [hstatus]
  split_ifs <;> rfl

theorem acceptContext_stage (hsvc : svc.Admits) :
    (s.acceptContext svc mem infd timerFd).stage = s.stage := by
  rw [acceptContext_eq (hsvc mem).1]

theorem acceptContext_terminated (hsvc : svc.Admits) :
    (s.acceptContext svc mem infd timerFd).terminated = s.terminated := by
  rw [acceptContext_eq (hsvc mem).1]

theorem Admission.armsTimer_of_timerFd {a : Admission κ υ}
    (h : (a.entry infd timerFd).timerFd ≠ 0) :
    a.armsTimer = true ∧ (a.entry infd timerFd).timerFd = timerFd := by
  unfold Admission.entry at h ⊢
  dsimp only at h ⊢
  split_ifs at h ⊢ with harms
  · exact ⟨harms, rfl⟩
  · exact absurd rfl h

theorem Admission.mem_fds_entry {a : Admission κ υ} {fd : ℕ} :
    fd ∈ (a.entry infd timerFd).fds → fd = infd ∨ fd = timerFd ∧ a.armsTimer = true := by
  intro hmem
  rcases Entry.mem_fds.mp hmem with hfd | ⟨hfd, hzero⟩
  · exact Or.inl hfd
  · obtain ⟨harms, heq⟩ := armsTimer_of_timerFd hzero
    exact Or.inr ⟨hfd.trans heq, harms⟩

/-- No context has the next number. -/
theorem Sound.heap_nextId (h : s.Sound) : s.heap s.nextId = none := by
  by_contra hsome
  obtain ⟨e, he⟩ := Option.ne_none_iff_exists'.mp hsome
  have hlive := h.live_of_heap he h.nextId_pos.ne'
  have hlt := (h.fresh _ (List.mem_filter.mp hlive).1).2
  omega

theorem Sound.nextId_notMem_cleaned (h : s.Sound) : s.nextId ∉ s.cleaned := fun hmem =>
  (h.fresh _ (h.cleaned_subset hmem)).2.ne rfl

/-- The new context is added to those that were there. -/
theorem Sound.acceptContext_heap_eq_some (h : s.Sound) (hstatus : (svc.accept mem).status = .ok)
    {i : ℕ} {e : Entry κ υ} :
    (s.acceptContext svc mem infd timerFd).heap i = some e ↔
      s.heap i = some e ∨ i = s.nextId ∧ e = (svc.accept mem).entry infd timerFd := by
  rw [acceptContext_eq hstatus]
  dsimp only
  by_cases hi : i = s.nextId
  · subst hi
    rw [Function.update_self, h.heap_nextId]
    simp [eq_comm]
  · simp [hi]

theorem Sound.live_acceptContext (h : s.Sound) (hstatus : (svc.accept mem).status = .ok) :
    (s.acceptContext svc mem infd timerFd).live = s.live ++ [s.nextId] := by
  rw [acceptContext_eq hstatus, live, List.filter_append]
  simp [live, h.nextId_notMem_cleaned]

theorem mem_acceptContext_openFds (hstatus : (svc.accept mem).status = .ok) {fd : ℕ} :
    fd ∈ (s.acceptContext svc mem infd timerFd).openFds ↔
      (svc.accept mem).armsTimer = true ∧ fd = timerFd ∨ fd = infd ∨ fd ∈ s.openFds := by
  rw [acceptContext_eq hstatus]
  dsimp only
  split_ifs with harms <;> simp [harms]

theorem mem_acceptContext_timerSet (hstatus : (svc.accept mem).status = .ok) {fd i : ℕ} :
    (fd, i) ∈ (s.acceptContext svc mem infd timerFd).timerSet ↔
      (svc.accept mem).armsTimer = true ∧ fd = timerFd ∧ i = s.nextId ∨ (fd, i) ∈ s.timerSet := by
  rw [acceptContext_eq hstatus]
  dsimp only
  split_ifs with harms <;> simp [harms]

/-- The descriptors of the new context are not those of another one. -/
theorem Sound.entry_fds_fresh (h : s.Sound) {a : Admission κ υ} (hinfd : infd ∉ s.openFds)
    (htimer : timerFd ∉ s.openFds) {fd i : ℕ} {e : Entry κ υ} (he : s.heap i = some e)
    (hmem : fd ∈ e.fds) : fd ∉ (a.entry infd timerFd).fds := by
  intro hnew
  have hopen := h.opened he hmem
  rcases Admission.mem_fds_entry hnew with rfl | ⟨rfl, -⟩
  · exact hinfd hopen
  · exact htimer hopen

/-- **A new connection** enters the heap and both epoll sets. -/
theorem Sound.acceptContext (h : s.Sound) (hsvc : svc.Admits) (hinfd : infd ∉ s.openFds)
    (htimer : timerFd ∉ s.openFds) (hlt : infd < timerFd) :
    (s.acceptContext svc mem infd timerFd).Sound := by
  obtain ⟨hstatus, hclose⟩ := hsvc mem
  have heq : s.acceptContext svc mem infd timerFd = _ := acceptContext_eq hstatus
  refine ⟨?_, ?_, ?_, ?_, ?_, ?_, ?_, ?_, ?_, ?_, ?_, ?_, ?_, ?_⟩
  · rw [heq]
    exact Nat.succ_pos _
  · rw [heq]
    intro i hi
    rcases List.mem_append.mp hi with hi | hi
    · obtain ⟨hpos, hi⟩ := h.fresh i hi
      exact ⟨hpos, hi.trans (Nat.lt_succ_self _)⟩
    · obtain rfl := List.mem_singleton.mp hi
      exact ⟨h.nextId_pos, Nat.lt_succ_self _⟩
  · rw [heq]
    show (s.added ++ [s.nextId]).Nodup
    rw [List.nodup_append_comm]
    apply List.nodup_cons.mpr
    exact ⟨fun hmem => (h.fresh _ hmem).2.ne rfl, h.added_nodup⟩
  · rw [heq]
    exact h.cleaned_nodup
  · rw [heq]
    exact fun i hi => List.mem_append_left _ (h.cleaned_subset hi)
  · rw [heq]
    exact h.closeCalls_eq
  · rw [h.live_acceptContext hstatus, heq, List.length_append]
    show s.currentClients + 1 = _
    rw [h.clients_eq]
    rfl
  · intro i
    rw [Option.isSome_iff_exists, h.live_acceptContext hstatus, acceptContext_terminated hsvc]
    simp only [h.acceptContext_heap_eq_some hstatus]
    rw [exists_or, ← Option.isSome_iff_exists, h.heap_isSome, exists_and_left, List.mem_append,
      List.mem_singleton, or_right_comm]
    simp only [exists_eq, and_true]
  · intro i e he hi
    rcases (h.acceptContext_heap_eq_some hstatus).mp he with he | ⟨-, rfl⟩
    · exact h.closes he hi
    · exact hclose
  · intro e he
    rcases (h.acceptContext_heap_eq_some hstatus).mp he with he | ⟨hzero, -⟩
    · rw [heq]
      exact h.listener he
    · exact absurd hzero h.nextId_pos.ne
  · intro i e fd he hmem
    apply (mem_acceptContext_openFds hstatus).mpr
    rcases (h.acceptContext_heap_eq_some hstatus).mp he with he | ⟨-, rfl⟩
    · exact Or.inr (Or.inr (h.opened he hmem))
    · rcases Admission.mem_fds_entry hmem with hfd | ⟨hfd, harms⟩
      · exact Or.inr (Or.inl hfd)
      · exact Or.inl ⟨harms, hfd⟩
  · intro i j e₁ e₂ fd h₁ h₂ hmem₁ hmem₂
    rcases (h.acceptContext_heap_eq_some hstatus).mp h₁ with h₁ | ⟨rfl, rfl⟩ <;>
      rcases (h.acceptContext_heap_eq_some hstatus).mp h₂ with h₂ | ⟨rfl, rfl⟩
    · exact h.apart h₁ h₂ hmem₁ hmem₂
    · exact absurd hmem₂ (h.entry_fds_fresh hinfd htimer h₁ hmem₁)
    · exact absurd hmem₁ (h.entry_fds_fresh hinfd htimer h₂ hmem₂)
    · rfl
  · intro fd i
    simp only [h.acceptContext_heap_eq_some hstatus]
    rw [heq]
    show (fd, i) ∈ (infd, s.nextId) :: s.socketSet ↔ _
    rw [List.mem_cons, h.mem_socketSet]
    constructor
    · rintro (heq | ⟨e, he, rfl⟩)
      · cases heq
        exact ⟨_, Or.inr ⟨rfl, rfl⟩, rfl⟩
      · exact ⟨e, Or.inl he, rfl⟩
    · rintro ⟨e, he | ⟨rfl, rfl⟩, rfl⟩
      · exact Or.inr ⟨e, he, rfl⟩
      · exact Or.inl rfl
  · intro fd i
    simp only [h.acceptContext_heap_eq_some hstatus]
    rw [mem_acceptContext_timerSet hstatus, h.mem_timerSet]
    constructor
    · rintro (⟨harms, rfl, rfl⟩ | ⟨e, he, rfl, hzero⟩)
      · exact ⟨_, Or.inr ⟨rfl, rfl⟩, if_pos harms, by omega⟩
      · exact ⟨e, Or.inl he, rfl, hzero⟩
    · rintro ⟨e, he | ⟨rfl, rfl⟩, rfl, hzero⟩
      · exact Or.inr ⟨e, he, rfl, hzero⟩
      · obtain ⟨harms, htimerFd⟩ := Admission.armsTimer_of_timerFd hzero
        exact Or.inl ⟨harms, htimerFd, rfl⟩

end Admit

/-! ## Termination -/

/-- **Termination.** The listening socket leaves the heap and the socket set. -/
theorem Sound.terminate (h : s.Sound) (hterm : s.terminated = false) : s.terminate.Sound := by
  obtain ⟨l, hl⟩ := h.exists_listener hterm
  obtain ⟨hfd, htimer⟩ := h.listener hl
  have hheap : ∀ {i e}, s.terminate.heap i = some e ↔ s.heap i = some e ∧ i ≠ 0 := by
    intro i e
    unfold Reactor.terminate free
    dsimp only
    by_cases hi : i = 0
    · subst hi
      simp
    · simp [hi]
  exact {
    nextId_pos := h.nextId_pos
    fresh := h.fresh
    added_nodup := h.added_nodup
    cleaned_nodup := h.cleaned_nodup
    cleaned_subset := h.cleaned_subset
    closeCalls_eq := h.closeCalls_eq
    clients_eq := h.clients_eq
    heap_isSome := by
      intro i
      show (Function.update s.heap 0 none i).isSome ↔ i ∈ s.live ∨ i = 0 ∧ true = false
      by_cases hi : i = 0
      · subst hi
        have hlive : 0 ∉ s.live := fun hmem => h.pos_of_live hmem rfl
        simp [hlive]
      · rw [Function.update_of_ne hi, h.heap_isSome]
        simp [hi]
    closes := fun he => h.closes (hheap.mp he).1
    listener := fun he => absurd rfl (hheap.mp he).2
    opened := fun he => h.opened (hheap.mp he).1
    apart := fun h₁ h₂ => h.apart (hheap.mp h₁).1 (hheap.mp h₂).1
    mem_socketSet := by
      intro fd i
      show (fd, i) ∈ s.socketSet.filter (·.1 ≠ s.listenFd) ↔ _
      rw [List.mem_filter, decide_eq_true_iff, h.mem_socketSet]
      constructor
      · rintro ⟨⟨e, he, rfl⟩, hne⟩
        refine ⟨e, hheap.mpr ⟨he, ?_⟩, rfl⟩
        rintro rfl
        exact hne (h.listener he).1
      · rintro ⟨e, he, rfl⟩
        obtain ⟨he, hi⟩ := hheap.mp he
        refine ⟨⟨e, he, rfl⟩, fun heq : e.fd = s.listenFd => hi ?_⟩
        apply h.apart he hl e.fd_mem_fds
        rw [heq, ← hfd]
        exact l.fd_mem_fds
    mem_timerSet := by
      intro fd i
      rw [show s.terminate.timerSet = s.timerSet from rfl, h.mem_timerSet]
      constructor
      · rintro ⟨e, he, rfl, hzero⟩
        refine ⟨e, hheap.mpr ⟨he, ?_⟩, rfl, hzero⟩
        rintro rfl
        exact hzero (h.listener he).2
      · rintro ⟨e, he, rfl, hzero⟩
        exact ⟨e, (hheap.mp he).1, rfl, hzero⟩ }

/-! ## A new reactor -/

/-- **A new reactor** has the context of the listening socket. -/
theorem sound_create (listenFd : ℕ) (ctx : Ctx κ υ) : (create listenFd ctx).Sound := by
  have hheap : ∀ {i e}, (create listenFd ctx).heap i = some e ↔
      i = 0 ∧ e = { fd := listenFd, timerFd := 0, closeCallback := false, io := ctx } := by
    intro i e
    unfold create
    by_cases hi : i = 0
    · subst hi
      simp [eq_comm]
    · simp [hi]
  exact {
    nextId_pos := Nat.one_pos
    fresh := nofun
    added_nodup := List.nodup_nil
    cleaned_nodup := List.nodup_nil
    cleaned_subset := nofun
    closeCalls_eq := rfl
    clients_eq := rfl
    heap_isSome := by
      intro i
      rw [Option.isSome_iff_exists, show (create listenFd ctx).live = [] from rfl]
      constructor
      · rintro ⟨e, he⟩
        exact Or.inr ⟨(hheap.mp he).1, rfl⟩
      · rintro (hmem | ⟨rfl, -⟩)
        · cases hmem
        · exact ⟨_, hheap.mpr ⟨rfl, rfl⟩⟩
    closes := fun he hi => absurd (hheap.mp he).1 hi
    listener := by
      intro e he
      obtain ⟨-, rfl⟩ := hheap.mp he
      exact ⟨rfl, rfl⟩
    opened := by
      intro i e fd he hmem
      obtain ⟨-, rfl⟩ := hheap.mp he
      exact hmem
    apart := fun h₁ h₂ _ _ => (hheap.mp h₁).1.trans (hheap.mp h₂).1.symm
    mem_socketSet := by
      intro fd i
      constructor
      · intro hmem
        cases List.mem_singleton.mp hmem
        exact ⟨_, hheap.mpr ⟨rfl, rfl⟩, rfl⟩
      · rintro ⟨e, he, rfl⟩
        obtain ⟨rfl, rfl⟩ := hheap.mp he
        exact List.mem_singleton_self _
    mem_timerSet := by
      intro fd i
      constructor
      · intro hmem
        cases hmem
      · rintro ⟨e, he, rfl, hzero⟩
        obtain ⟨rfl, rfl⟩ := hheap.mp he
        exact absurd rfl hzero }

end Reactor

end Yotta.Core
