import Yotta.Core.Reactor

/-!
# The master loop

`serve` (lines 462–479) does not look at what `epoll_wait` returns. `master_event` keeps
what it holds when the call fails, and the branches are taken again.

Results:
* `MasterInv.of_steps`: every step keeps what the record of the master loop says about
  the waits that have failed.
* `MasterInv.corresponds`, `MasterInv.interrupts_eq_zero`: the branches that were taken
  are those of the events that were delivered exactly if no wait has failed.
-/

namespace Yotta.Core.Reactor

variable {κ υ ε μ : Type}

/-- The branches that have been taken are those of the events that were delivered, the
termination branch has freed `listen_fd_ctx` no more than once for each signal, and
`master_event` was written before it was read. -/
structure Corresponds (s : Reactor κ υ) : Prop where
  handled : s.handled <+: s.delivered
  listenFrees : s.listenFrees ≤ s.delivered.count .signal
  uninitRead : s.uninitRead = false

/-- What the record of the master loop says, before the branches and elsewhere, as long
as no wait has failed and after one has. -/
structure MasterInv (s : Reactor κ υ) : Prop where
  listenFrees : s.listenFrees = s.handled.count .signal
  smooth : s.stage ≠ .branch → s.interrupts = 0 → s.uninitRead = false ∧ s.delivered = s.handled
  rough : s.stage ≠ .branch → 0 < s.interrupts →
    s.uninitRead = true ∨ s.delivered.length < s.handled.length
  branch_smooth : s.stage = .branch → s.interrupts = 0 → s.uninitRead = false ∧
    ∃ e, s.masterEvent = some e ∧ s.delivered = s.handled ++ [e]
  branch_rough : s.stage = .branch → 0 < s.interrupts →
    s.uninitRead = true ∨ s.masterEvent = none ∨ s.delivered.length ≤ s.handled.length

variable {svc : Service κ υ ε μ} {s t : Reactor κ υ}

theorem branchOn_stage (s : Reactor κ υ) (e : Option MasterEvent) :
    (s.branchOn e).stage ≠ .branch := by
  rcases e with _ | _ | _ | _
  · exact Stage.noConfusion
  · exact Stage.noConfusion
  · exact Stage.noConfusion
  · show (if (s.heap 0).isSome then Stage.test else .undefined) ≠ .branch
    split_ifs <;> exact Stage.noConfusion

theorem branchOn_record (s : Reactor κ υ) (e : MasterEvent) :
    (s.branchOn (some e)).handled = s.handled ++ [e] ∧
    (s.branchOn (some e)).delivered = s.delivered ∧
    (s.branchOn (some e)).interrupts = s.interrupts ∧
    (s.branchOn (some e)).uninitRead = s.uninitRead := by
  cases e <;> exact ⟨rfl, rfl, rfl, rfl⟩

/-- The termination branch frees `listen_fd_ctx`, and no other branch does. -/
theorem branchOn_listenFrees (h : s.listenFrees = s.handled.count .signal)
    (e : Option MasterEvent) :
    (s.branchOn e).listenFrees = (s.branchOn e).handled.count .signal := by
  rcases e with _ | _ | _ | _
  · exact h
  · show s.listenFrees = (s.handled ++ [MasterEvent.sockets]).count MasterEvent.signal
    rw [List.count_append, h]
    rfl
  · show s.listenFrees = (s.handled ++ [MasterEvent.timers]).count MasterEvent.signal
    rw [List.count_append, h]
    rfl
  · show s.listenFrees + 1 = (s.handled ++ [MasterEvent.signal]).count MasterEvent.signal
    rw [List.count_append, h]
    rfl

theorem Frame.masterInv (hframe : s.Frame t) (hstage : s.stage ≠ .branch) (h : s.MasterInv) :
    t.MasterInv where
  listenFrees := by
    rw [hframe.listenFrees, hframe.handled]
    exact h.listenFrees
  smooth _ := by
    rw [hframe.interrupts, hframe.uninitRead, hframe.delivered, hframe.handled]
    exact h.smooth hstage
  rough _ := by
    rw [hframe.interrupts, hframe.uninitRead, hframe.delivered, hframe.handled]
    exact h.rough hstage
  branch_smooth hbranch := absurd hbranch hframe.stage_ne
  branch_rough hbranch := absurd hbranch hframe.stage_ne

/-- **Every step** keeps the invariant of the master loop. -/
theorem MasterInv.of_steps (h : s.MasterInv) {l : Label μ} (hs : s.Steps svc l t) :
    t.MasterInv := by
  by_cases hl : l.isMaster = false
  · obtain ⟨hstage, hframe⟩ := hs.frame hl
    exact hframe.masterInv hstage h
  cases hs with
  | @deliver e hwait =>
    have hstage : s.stage ≠ .branch := by
      rw [hwait]
      exact Stage.noConfusion
    refine ⟨h.listenFrees, fun hne => absurd rfl hne, fun hne => absurd rfl hne, ?_, ?_⟩
    · intro _ hzero
      obtain ⟨huninit, hdelivered⟩ := h.smooth hstage hzero
      refine ⟨huninit, e, rfl, ?_⟩
      show s.delivered ++ [e] = s.handled ++ [e]
      rw [hdelivered]
    · intro _ hpos
      refine (h.rough hstage hpos).imp_right fun hlt => Or.inr ?_
      show (s.delivered ++ [e]).length ≤ s.handled.length
      rw [List.length_append, List.length_singleton]
      omega
  | interrupt hwait =>
    have hstage : s.stage ≠ .branch := by
      rw [hwait]
      exact Stage.noConfusion
    refine ⟨h.listenFrees, fun hne => absurd rfl hne, fun hne => absurd rfl hne, ?_, ?_⟩
    · intro _ hzero
      exact absurd hzero (Nat.succ_ne_zero _)
    · intro _ _
      rcases Nat.eq_zero_or_pos s.interrupts with hzero | hpos
      · exact Or.inr (Or.inr (congrArg List.length (h.smooth hstage hzero).2).le)
      · exact (h.rough hstage hpos).imp_right fun hlt => Or.inr hlt.le
  | @branch e garbage hbranch he =>
    obtain ⟨hhandled, hdelivered, hinterrupts, huninit⟩ := s.branchOn_record e
    refine ⟨branchOn_listenFrees h.listenFrees _, fun _ => ?_, fun _ => ?_,
      fun heq => absurd heq (branchOn_stage s _), fun heq => absurd heq (branchOn_stage s _)⟩
    · rw [hinterrupts, huninit, hdelivered, hhandled]
      intro hzero
      obtain ⟨hread, e', he', hlast⟩ := h.branch_smooth hbranch hzero
      obtain rfl := Option.some.inj (he.symm.trans he')
      exact ⟨hread, hlast⟩
    · rw [hinterrupts, huninit, hdelivered, hhandled, List.length_append, List.length_singleton]
      intro hpos
      rcases h.branch_rough hbranch hpos with hread | hnone | hle
      · exact Or.inl hread
      · rw [he] at hnone
        cases hnone
      · exact Or.inr (by omega)
  | @branchUninit garbage hbranch hnone =>
    refine ⟨branchOn_listenFrees h.listenFrees _, fun _ hzero => ?_, fun _ _ => Or.inl rfl,
      fun heq => absurd heq (branchOn_stage s _), fun heq => absurd heq (branchOn_stage s _)⟩
    have hzero : s.interrupts = 0 := by
      rcases garbage with _ | _ | _ | _ <;> exact hzero
    obtain ⟨-, e, he, -⟩ := h.branch_smooth hbranch hzero
    rw [hnone] at he
    cases he
  | readDone l _ hor => exact (hor.elim (fun h => hl (h ▸ rfl)) fun h => hl (h ▸ rfl)).elim
  | _ => exact absurd rfl hl

theorem masterInv_create (listenFd : ℕ) (ctx : Ctx κ υ) : (create listenFd ctx).MasterInv where
  listenFrees := rfl
  smooth _ _ := ⟨rfl, rfl⟩
  rough _ hpos := absurd hpos (lt_irrefl 0)
  branch_smooth h := Stage.noConfusion h
  branch_rough h := Stage.noConfusion h

/-- As long as no wait has failed, the branches are those of the events. -/
theorem MasterInv.corresponds (h : s.MasterInv) (hzero : s.interrupts = 0) : s.Corresponds := by
  have hhandled : s.handled <+: s.delivered ∧ s.uninitRead = false := by
    by_cases hstage : s.stage = .branch
    · obtain ⟨hread, e, -, hlast⟩ := h.branch_smooth hstage hzero
      rw [hlast]
      exact ⟨List.prefix_append _ _, hread⟩
    · obtain ⟨hread, heq⟩ := h.smooth hstage hzero
      rw [heq]
      exact ⟨List.prefix_rfl, hread⟩
  refine ⟨hhandled.1, ?_, hhandled.2⟩
  rw [h.listenFrees]
  exact hhandled.1.sublist.count_le _

/-- A wait that has failed shows as soon as the branches have been taken. -/
theorem MasterInv.interrupts_eq_zero (h : s.MasterInv) (hstage : s.stage ≠ .branch)
    (hs : s.Corresponds) : s.interrupts = 0 := by
  by_contra hne
  rcases h.rough hstage (Nat.pos_of_ne_zero hne) with hread | hlt
  · rw [hs.uninitRead] at hread
    cases hread
  · have hle := hs.handled.length_le
    omega

end Yotta.Core.Reactor
