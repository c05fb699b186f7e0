import Adrift.Thread.ThreadPool

/-!
# Stranded tasks

One signal wakes one worker, for a task or to exit. A worker that wakes up for a task may find an
`exitNum` that an earlier round of the manager has left behind, and exits without taking the task.

## Main definitions

* `PoolState.NoneStranded s`: while the manager sleeps, no task is left to sleeping workers
* `PoolState.Wakeups s`: the same at all times, but for the signals that the manager is to send
* `PoolState.LeavesAwake s e`: a worker that exits while tasks are queued leaves another one awake

## Main results

* `PoolState.Wakeups.step`: a step keeps the wake-ups when an exit leaves a worker awake
* `noneStranded_iff`: no task is stranded exactly as long as every exit leaves a worker awake
-/

namespace Adrift

open ConditionVariable Transition

variable {ι τ : Type}

/-- **A worker is awake**: it was woken, or runs outside its wait. -/
def WorkerPhase.awake : WorkerPhase τ → Bool
  | ready | woken | took _ | busy _ => true
  | _ => false

/-- **No task is stranded**: while the manager sleeps and a task is queued, a worker that sleeps is
not alone, but another one is awake. -/
def PoolState.NoneStranded (s : PoolState ι τ) : Prop :=
  s.manager = .asleep → s.pool.shutdown = false → 0 < s.pool.queueSize →
    (∃ w, s.workers w = .asleep) → ∃ w, (s.workers w).awake

/-- The manager is to signal in its round. -/
def PoolState.ToSignal (s : PoolState ι τ) : Prop :=
  match s.manager with
  | .counted _ liveNum busyNum => managerShrinks s.pool liveNum busyNum
  | .grown liveNum busyNum => managerShrinks s.pool liveNum busyNum
  | .signals n => 0 < n
  | _ => False

/-- **Wake-ups for tasks**: while tasks are queued and a worker sleeps, another one is awake, or the
manager is to signal. -/
def PoolState.Wakeups (s : PoolState ι τ) : Prop :=
  s.pool.shutdown = false → 0 < s.pool.queueSize → (∃ w, s.workers w = .asleep) →
    (∃ w, (s.workers w).awake) ∨ s.ToSignal

/-- **An exit leaves a worker awake** while a task is queued and a worker sleeps, or the manager is
to signal. -/
def PoolState.LeavesAwake (s : PoolState ι τ) : PoolEvent ι τ → Prop
  | .exit w => s.pool.shutdown = false → 0 < s.pool.queueSize → (∃ v, s.workers v = .asleep) →
    (∃ v, v ≠ w ∧ (s.workers v).awake) ∨ s.ToSignal
  | _ => True

variable {s s' : PoolState ι τ} {e : PoolEvent ι τ} {es : List (PoolEvent ι τ)} {w : ℕ}
  {pool : ThreadPool τ} {workers : ℕ → WorkerPhase τ} {phase : WorkerPhase τ}

theorem PoolState.Wakeups.init (pool : ThreadPool τ) :
    (PoolState.init pool : PoolState ι τ).Wakeups := by
  rintro - - ⟨w, hw⟩
  have hne : (PoolState.init pool : PoolState ι τ).workers w ≠ .asleep := by
    rw [PoolState.init]
    dsimp only
    split_ifs <;> rintro ⟨⟩
  exact absurd hw hne

/-- **While the manager is not to signal** a worker is awake. -/
theorem PoolState.Wakeups.noneStranded (hW : s.Wakeups) : s.NoneStranded := by
  intro hphase hshutdown hsize hasleep
  apply (hW hshutdown hsize hasleep).resolve_right
  rw [ToSignal, hphase]
  exact not_false

theorem exists_awake_update (p : ℕ → WorkerPhase τ) (w : ℕ) (hphase : phase.awake = true) :
    ∃ v, (Function.update p w phase v).awake := by
  refine ⟨w, ?_⟩
  rw [Function.update_self]
  exact hphase

theorem exists_asleep_of_update (hphase : phase ≠ .asleep)
    (h : ∃ v, Function.update workers w phase v = .asleep) : ∃ v, workers v = .asleep := by
  obtain ⟨v, hv⟩ := h
  exact ⟨v, (of_update_eq_asleep hphase hv).2⟩

/-- **A signal** wakes a worker, or none is asleep. -/
theorem exists_awake_of_signal {workers' : ℕ → WorkerPhase τ}
    (h : Signal .asleep .woken workers workers') (hasleep : ∃ w, workers' w = .asleep) :
    ∃ w, (workers' w).awake := by
  obtain ⟨w, hw⟩ := hasleep
  obtain ⟨v, hv⟩ := h.exists_woken hw
  exact ⟨v, by rw [hv]; rfl⟩

/-- The manager's loop wakes nobody up, and makes nobody sleep. -/
theorem PoolState.grow_workers (s : PoolState ι τ) (queueSize liveNum : ℤ) :
    (s.grow queueSize liveNum).pool.shutdown = s.pool.shutdown ∧
      (s.grow queueSize liveNum).pool.queueSize = s.pool.queueSize ∧
        (s.grow queueSize liveNum).pool.minNum = s.pool.minNum ∧
          ∀ w, (s.grow queueSize liveNum).workers w = s.workers w ∨
            (s.grow queueSize liveNum).workers w = .ready := by
  refine grow_induction (P := fun s' : PoolState ι τ => s'.pool.shutdown = s.pool.shutdown ∧
    s'.pool.queueSize = s.pool.queueSize ∧ s'.pool.minNum = s.pool.minNum ∧
      ∀ w, s'.workers w = s.workers w ∨ s'.workers w = .ready) ?_ _ _
    ⟨rfl, rfl, rfl, fun _ => .inl rfl⟩
  rintro s' i - ⟨hshutdown, hsize, hmin, hworkers⟩
  refine ⟨hshutdown, hsize, hmin, fun w => ?_⟩
  by_cases hw : w = s'.created
  · exact .inr (hw ▸ Function.update_self ..)
  · rcases hworkers w with h | h
    · exact .inl ((Function.update_of_ne hw ..).trans h)
    · exact .inr ((Function.update_of_ne hw ..).trans h)

/-- The manager goes on from where it was not to signal. -/
theorem PoolState.Wakeups.manager (hW : s.Wakeups) (hquiet : ¬ s.ToSignal)
    (manager : ManagerPhase) : PoolState.Wakeups { s with manager := manager } := by
  intro hshutdown hsize hasleep
  exact .inl ((hW hshutdown hsize hasleep).resolve_right hquiet)

/-- **The manager creates workers**, which are awake. -/
theorem PoolState.Wakeups.grow {queueSize liveNum busyNum : ℤ} (hW : s.Wakeups)
    (hphase : s.manager = .counted queueSize liveNum busyNum) :
    PoolState.Wakeups { s.grow queueSize liveNum with manager := .grown liveNum busyNum } := by
  obtain ⟨hdown, hqueue, hmin, hworkers⟩ := s.grow_workers queueSize liveNum
  rintro hshutdown hsize ⟨w, hw⟩
  have hasleep : s.workers w = .asleep := by
    rcases hworkers w with h | h
    · exact h.symm.trans hw
    · cases h.symm.trans hw
  rcases hW (hdown.symm.trans hshutdown) (hqueue ▸ hsize) ⟨w, hasleep⟩ with ⟨v, hv⟩ | hsignal
  · refine .inl ⟨v, ?_⟩
    rcases hworkers v with h | h
    · exact (congrArg WorkerPhase.awake h).trans hv
    · exact congrArg WorkerPhase.awake h
  · rw [ToSignal, hphase] at hsignal
    refine .inr ?_
    show managerShrinks (s.grow queueSize liveNum).pool liveNum busyNum = true
    rw [managerShrinks, hmin]
    exact hsignal

/-- **A worker exits** after the shutdown, or leaves another one awake. -/
theorem PoolState.Wakeups.exit (hr : s.WorkerRuns w (pool, .exit))
    (hleaves : s.LeavesAwake (.exit w)) : PoolState.Wakeups
      { s with pool := pool, workers := Function.update s.workers w .exiting } := by
  obtain ⟨hdown, hqueue, hmin⟩ : (pool.shutdown = false → s.pool.shutdown = false) ∧
      pool.queueSize = s.pool.queueSize ∧ pool.minNum = s.pool.minNum := by
    rcases hr.exit with ⟨-, e, rfl⟩ | ⟨-, rfl⟩
    · exact ⟨id, rfl, rfl⟩
    · exact ⟨id, rfl, rfl⟩
  intro hshutdown hsize hasleep
  have hasleep := exists_asleep_of_update (by rintro ⟨⟩) hasleep
  rcases hleaves (hdown hshutdown) (hqueue ▸ hsize) hasleep with ⟨v, hne, hv⟩ | hsignal
  · exact .inl ⟨v, (congrArg WorkerPhase.awake (Function.update_of_ne hne ..)).trans hv⟩
  · refine .inr ?_
    unfold ToSignal managerShrinks at hsignal ⊢
    rwa [hmin]

/-- A worker that exits is not awake. -/
theorem PoolState.Wakeups.gone (hW : s.Wakeups) (hphase : s.workers w = .exiting) :
    PoolState.Wakeups { s with
      pool := threadExit s.pool w
      workers := Function.update s.workers w .gone } := by
  obtain ⟨ids, hids⟩ := threadExit_eq s.pool w
  rw [hids]
  intro hshutdown hsize hasleep
  refine (hW hshutdown hsize (exists_asleep_of_update (by rintro ⟨⟩) hasleep)).imp_left ?_
  rintro ⟨v, hv⟩
  have hne : v ≠ w := by
    rintro rfl
    rw [hphase] at hv
    cases hv
  exact ⟨v, (congrArg WorkerPhase.awake (Function.update_of_ne hne ..)).trans hv⟩

variable [DecidableEq ι]

/-- **A step keeps the wake-ups** when an exit leaves a worker awake. -/
theorem PoolState.Wakeups.step (hW : s.Wakeups) (h : s.Step e s') (hleaves : s.LeavesAwake e) :
    s'.Wakeups := by
  cases h with
  | added _ _ _ hworkers =>
    intro _ _ hasleep
    exact .inl (exists_awake_of_signal hworkers hasleep)
  | wait hr =>
    -- the queue is empty
    obtain ⟨hempty, e, rfl⟩ := hr.wait
    intro _ hsize
    exact absurd hempty (ne_of_gt hsize)
  | take => exact fun _ _ _ => .inl (exists_awake_update _ _ rfl)
  | exit hr => exact .exit hr hleaves
  | busy => exact fun _ _ _ => .inl (exists_awake_update _ _ rfl)
  | idle => exact fun _ _ _ => .inl (exists_awake_update _ _ rfl)
  | gone hphase => exact hW.gone hphase
  | spurious => exact fun _ _ _ => .inl (exists_awake_update _ _ rfl)
  | managerSleep hphase _ =>
    apply hW.manager
    rw [ToSignal, hphase]
    exact not_false
  | managerEnd hphase _ =>
    apply hW.manager
    rw [ToSignal, hphase]
    exact not_false
  | managerSize hphase =>
    apply hW.manager
    rw [ToSignal, hphase]
    exact not_false
  | managerCount hphase =>
    apply hW.manager
    rw [ToSignal, hphase]
    exact not_false
  | managerGrow hphase => exact hW.grow hphase
  | managerShrink => exact fun _ _ _ => .inr Nat.zero_lt_two
  | managerKeep hphase hkeeps =>
    apply hW.manager
    rw [ToSignal, hphase]
    intro hshrinks
    cases hkeeps.symm.trans hshrinks
  | managerSignal _ hworkers =>
    intro _ _ hasleep
    exact .inl (exists_awake_of_signal hworkers hasleep)
  | managerLoop hphase =>
    apply hW.manager
    rw [ToSignal, hphase]
    exact lt_irrefl 0
  | shutdown => exact fun hshutdown => nomatch hshutdown
  | _ => exact hW

/-- **An exit that strands no task** while the manager sleeps leaves a worker awake. -/
theorem PoolState.NoneStranded.leavesAwake (hN : s'.NoneStranded) (h : s.Step e s')
    (hphase : s'.manager = .asleep) : s.LeavesAwake e := by
  cases h with
  | @exit w pool hr =>
    rintro hshutdown hsize ⟨v, hv⟩
    rcases hr.exit with ⟨hdown, -⟩ | ⟨-, rfl⟩
    · cases hdown.symm.trans hshutdown
    · -- the worker that exits was neither asleep, nor is it awake afterwards
      have hvw : v ≠ w := by
        rintro rfl
        rcases hr with ⟨hready, -⟩ | ⟨hwoken, -⟩
        · cases hready.symm.trans hv
        · cases hwoken.symm.trans hv
      obtain ⟨u, hu⟩ := hN hphase hshutdown hsize ⟨v, (Function.update_of_ne hvw ..).trans hv⟩
      have huw : u ≠ w := by
        rintro rfl
        dsimp only at hu
        rw [Function.update_self] at hu
        cases hu
      refine .inl ⟨u, huw, ?_⟩
      dsimp only at hu
      rwa [Function.update_of_ne huw] at hu
  | _ => trivial

/-- **No task is stranded** in any run whose exits leave a worker awake while tasks are queued, and
a step that ends while the manager sleeps strands none exactly when it does so, too. -/
theorem noneStranded_iff {min max capacity : ℤ} {taskQ : ℤ → τ}
    (h : Trace (Restrict PoolState.Step PoolState.LeavesAwake)
      (PoolState.init (threadPoolCreate min max capacity taskQ) : PoolState ι τ) es s) :
    s.NoneStranded ∧ ∀ e s', s.Step e s' → s'.manager = .asleep →
      (s'.NoneStranded ↔ s.LeavesAwake e) := by
  have hW : s.Wakeups := by
    apply h.invariant (P := PoolState.Wakeups) (.init _)
    rintro s e s' hW ⟨hs, hleaves⟩
    exact hW.step hs hleaves
  refine ⟨hW.noneStranded, ?_⟩
  intro e s' hs hphase
  constructor
  · intro hN
    exact hN.leavesAwake hs hphase
  · intro hleaves
    exact (hW.step hs hleaves).noneStranded

theorem noneStranded_woken : ∃ es, ∃ s : PoolState Unit ℕ,
    Trace (Restrict PoolState.Step PoolState.LeavesAwake)
      (PoolState.init (threadPoolCreate 1 2 4 fun _ => 0)) es s ∧ s.pool.queueSize = 1 ∧
        s.NoneStranded ∧ ∀ e s', s.Step e s' → s'.manager = .asleep →
          (s'.NoneStranded ↔ s.LeavesAwake e) := by
  have h : Trace (Restrict PoolState.Step PoolState.LeavesAwake)
      (PoolState.init (threadPoolCreate 1 2 4 fun _ => 0) : PoolState Unit ℕ) [.wait 0] _ :=
    .single ⟨.wait (.inl ⟨rfl, rfl⟩), trivial⟩
  have h := h.step (e := PoolEvent.call () 7) ⟨.call rfl, trivial⟩
  have h := h.step (e := PoolEvent.added () 7)
    ⟨.added (.inl rfl) rfl rfl (.inl ⟨0, rfl, rfl⟩), trivial⟩
  exact ⟨_, _, h, rfl, noneStranded_iff h⟩

/-! ## A wake-up that is lost -/

/-- **A stranded task**: the manager has two workers exit that hold tasks, and its signals are lost.
Later both sleep, the signal for the next task wakes one of them, and this one exits. -/
theorem not_noneStranded_exit : ¬ ∀ es (s : PoolState Unit ℕ),
    Trace PoolState.Step (PoolState.init (threadPoolCreate 1 2 4 fun _ => 0)) es s →
      s.NoneStranded := by
  intro hall
  have h : Trace PoolState.Step
      (PoolState.init (threadPoolCreate 1 2 4 fun _ => 0) : PoolState Unit ℕ) [.manager] _ :=
    .single (.managerSleep rfl rfl)
  -- two tasks are added while the worker is busy, and the manager creates another one
  have h := h.step (e := .call () 1) (.call rfl)
  have h := h.step (e := .added () 1)
    (.added (.inl rfl) rfl rfl ((PoolState.Fresh.trace h).signal_none (by decide)))
  have h := h.step (e := .take 0 1) (.take (.inl ⟨rfl, rfl⟩) (.inr ⟨by rintro ⟨⟩; decide, rfl⟩))
  have h := h.step (e := .busy 0) (.busy rfl)
  have h := h.step (e := .call () 2) (.call rfl)
  have h := h.step (e := .added () 2)
    (.added (.inl rfl) rfl rfl ((PoolState.Fresh.trace h).signal_none (by decide)))
  have h := h.step (e := .call () 3) (.call rfl)
  have h := h.step (e := .added () 3)
    (.added (.inl rfl) rfl rfl ((PoolState.Fresh.trace h).signal_none (by decide)))
  have h := h.step (.managerSize rfl)
  have h := h.step (.managerCount rfl)
  have h := h.step (.managerGrow rfl)
  have h := h.step (.managerKeep rfl rfl)
  have h := h.step (.managerSleep rfl rfl)
  -- both workers take a task, and are not yet counted as busy when the manager looks
  have h := h.step (e := .idle 0) (.idle rfl)
  have h := h.step (e := .take 0 2) (.take (.inl ⟨rfl, rfl⟩) (.inr ⟨by rintro ⟨⟩; decide, rfl⟩))
  have h := h.step (e := .take 1 3) (.take (.inl ⟨rfl, rfl⟩) (.inr ⟨by rintro ⟨⟩; decide, rfl⟩))
  have h := h.step (.managerSize rfl)
  have h := h.step (.managerCount rfl)
  have h := h.step (.managerGrow rfl)
  have h := h.step (.managerShrink rfl rfl)
  have h := h.step (.managerSignal rfl ((PoolState.Fresh.trace h).signal_none (by decide)))
  have h := h.step (.managerSignal rfl ((PoolState.Fresh.trace h).signal_none (by decide)))
  have h := h.step (.managerLoop rfl)
  have h := h.step (.managerSleep rfl rfl)
  -- both finish, and sleep
  have h := h.step (e := .busy 0) (.busy rfl)
  have h := h.step (e := .idle 0) (.idle rfl)
  have h := h.step (e := .wait 0) (.wait (.inl ⟨rfl, rfl⟩))
  have h := h.step (e := .busy 1) (.busy rfl)
  have h := h.step (e := .idle 1) (.idle rfl)
  have h := h.step (e := .wait 1) (.wait (.inl ⟨rfl, rfl⟩))
  -- the next task wakes one of them, which exits
  have h := h.step (e := .call () 4) (.call rfl)
  have h := h.step (e := .added () 4) (.added (.inl rfl) rfl rfl (.inl ⟨0, rfl, rfl⟩))
  have h := h.step (e := .exit 0) (.exit (.inr ⟨rfl, rfl⟩))
  obtain ⟨w, hw⟩ := hall _ _ h rfl rfl (by decide) ⟨1, rfl⟩
  have hnone := (PoolState.Fresh.trace h).forall_workers (P := (·.awake = false)) rfl (by decide) w
  cases hnone.symm.trans hw

end Adrift
