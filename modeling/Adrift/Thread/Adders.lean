import Mathlib.Data.Finset.Card
import Adrift.Thread.TaskQueue

/-!
# Threads that add tasks

A worker that takes a task signals `notFull`, which wakes one of the threads that wait for room.
Until the shutdown no such wake-up is lost: while a thread waits, there are as many woken ones as
free cells.

## Main definitions

* `PoolState.RoomClaimed s`: the woken threads are as many as the free cells

## Main results

* `PoolState.RoomClaimed.step`: a step keeps this
* `adders_not_stranded`: the threads that wait for room, in every state that is reached
-/

namespace Adrift

open ConditionVariable Transition

variable {ι τ : Type}

/-- **The free cells are claimed**: while a thread waits for room, at least as many were woken as
there are cells for, and they have not yet tested the queue. -/
def PoolState.RoomClaimed (s : PoolState ι τ) : Prop :=
  s.pool.shutdown = false → (∃ i, s.adds i = .asleep) →
    ∃ W : Finset ι, (∀ i ∈ W, s.adds i = .woken) ∧
      s.pool.queueCapacity - s.pool.queueSize ≤ W.card

variable {min max capacity : ℤ} {taskQ : ℤ → τ} {pool : ThreadPool τ} {task : τ} {w : ℕ} {i : ι}
  {s s' : PoolState ι τ} {e : PoolEvent ι τ} {es : List (PoolEvent ι τ)}

/-- **A thread waits** only when no cell is free. -/
theorem threadPoolAdd_eq_wait (hr : threadPoolAdd pool task = .wait) :
    pool.queueSize = pool.queueCapacity := by
  rw [threadPoolAdd] at hr
  split_ifs at hr with hfull
  exact hfull.1

theorem threadPoolAdd_eq_refused (hr : threadPoolAdd pool task = .refused) :
    pool.shutdown = true := by
  rw [threadPoolAdd] at hr
  split_ifs at hr with hfull hdown
  exact hdown

namespace PoolState.RoomClaimed

theorem init (pool : ThreadPool τ) : (PoolState.init pool : PoolState ι τ).RoomClaimed := by
  rintro - ⟨i, hi⟩
  cases hi

variable [DecidableEq ι]

/-- The others that were woken. -/
theorem of_update {W : Finset ι} {phase : AddPhase} (hW : ∀ j ∈ W, s.adds j = .woken) :
    ∀ j ∈ W.erase i, Function.update s.adds i phase j = .woken := by
  intro j hj
  rw [Function.update_of_ne (Finset.ne_of_mem_erase hj)]
  exact hW j (Finset.mem_of_mem_erase hj)

/-- A thread that was not woken goes on, and does not wait. -/
theorem update (hR : s.RoomClaimed) {phase : AddPhase} (hi : s.adds i ≠ .woken)
    (hphase : phase ≠ .asleep) :
    RoomClaimed { s with adds := Function.update s.adds i phase } := by
  rintro hdown ⟨j, hj⟩
  obtain ⟨W, hW, hcard⟩ := hR hdown ⟨j, (of_update_eq_asleep hphase hj).2⟩
  refine ⟨W, ?_, hcard⟩
  clear hj
  intro j hj
  have hne : j ≠ i := by
    rintro rfl
    exact hi (hW j hj)
  dsimp only
  rw [Function.update_of_ne hne, hW j hj]

/-- **A woken thread that adds its task** uses one free cell, and another thread one, too. -/
theorem added (hR : s.RoomClaimed) (hr : threadPoolAdd s.pool task = .done pool)
    (hs : s'.pool = pool ∧ s'.adds = Function.update s.adds i .outside) : s'.RoomClaimed := by
  obtain ⟨-, rfl⟩ := threadPoolAdd_eq_done hr
  obtain ⟨hpool, hadds⟩ := hs
  rw [RoomClaimed, hpool, hadds]
  rintro hdown ⟨j, hj⟩
  obtain ⟨W, hW, hcard⟩ := hR hdown ⟨j, (of_update_eq_asleep (by decide) hj).2⟩
  refine ⟨W.erase i, of_update hW, ?_⟩
  have hle : W.card - 1 ≤ (W.erase i).card := Finset.pred_card_le_card_erase
  dsimp only
  omega

/-- **A worker that takes a task** frees a cell, and wakes a thread. -/
theorem take (hR : s.RoomClaimed) (hr : s.WorkerRuns w (pool, .take task)) {adds : ι → AddPhase}
    (hadds : Signal .asleep .woken s.adds adds) (hs : s'.pool = pool ∧ s'.adds = adds) :
    s'.RoomClaimed := by
  obtain ⟨-, -, e, rfl⟩ := hr.take
  rw [RoomClaimed, hs.1, hs.2]
  rintro hdown ⟨j, hj⟩
  rcases hadds with ⟨i, hi, rfl⟩ | ⟨hnone, rfl⟩
  · obtain ⟨W, hW, hcard⟩ := hR hdown ⟨i, hi⟩
    have hiW : i ∉ W := by
      intro hmem
      cases hi.symm.trans (hW i hmem)
    refine ⟨insert i W, ?_, ?_⟩
    · intro k hk
      by_cases hki : k = i
      · rw [hki, Function.update_self]
      · rw [Function.update_of_ne hki, hW k (Finset.mem_of_mem_insert_of_ne hk hki)]
    · rw [Finset.card_insert_of_notMem hiW]
      push_cast
      omega
  · exact absurd hj (hnone j)

/-- **A step keeps the claims**. -/
theorem step (hR : s.RoomClaimed) (h : s.Step e s') : s'.RoomClaimed := by
  cases h with
  | call hphase => exact hR.update (by rw [hphase]; decide) (by decide)
  | addWait hphase htask hr =>
    intro _ _
    refine ⟨∅, fun i hi => absurd hi (Finset.notMem_empty i), ?_⟩
    rw [threadPoolAdd_eq_wait hr, sub_self]
    exact Int.natCast_nonneg _
  | added hphase htask hr hworkers => exact hR.added hr ⟨rfl, rfl⟩
  | refused hphase htask hr =>
    intro hdown
    cases hdown.symm.trans (threadPoolAdd_eq_refused hr)
  | wait hr =>
    obtain ⟨-, e, rfl⟩ := hr.wait
    exact hR
  | take hr hadds => exact hR.take hr hadds ⟨rfl, rfl⟩
  | exit hr =>
    rcases hr.exit with ⟨-, e, rfl⟩ | ⟨-, rfl⟩
    · exact hR
    · exact hR
  | @gone w hphase =>
    obtain ⟨ids, hids⟩ := threadExit_eq s.pool w
    rw [hids]
    exact hR
  | spuriousAdd hphase => exact hR.update (by rw [hphase]; decide) (by decide)
  | managerGrow => exact PoolState.grow_induction (P := RoomClaimed) (fun _ _ hR => hR) _ _ hR
  | shutdown => exact fun hdown => nomatch hdown
  | _ => exact hR

end PoolState.RoomClaimed

variable [DecidableEq ι]

/-- **No thread waits for room in vain**: in every state reached before the shutdown, while a
thread sleeps in `threadPoolAdd`, there are as many woken ones as free cells. So one that sleeps
while there is room is waiting behind another one that was woken for it, and when none is woken the
queue is full. -/
theorem adders_not_stranded (hmax : min ≤ max) (hcapacity : 0 < capacity)
    (h : Trace PoolState.Step (PoolState.init (threadPoolCreate min max capacity taskQ) :
      PoolState ι τ) es s) (hdown : s.pool.shutdown = false) (hasleep : ∃ i, s.adds i = .asleep) :
    (∃ W : Finset ι, (∀ i ∈ W, s.adds i = .woken) ∧ capacity - s.pool.queueSize ≤ W.card) ∧
      ((∀ i, s.adds i ≠ .woken) → s.pool.queueSize = capacity) := by
  have hR : s.RoomClaimed := h.invariant (.init _) fun hR hs => hR.step hs
  have hB := (bounded_of_trace hmax hcapacity h).1
  obtain ⟨W, hW, hcard⟩ := hR hdown hasleep
  rw [hB.queueCapacity] at hcard
  refine ⟨⟨W, hW, hcard⟩, ?_⟩
  intro hnone
  have hempty : W = ∅ := Finset.eq_empty_of_forall_notMem fun i hi => hnone i (hW i hi)
  have hle := hB.ring.size_le
  rw [hempty, Finset.card_empty] at hcard
  rw [hB.queueCapacity] at hle
  omega

theorem adders_not_stranded_full : ∃ es, ∃ s : PoolState Bool ℕ,
    Trace PoolState.Step (PoolState.init (threadPoolCreate 1 1 1 fun _ => 0)) es s ∧
      s.adds true = .asleep ∧
      (∃ W : Finset Bool, (∀ i ∈ W, s.adds i = .woken) ∧ 1 - s.pool.queueSize ≤ W.card) ∧
        ((∀ i, s.adds i ≠ .woken) → s.pool.queueSize = 1) := by
  have hcall : Trace PoolState.Step
      (PoolState.init (threadPoolCreate 1 1 1 fun _ => 0) : PoolState Bool ℕ) [.call false 7] _ :=
    .single (.call rfl)
  have hadded := hcall.step (e := .added false 7)
    (.added (.inl rfl) rfl rfl ((PoolState.Fresh.trace hcall).signal_none (by decide)))
  have hcall' := hadded.step (e := .call true 8) (.call rfl)
  have hwait := hcall'.step (e := .addWait true) (.addWait (.inl rfl) rfl rfl)
  exact ⟨_, _, hwait, rfl, adders_not_stranded (by decide) (by decide) hwait rfl ⟨true, rfl⟩⟩

end Adrift
