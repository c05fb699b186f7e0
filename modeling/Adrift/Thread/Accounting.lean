import Adrift.Lib.Census
import Adrift.Thread.TaskQueue

/-!
# The threads of the pool

The counters of the pool count its threads: `busyNum` the workers that have a task and are counted
as busy, and `liveNum`, until the shutdown, those that are not to exit. A worker has one slot of
`threadIDs` from its creation to the end of `threadExit`, so there are never more than `maxNum`.

## Main definitions

* `WorkerPhase.isBusy`, `WorkerPhase.isLive`, `WorkerPhase.present`: kinds of phases
* `PoolState.Counted s`: the counters count the workers
* `PoolState.Slotted s`: the workers that exist have one slot each

## Main results

* `PoolState.Counted.step`, `PoolState.Slotted.step`: a step keeps both
* `threads_accounted`: the counters and the slots, in every state that is reached
-/

namespace Adrift

open ConditionVariable Transition

variable {ι τ : Type}

/-- The worker is counted as busy. -/
def WorkerPhase.isBusy : WorkerPhase τ → Bool
  | busy _ => true
  | _ => false

/-- The worker was created, and is not to exit. -/
def WorkerPhase.isLive : WorkerPhase τ → Bool
  | absent | exiting | gone => false
  | _ => true

/-- The worker was created, and has not cleared its slot. -/
def WorkerPhase.present : WorkerPhase τ → Bool
  | absent | gone => false
  | _ => true

/-- The number of workers whose phase is of a kind. -/
def PoolState.count (s : PoolState ι τ) (p : WorkerPhase τ → Bool) : ℤ :=
  census (Finset.range s.created) p s.workers

/-- **The counters count the workers**: after the shutdown workers exit that stay counted. -/
structure PoolState.Counted (s : PoolState ι τ) : Prop where
  fresh : s.Fresh
  busy : s.pool.busyNum = s.count WorkerPhase.isBusy
  live_le : s.count WorkerPhase.isLive ≤ s.pool.liveNum
  live : s.pool.shutdown = false → s.pool.liveNum = s.count WorkerPhase.isLive

/-- **The workers that exist have one slot each**. -/
structure PoolState.Slotted (s : PoolState ι τ) : Prop where
  fresh : s.Fresh
  slot : ∀ w, (s.workers w).present = true →
    ∃ i < s.pool.maxNum.toNat, s.pool.threadIDs i = some w
  present : ∀ {i w}, s.pool.threadIDs i = some w → (s.workers w).present = true
  inj : ∀ {i j w}, s.pool.threadIDs i = some w → s.pool.threadIDs j = some w → i = j

variable {min max capacity : ℤ} {taskQ : ℤ → τ} {pool pool' : ThreadPool τ} {task : τ} {w i : ℕ}
  {s s' : PoolState ι τ} {e : PoolEvent ι τ} {es : List (PoolEvent ι τ)}
  {phase phase' : WorkerPhase τ} {p : WorkerPhase τ → Bool} {workers : ℕ → WorkerPhase τ}

/-! ## Counting -/

theorem PoolState.Fresh.lt_created (hF : s.Fresh) (hw : s.workers w ≠ .absent) : w < s.created := by
  by_contra hle
  exact hw (hF w (not_lt.mp hle))

/-- A worker that goes on. -/
theorem PoolState.Fresh.count_update (hF : s.Fresh) (hw : s.workers w = phase)
    (hphase : phase ≠ .absent) :
    census (Finset.range s.created) p (Function.update s.workers w phase') =
      s.count p + indicator p phase' - indicator p phase := by
  have hlt := hF.lt_created (hw ▸ hphase)
  rw [census_update (Finset.mem_range.mpr hlt), hw]
  rfl

/-- A worker in a critical section is live, and not busy. -/
theorem PoolState.WorkerRuns.running {r : ThreadPool τ × WorkerResult τ} (hr : s.WorkerRuns w r) :
    ∃ phase, s.workers w = phase ∧ phase ≠ .absent ∧ indicator WorkerPhase.isBusy phase = 0 ∧
      indicator WorkerPhase.isLive phase = 1 ∧ phase.present = true := by
  rcases hr with ⟨hw, -⟩ | ⟨hw, -⟩
  · exact ⟨_, hw, by rintro ⟨⟩, rfl, rfl, rfl⟩
  · exact ⟨_, hw, by rintro ⟨⟩, rfl, rfl, rfl⟩

@[simp] theorem PoolState.createWorker_workers (s : PoolState ι τ) (i : ℕ) :
    (s.createWorker i).workers = Function.update s.workers s.created .ready := rfl

@[simp] theorem PoolState.createWorker_threadIDs (s : PoolState ι τ) (i : ℕ) :
    (s.createWorker i).pool.threadIDs =
      Function.update s.pool.threadIDs i (some s.created) := rfl

/-- A worker is created. -/
theorem PoolState.count_createWorker (s : PoolState ι τ) (i : ℕ) (p : WorkerPhase τ → Bool) :
    (s.createWorker i).count p = s.count p + indicator p .ready := by
  show census (Finset.range (s.created + 1)) p (Function.update s.workers s.created .ready) = _
  rw [Finset.range_add_one, census_insert Finset.notMem_range_self]
  rfl

namespace PoolState.Counted

theorem init (hmin : 0 ≤ min) :
    (PoolState.init (threadPoolCreate min max capacity taskQ) : PoolState ι τ).Counted := by
  have hready : ∀ w ∈ Finset.range min.toNat,
      (PoolState.init (threadPoolCreate min max capacity taskQ) : PoolState ι τ).workers w =
        .ready := fun w hw => if_pos (Finset.mem_range.mp hw)
  have hlive : (PoolState.init (threadPoolCreate min max capacity taskQ) : PoolState ι τ).count
      WorkerPhase.isLive = min := by
    refine (census_eq_card ..).trans ?_
    rw [Finset.filter_true_of_mem fun w hw => by rw [hready w hw]; rfl]
    exact (congrArg Nat.cast (Finset.card_range _)).trans (Int.toNat_of_nonneg hmin)
  refine ⟨.init _, ?_, hlive.le, fun _ => hlive.symm⟩
  exact (census_eq_zero fun w hw => by rw [hready w hw]; rfl).symm

/-- The counters and the numbers change alike. -/
theorem of_add (hC : s.Counted) (hF : s'.Fresh) (b l : ℤ)
    (hb : s'.pool.busyNum = s.pool.busyNum + b)
    (hb' : s'.count WorkerPhase.isBusy = s.count WorkerPhase.isBusy + b)
    (hl : s'.pool.liveNum = s.pool.liveNum + l)
    (hl' : s'.count WorkerPhase.isLive = s.count WorkerPhase.isLive + l)
    (hd : s'.pool.shutdown = s.pool.shutdown) : s'.Counted where
  fresh := hF
  busy := by rw [hb, hb', hC.busy]
  live_le := by
    have := hC.live_le
    omega
  live hdown := by rw [hl, hl', hC.live (hd.symm.trans hdown)]

/-- **A worker goes on**, and the counters with it. -/
theorem update (hC : s.Counted) (hF : s'.Fresh) (hw : s.workers w = phase)
    (hphase : phase ≠ .absent)
    (hs : s'.created = s.created ∧ s'.workers = Function.update s.workers w phase')
    (hb : s'.pool.busyNum = s.pool.busyNum +
      (indicator WorkerPhase.isBusy phase' - indicator WorkerPhase.isBusy phase))
    (hl : s'.pool.liveNum = s.pool.liveNum +
      (indicator WorkerPhase.isLive phase' - indicator WorkerPhase.isLive phase))
    (hd : s'.pool.shutdown = s.pool.shutdown) : s'.Counted := by
  have hcount : ∀ p : WorkerPhase τ → Bool,
      s'.count p = s.count p + (indicator p phase' - indicator p phase) := by
    intro p
    rw [count, hs.1, hs.2, hC.fresh.count_update hw hphase, add_sub_assoc]
  exact hC.of_add hF _ _ hb (hcount _) hl (hcount _) hd

/-- A signal moves a worker between phases that are counted alike. -/
theorem signal (hC : s.Counted) (hF : s'.Fresh)
    (hworkers : Signal .asleep .woken s.workers workers)
    (hs : s'.created = s.created ∧ s'.workers = workers)
    (hpool : s'.pool.busyNum = s.pool.busyNum ∧ s'.pool.liveNum = s.pool.liveNum ∧
      s'.pool.shutdown = s.pool.shutdown) : s'.Counted := by
  obtain ⟨hb, hl, hd⟩ := hpool
  have hcount : ∀ p : WorkerPhase τ → Bool, p .woken = p .asleep → s'.count p = s.count p + 0 := by
    intro p hp
    rw [count, hs.1, hs.2, census_signal_eq hworkers hp, add_zero]
    rfl
  exact hC.of_add hF 0 0 (by rw [hb, add_zero]) (hcount _ rfl) (by rw [hl, add_zero])
    (hcount _ rfl) hd

/-- **A worker is created**, and counted. -/
theorem createWorker (hC : s.Counted) (i : ℕ) : (s.createWorker i).Counted := by
  apply hC.of_add (hC.fresh.createWorker i) 0 1 _ _ rfl _ rfl
  · exact (add_zero _).symm
  · exact s.count_createWorker i _
  · exact s.count_createWorker i _

/-- **A worker exits** and is not counted any more, or the pool is shut down. -/
theorem exit (hC : s.Counted) (hF : s'.Fresh) (hr : s.WorkerRuns w (pool, .exit))
    (hs : s' = { s with pool := pool, workers := Function.update s.workers w .exiting }) :
    s'.Counted := by
  subst hs
  obtain ⟨phase, hw, hne, hbusy, hlive, -⟩ := hr.running
  rcases hr.exit with ⟨hdown, e, rfl⟩ | ⟨-, rfl⟩
  · -- the worker stays counted
    have hcount : ∀ p, census (Finset.range s.created) p (Function.update s.workers w .exiting) =
        s.count p + indicator p .exiting - indicator p phase :=
      fun p => hC.fresh.count_update hw hne
    refine ⟨hF, ?_, ?_, fun h => absurd (hdown.symm.trans h) (by decide)⟩
    · refine hC.busy.trans ((hcount _).trans ?_).symm
      rw [hbusy]
      exact (sub_zero _).trans (add_zero _)
    · refine (hcount _).le.trans ?_
      rw [hlive]
      exact (sub_le_self _ zero_le_one).trans ((add_zero _).le.trans hC.live_le)
  · apply hC.update hF hw hne ⟨rfl, rfl⟩ _ _ rfl
    · rw [hbusy]
      exact (add_zero _).symm
    · rw [hlive]
      rfl

/-- A critical section that leaves the counters alone. -/
theorem runs (hC : s.Counted) (hF : s'.Fresh) {r : WorkerResult τ} (hr : s.WorkerRuns w (pool, r))
    (hlive : phase'.isLive = true) (hbusy : phase'.isBusy = false)
    (hs : s'.created = s.created ∧ s'.workers = Function.update s.workers w phase')
    (hpool : s'.pool.busyNum = s.pool.busyNum ∧ s'.pool.liveNum = s.pool.liveNum ∧
      s'.pool.shutdown = s.pool.shutdown) : s'.Counted := by
  obtain ⟨hb, hl, hd⟩ := hpool
  obtain ⟨phase, hw, hne, hb', hl', -⟩ := hr.running
  apply hC.update hF hw hne hs _ _ hd
  · rw [hb, hb', indicator, hbusy]
    exact (add_zero _).symm
  · rw [hl, hl', indicator, hlive]
    exact (add_zero _).symm

variable [DecidableEq ι]

/-- **A step keeps the counters**. -/
theorem step (hC : s.Counted) (h : s.Step e s') : s'.Counted := by
  have hF := hC.fresh.step h
  cases h with
  | added _ _ hr hworkers =>
    obtain ⟨-, rfl⟩ := threadPoolAdd_eq_done hr
    exact hC.signal hF hworkers ⟨rfl, rfl⟩ ⟨rfl, rfl, rfl⟩
  | wait hr =>
    obtain ⟨-, e, rfl⟩ := hr.wait
    exact hC.runs hF hr rfl rfl ⟨rfl, rfl⟩ ⟨rfl, rfl, rfl⟩
  | take hr _ =>
    obtain ⟨-, -, e, rfl⟩ := hr.take
    exact hC.runs hF hr rfl rfl ⟨rfl, rfl⟩ ⟨rfl, rfl, rfl⟩
  | exit hr => exact hC.exit hF hr rfl
  | busy hphase => exact hC.update hF hphase (by rintro ⟨⟩) ⟨rfl, rfl⟩ rfl (add_zero _).symm rfl
  | idle hphase => exact hC.update hF hphase (by rintro ⟨⟩) ⟨rfl, rfl⟩ rfl (add_zero _).symm rfl
  | @gone w hphase =>
    obtain ⟨ids, hids⟩ := threadExit_eq s.pool w
    rw [hids] at hF ⊢
    exact hC.update hF hphase (by rintro ⟨⟩) ⟨rfl, rfl⟩ (add_zero _).symm (add_zero _).symm rfl
  | spurious hphase =>
    exact hC.update hF hphase (by rintro ⟨⟩) ⟨rfl, rfl⟩ (add_zero _).symm (add_zero _).symm rfl
  | managerGrow =>
    obtain ⟨-, hb, hle, hl⟩ :=
      PoolState.grow_induction (P := Counted) (fun i _ hC => hC.createWorker i) _ _ hC
    exact ⟨hF, hb, hle, hl⟩
  | managerSignal _ hworkers => exact hC.signal hF hworkers ⟨rfl, rfl⟩ ⟨rfl, rfl, rfl⟩
  | shutdown => exact ⟨hF, hC.busy, hC.live_le, fun hdown => nomatch hdown⟩
  | _ => exact ⟨hF, hC.busy, hC.live_le, hC.live⟩

end PoolState.Counted

/-! ## Slots -/

/-- **A thread that exits** clears its slot. -/
theorem threadExit_slot (hi : i < pool.maxNum.toNat) (hids : pool.threadIDs i = some w)
    (hinj : ∀ {i j}, pool.threadIDs i = some w → pool.threadIDs j = some w → i = j) :
    threadExit pool w = { pool with threadIDs := Function.update pool.threadIDs i none } := by
  rw [threadExit]
  cases hfind : (List.range pool.maxNum.toNat).find? fun i => pool.threadIDs i = some w with
  | none =>
    have hnone := List.find?_eq_none.mp hfind i (List.mem_range.mpr hi)
    exact absurd hids (by simpa using hnone)
  | some j =>
    have hj : pool.threadIDs j = some w := by simpa using List.find?_some hfind
    rw [hinj hids hj]

namespace PoolState.Slotted

theorem init (hmax : min ≤ max) :
    (PoolState.init (threadPoolCreate min max capacity taskQ) : PoolState ι τ).Slotted where
  fresh := .init _
  slot w hw := by
    have hlt : w < min.toNat := by
      by_contra hle
      rw [PoolState.init] at hw
      exact absurd (hw.symm.trans (congrArg WorkerPhase.present (if_neg hle))) (by rintro ⟨⟩)
    exact ⟨w, lt_of_lt_of_le hlt (Int.toNat_le_toNat hmax), if_pos hlt⟩
  present {i w} hi := by
    obtain ⟨hlt, rfl⟩ : i < min.toNat ∧ i = w := by
      simpa [PoolState.init, threadPoolCreate, Option.ite_none_right_eq_some] using hi
    exact congrArg WorkerPhase.present (if_pos hlt)
  inj {i j w} hi hj := by
    simp only [PoolState.init, threadPoolCreate, Option.ite_none_right_eq_some,
      Option.some.injEq] at hi hj
    rw [hi.2, hj.2]

/-- Nobody appears or goes away. -/
theorem of_present (hS : s.Slotted) (hF : s'.Fresh)
    (hpool : s'.pool.threadIDs = s.pool.threadIDs ∧ s'.pool.maxNum = s.pool.maxNum)
    (hp : ∀ w, (s'.workers w).present = (s.workers w).present) : s'.Slotted := by
  obtain ⟨hids, hmax⟩ := hpool
  refine ⟨hF, ?_, ?_, ?_⟩
  · intro w hw
    rw [hids, hmax]
    exact hS.slot w ((hp w).symm.trans hw)
  · intro i w hi
    rw [hids] at hi
    exact (hp w).trans (hS.present hi)
  · intro i j w hi hj
    rw [hids] at hi hj
    exact hS.inj hi hj

/-- A worker that exists goes on. -/
theorem update (hS : s.Slotted) (hF : s'.Fresh) (hw : (s.workers w).present = phase'.present)
    (hpool : s'.pool.threadIDs = s.pool.threadIDs ∧ s'.pool.maxNum = s.pool.maxNum)
    (hs : s'.workers = Function.update s.workers w phase') : s'.Slotted := by
  apply hS.of_present hF hpool
  intro v
  by_cases hv : v = w
  · rw [hs, hv, Function.update_self, hw]
  · rw [hs, Function.update_of_ne hv]

theorem signal (hS : s.Slotted) (hF : s'.Fresh)
    (hpool : s'.pool.threadIDs = s.pool.threadIDs ∧ s'.pool.maxNum = s.pool.maxNum)
    (hworkers : Signal .asleep .woken s.workers s'.workers) : s'.Slotted := by
  apply hS.of_present hF hpool
  intro v
  rcases hworkers.apply v with h | ⟨hasleep, hwoken⟩
  · rw [h]
  · rw [hasleep, hwoken]
    rfl

/-- **A worker is created** for an empty slot. -/
theorem createWorker (hS : s.Slotted) (hi : i < s.pool.maxNum.toNat)
    (hempty : s.pool.threadIDs i = none) : (s.createWorker i).Slotted := by
  have hnew : ∀ {j}, s.pool.threadIDs j ≠ some s.created := by
    intro j hj
    have hp := hS.present hj
    rw [hS.fresh _ le_rfl] at hp
    cases hp
  have hcases : ∀ {j w}, (s.createWorker i).pool.threadIDs j = some w →
      j = i ∧ w = s.created ∨ j ≠ i ∧ s.pool.threadIDs j = some w := by
    intro j w hj
    rw [createWorker_threadIDs] at hj
    by_cases hji : j = i
    · rw [hji, Function.update_self] at hj
      exact .inl ⟨hji, (Option.some.inj hj).symm⟩
    · rw [Function.update_of_ne hji] at hj
      exact .inr ⟨hji, hj⟩
  refine ⟨hS.fresh.createWorker i, ?_, ?_, ?_⟩
  · intro w hw
    rw [createWorker_threadIDs]
    by_cases hwc : w = s.created
    · exact ⟨i, hi, hwc ▸ Function.update_self ..⟩
    · rw [createWorker_workers, Function.update_of_ne hwc] at hw
      obtain ⟨j, hj, hids⟩ := hS.slot w hw
      have hji : j ≠ i := by
        rintro rfl
        cases hempty.symm.trans hids
      exact ⟨j, hj, (Function.update_of_ne hji ..).trans hids⟩
  · intro j w hj
    rw [createWorker_workers]
    rcases hcases hj with ⟨-, rfl⟩ | ⟨-, hids⟩
    · rw [Function.update_self]
      rfl
    · have hwc : w ≠ s.created := by
        rintro rfl
        exact hnew hids
      rw [Function.update_of_ne hwc]
      exact hS.present hids
  · intro j k w hj hk
    rcases hcases hj with ⟨rfl, rfl⟩ | ⟨-, hj⟩
    · rcases hcases hk with ⟨rfl, -⟩ | ⟨-, hk⟩
      · rfl
      · exact absurd hk hnew
    · rcases hcases hk with ⟨-, rfl⟩ | ⟨-, hk⟩
      · exact absurd hj hnew
      · exact hS.inj hj hk

theorem createWorkers (hS : s.Slotted) (counter : ℕ) (is : List ℕ)
    (his : ∀ i ∈ is, i < s.pool.maxNum.toNat) : (s.createWorkers counter is).Slotted := by
  induction is generalizing s counter with
  | nil => exact hS
  | cons i is ih =>
    have hrest : ∀ j ∈ is, j < s.pool.maxNum.toNat := fun j hj => his j (List.mem_cons_of_mem i hj)
    rw [PoolState.createWorkers]
    split_ifs with hcounter hempty
    · exact ih (hS.createWorker (his i List.mem_cons_self) hempty) _ hrest
    · exact ih hS _ hrest
    · exact hS

theorem grow (hS : s.Slotted) (queueSize liveNum : ℤ) : (s.grow queueSize liveNum).Slotted := by
  rw [PoolState.grow]
  split_ifs
  · exact hS.createWorkers _ _ fun i hi => List.mem_range.mp hi
  · exact hS

/-- **A worker is gone**, and its slot is empty. -/
theorem gone (hS : s.Slotted) (hF : s'.Fresh) (hw : s.workers w = .exiting)
    (hs : s' = { s with
      pool := threadExit s.pool w, workers := Function.update s.workers w .gone }) :
    s'.Slotted := by
  subst hs
  obtain ⟨i, hi, hids⟩ := hS.slot w (by rw [hw]; rfl)
  rw [threadExit_slot hi hids hS.inj] at hF ⊢
  have hcases : ∀ {j v}, Function.update s.pool.threadIDs i none j = some v →
      v ≠ w ∧ s.pool.threadIDs j = some v := by
    intro j v hj
    have hji : j ≠ i := by
      rintro rfl
      rw [Function.update_self] at hj
      cases hj
    rw [Function.update_of_ne hji] at hj
    refine ⟨?_, hj⟩
    rintro rfl
    exact hji (hS.inj hj hids)
  refine ⟨hF, ?_, ?_, ?_⟩
  · intro v hv
    dsimp only at hv
    have hvw : v ≠ w := by
      rintro rfl
      rw [Function.update_self] at hv
      cases hv
    rw [Function.update_of_ne hvw] at hv
    obtain ⟨j, hj, hjv⟩ := hS.slot v hv
    have hji : j ≠ i := by
      rintro rfl
      exact hvw (Option.some.inj (hjv.symm.trans hids))
    exact ⟨j, hj, (Function.update_of_ne hji ..).trans hjv⟩
  · intro j v hj
    obtain ⟨hvw, hj⟩ := hcases hj
    exact (congrArg WorkerPhase.present (Function.update_of_ne hvw ..)).trans (hS.present hj)
  · intro j k v hj hk
    exact hS.inj (hcases hj).2 (hcases hk).2

/-- There are no more threads than slots. -/
theorem count_le (hS : s.Slotted) (hmax : 0 ≤ s.pool.maxNum) :
    s.count WorkerPhase.present ≤ s.pool.maxNum := by
  have hsub : ((Finset.range s.created).filter fun w => (s.workers w).present = true).image some ⊆
      (Finset.range s.pool.maxNum.toNat).image s.pool.threadIDs := by
    intro x hx
    obtain ⟨w, hw, rfl⟩ := Finset.mem_image.mp hx
    obtain ⟨i, hi, hids⟩ := hS.slot w (Finset.mem_filter.mp hw).2
    exact Finset.mem_image.mpr ⟨i, Finset.mem_range.mpr hi, hids⟩
  have hcard := (Finset.card_le_card hsub).trans Finset.card_image_le
  rw [Finset.card_image_of_injective _ (Option.some_injective ℕ), Finset.card_range] at hcard
  rw [count, census_eq_card]
  omega

variable [DecidableEq ι]

/-- **A step keeps the slots**. -/
theorem step (hS : s.Slotted) (h : s.Step e s') : s'.Slotted := by
  have hF := hS.fresh.step h
  cases h with
  | added _ _ hr hworkers =>
    obtain ⟨-, rfl⟩ := threadPoolAdd_eq_done hr
    exact hS.signal hF ⟨rfl, rfl⟩ hworkers
  | wait hr =>
    obtain ⟨phase, rfl, -, -, -, hp⟩ := hr.running
    obtain ⟨-, e, rfl⟩ := hr.wait
    exact hS.update hF hp ⟨rfl, rfl⟩ rfl
  | take hr _ =>
    obtain ⟨phase, rfl, -, -, -, hp⟩ := hr.running
    obtain ⟨-, -, e, rfl⟩ := hr.take
    exact hS.update hF hp ⟨rfl, rfl⟩ rfl
  | exit hr =>
    obtain ⟨phase, rfl, -, -, -, hp⟩ := hr.running
    rcases hr.exit with ⟨-, e, rfl⟩ | ⟨-, rfl⟩
    · exact hS.update hF hp ⟨rfl, rfl⟩ rfl
    · exact hS.update hF hp ⟨rfl, rfl⟩ rfl
  | busy hphase => exact hS.update hF (by rw [hphase]; rfl) ⟨rfl, rfl⟩ rfl
  | idle hphase => exact hS.update hF (by rw [hphase]; rfl) ⟨rfl, rfl⟩ rfl
  | gone hphase => exact hS.gone hF hphase rfl
  | spurious hphase => exact hS.update hF (by rw [hphase]; rfl) ⟨rfl, rfl⟩ rfl
  | managerGrow =>
    obtain ⟨-, hslot, hpresent, hinj⟩ := hS.grow _ _
    exact ⟨hF, hslot, hpresent, hinj⟩
  | managerSignal _ hworkers => exact hS.signal hF ⟨rfl, rfl⟩ hworkers
  | _ => exact ⟨hF, hS.slot, hS.present, hS.inj⟩

end PoolState.Slotted

variable [DecidableEq ι]

/-- **The threads are accounted for**, in every state that the threads of a pool reach: `busyNum`
is the number of the busy workers and, until the shutdown, `liveNum` that of those that are not to
exit. The slots hold the workers that exist, each in one of them, so that there are never more than
`maxNum`. -/
theorem threads_accounted (hmin : 0 ≤ min) (hmax : min ≤ max) (hcapacity : 0 < capacity)
    (h : Trace PoolState.Step (PoolState.init (threadPoolCreate min max capacity taskQ) :
      PoolState ι τ) es s) :
    s.pool.busyNum = s.count WorkerPhase.isBusy ∧
      (s.pool.shutdown = false → s.pool.liveNum = s.count WorkerPhase.isLive) ∧
        (∀ w, (s.workers w).present = true ↔
          ∃ i < max.toNat, s.pool.threadIDs i = some w) ∧
          (∀ i j w, s.pool.threadIDs i = some w → s.pool.threadIDs j = some w → i = j) ∧
            s.count WorkerPhase.present ≤ max := by
  have hC : s.Counted := h.invariant (.init hmin) fun hC hs => hC.step hs
  have hS : s.Slotted := h.invariant (.init hmax) fun hS hs => hS.step hs
  have hmaxNum := (bounded_of_trace hmax hcapacity h).1.maxNum
  rw [← hmaxNum]
  refine ⟨hC.busy, hC.live, ?_, fun i j w => hS.inj, hS.count_le (by omega)⟩
  intro w
  constructor
  · exact hS.slot w
  · rintro ⟨i, -, hi⟩
    exact hS.present hi

theorem threads_accounted_busy : ∃ es, ∃ s : PoolState Unit ℕ,
    Trace PoolState.Step (PoolState.init (threadPoolCreate 1 2 4 fun _ => 0)) es s ∧
      s.pool.busyNum = 1 ∧ s.pool.busyNum = s.count WorkerPhase.isBusy ∧
        (s.pool.shutdown = false → s.pool.liveNum = s.count WorkerPhase.isLive) ∧
          (∀ w, (s.workers w).present = true ↔
            ∃ i < (2 : ℤ).toNat, s.pool.threadIDs i = some w) ∧
            (∀ i j w, s.pool.threadIDs i = some w → s.pool.threadIDs j = some w → i = j) ∧
              s.count WorkerPhase.present ≤ 2 := by
  have hcall : Trace PoolState.Step
      (PoolState.init (threadPoolCreate 1 2 4 fun _ => 0) : PoolState Unit ℕ) [.call () 7] _ :=
    .single (.call rfl)
  have hadded := hcall.step (e := .added () 7)
    (.added (.inl rfl) rfl rfl ((PoolState.Fresh.trace hcall).signal_none (by decide)))
  have htake := hadded.step (e := .take 0 7) <|
    .take (.inl ⟨rfl, rfl⟩) (.inr ⟨by rintro ⟨⟩; decide, rfl⟩)
  have hbusy := htake.step (e := .busy 0) (.busy rfl)
  exact ⟨_, _, hbusy, rfl, threads_accounted (by decide) (by decide) (by decide) hbusy⟩

end Adrift
