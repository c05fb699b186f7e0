import Adrift.Thread.ThreadPool

/-!
# The task queue

The tasks that were accepted are those that workers have taken, in the same order, and those that
stand in the queue. The manager keeps the number of live workers between the bounds of the pool.

## Main definitions

* `accepted`, `taken`: the tasks that a run has added to the queue, and taken from it
* `ThreadPool.Bounded pool min max capacity`: the queue is a ring of its capacity, and the number of
  live workers is in its bounds

## Main results

* `PoolState.Step.bounded`: what a step does to the bounds and the queue
* `taskQueue_inRange`: the cells of the task queue are accessed inside its capacity
* `taskQueue_fifo`: the tasks and the bounds, in every state that is reached
-/

namespace Adrift

open ConditionVariable RingBuffer Transition

variable {ι τ : Type}

/-- The task that an event adds to the queue. -/
def PoolEvent.acceptedTask : PoolEvent ι τ → Option τ
  | .added _ task => some task
  | _ => none

/-- The task that an event takes from the queue. -/
def PoolEvent.takenTask : PoolEvent ι τ → Option τ
  | .take _ task => some task
  | _ => none

/-- **The tasks accepted** by `threadPoolAdd`, in order. -/
def accepted (es : List (PoolEvent ι τ)) : List τ := es.filterMap PoolEvent.acceptedTask

/-- **The tasks taken** by workers, in order. -/
def taken (es : List (PoolEvent ι τ)) : List τ := es.filterMap PoolEvent.takenTask

theorem accepted_append (es fs : List (PoolEvent ι τ)) :
    accepted (es ++ fs) = accepted es ++ accepted fs := List.filterMap_append

theorem taken_append (es fs : List (PoolEvent ι τ)) : taken (es ++ fs) = taken es ++ taken fs :=
  List.filterMap_append

/-- The tasks in the queue, from the front on. -/
def ThreadPool.tasks (pool : ThreadPool τ) : List τ :=
  contents pool.taskQ pool.queueCapacity pool.queueFront pool.queueSize

/-- **The queue is a ring of its capacity, and the number of live workers is in its bounds**. -/
structure ThreadPool.Bounded (pool : ThreadPool τ) (min max capacity : ℤ) : Prop where
  minNum : pool.minNum = min
  maxNum : pool.maxNum = max
  queueCapacity : pool.queueCapacity = capacity
  ring : IsRing pool.queueCapacity pool.queueFront pool.queueRear pool.queueSize
  min_le : min ≤ pool.liveNum
  le_max : pool.liveNum ≤ max

variable {min max capacity : ℤ} {taskQ : ℤ → τ} {pool pool' : ThreadPool τ} {task : τ} {w i : ℕ}
  {s s' : PoolState ι τ} {e : PoolEvent ι τ} {es : List (PoolEvent ι τ)}

namespace ThreadPool.Bounded

theorem create (hmax : min ≤ max) (hcapacity : 0 < capacity) (taskQ : ℤ → τ) :
    (threadPoolCreate min max capacity taskQ).Bounded min max capacity where
  minNum := rfl
  maxNum := rfl
  queueCapacity := rfl
  ring := .empty hcapacity
  min_le := le_rfl
  le_max := hmax

/-- **An accepted task** is written at the rear. -/
theorem add (hB : pool.Bounded min max capacity) (hr : threadPoolAdd pool task = .done pool') :
    pool'.Bounded min max capacity ∧ pool'.tasks = pool.tasks ++ [task] := by
  obtain ⟨hfull, rfl⟩ := threadPoolAdd_eq_done hr
  have hroom := lt_of_le_of_ne hB.ring.size_le hfull
  exact ⟨{ hB with ring := hB.ring.push hroom }, hB.ring.contents_push hroom task⟩

theorem wait (hB : s.pool.Bounded min max capacity) (hr : s.WorkerRuns w (pool, .wait)) :
    pool.Bounded min max capacity ∧ pool.tasks = s.pool.tasks := by
  obtain ⟨-, e, rfl⟩ := hr.wait
  exact ⟨{ hB with }, rfl⟩

/-- **A task that is taken** was the first one. -/
theorem take (hB : s.pool.Bounded min max capacity) (hr : s.WorkerRuns w (pool, .take task)) :
    pool.Bounded min max capacity ∧ s.pool.tasks = task :: pool.tasks := by
  obtain ⟨hsize, rfl, e, rfl⟩ := hr.take
  have hpos := lt_of_le_of_ne hB.ring.size_nonneg hsize.symm
  exact ⟨{ hB with ring := hB.ring.pop hpos }, hB.ring.contents_pop hpos⟩

/-- The same for a worker whose test is over. -/
theorem takeTest (hB : pool.Bounded min max capacity)
    (hr : workerTest pool = (pool', .take task)) :
    pool'.Bounded min max capacity ∧ pool.tasks = task :: pool'.tasks := by
  obtain ⟨hsize, rfl, rfl⟩ := workerTest_eq_take hr
  have hpos := lt_of_le_of_ne hB.ring.size_nonneg hsize.symm
  exact ⟨{ hB with ring := hB.ring.pop hpos }, hB.ring.contents_pop hpos⟩

/-- **A worker exits** only while there are more than the least number. -/
theorem exit (hB : s.pool.Bounded min max capacity) (hr : s.WorkerRuns w (pool, .exit)) :
    pool.Bounded min max capacity ∧ pool.tasks = s.pool.tasks := by
  rcases hr.exit with ⟨-, e, rfl⟩ | ⟨hlive, rfl⟩
  · exact ⟨{ hB with }, rfl⟩
  · have hmin := hB.minNum
    have hmax := hB.le_max
    exact ⟨{ hB with
      min_le := show min ≤ s.pool.liveNum - 1 by omega
      le_max := show s.pool.liveNum - 1 ≤ max by omega }, rfl⟩

/-- **A worker is created** only while there are fewer than the greatest number. -/
theorem grow (hB : s.pool.Bounded min max capacity) (queueSize liveNum : ℤ) :
    (s.grow queueSize liveNum).pool.Bounded min max capacity ∧
      (s.grow queueSize liveNum).pool.tasks = s.pool.tasks := by
  refine PoolState.grow_induction
    (P := fun s' => s'.pool.Bounded min max capacity ∧ s'.pool.tasks = s.pool.tasks) ?_ _ _
    ⟨hB, rfl⟩
  rintro s' i hlive ⟨hB', htasks⟩
  have hmin := hB'.min_le
  have hmax := hB'.maxNum
  exact ⟨{ hB' with
    min_le := show min ≤ s'.pool.liveNum + 1 by omega
    le_max := show s'.pool.liveNum + 1 ≤ max by omega }, htasks⟩

theorem gone (hB : pool.Bounded min max capacity) (tid : ℕ) :
    (threadExit pool tid).Bounded min max capacity ∧ (threadExit pool tid).tasks = pool.tasks := by
  obtain ⟨ids, hids⟩ := threadExit_eq pool tid
  rw [hids]
  exact ⟨{ hB with }, rfl⟩

end ThreadPool.Bounded

variable [DecidableEq ι]

/-- **A step keeps the bounds**, and what it accepts is put behind the queue that it takes from. -/
theorem PoolState.Step.bounded (h : s.Step e s') (hB : s.pool.Bounded min max capacity) :
    s'.pool.Bounded min max capacity ∧
      s.pool.tasks ++ accepted [e] = taken [e] ++ s'.pool.tasks := by
  cases h with
  | added _ _ hr _ =>
    obtain ⟨hB', htasks⟩ := hB.add hr
    exact ⟨hB', htasks.symm⟩
  | wait hr =>
    obtain ⟨hB', htasks⟩ := hB.wait hr
    exact ⟨hB', (List.append_nil _).trans htasks.symm⟩
  | take hr _ =>
    obtain ⟨hB', htasks⟩ := hB.take hr
    exact ⟨hB', (List.append_nil _).trans htasks⟩
  | exit hr =>
    obtain ⟨hB', htasks⟩ := hB.exit hr
    exact ⟨hB', (List.append_nil _).trans htasks.symm⟩
  | @gone w hphase =>
    obtain ⟨hB', htasks⟩ := hB.gone w
    exact ⟨hB', (List.append_nil _).trans htasks.symm⟩
  | managerGrow hphase =>
    obtain ⟨hB', htasks⟩ := hB.grow _ _
    exact ⟨hB', (List.append_nil _).trans htasks.symm⟩
  | _ => exact ⟨{ hB with }, List.append_nil _⟩

/-- **Runs keep the bounds**, and the queue has the accepted tasks that are not yet taken. -/
theorem bounded_of_trace (hmax : min ≤ max) (hcapacity : 0 < capacity)
    (h : Trace PoolState.Step (PoolState.init (threadPoolCreate min max capacity taskQ) :
      PoolState ι τ) es s) :
    s.pool.Bounded min max capacity ∧ accepted es = taken es ++ s.pool.tasks := by
  induction h with
  | start => exact ⟨.create hmax hcapacity taskQ, rfl⟩
  | step _ hs ih =>
    obtain ⟨hB, htasks⟩ := ih
    obtain ⟨hB', hstep⟩ := hs.bounded hB
    refine ⟨hB', ?_⟩
    rw [accepted_append, htasks, taken_append, List.append_assoc, hstep, List.append_assoc]

/-- **The task queue is accessed inside its capacity**: so are the cell that is written next, and
the one that is read next. -/
theorem taskQueue_inRange (hmax : min ≤ max) (hcapacity : 0 < capacity)
    (h : Trace PoolState.Step (PoolState.init (threadPoolCreate min max capacity taskQ) :
      PoolState ι τ) es s) :
    (0 ≤ s.pool.queueRear ∧ s.pool.queueRear < capacity) ∧
      0 ≤ s.pool.queueFront ∧ s.pool.queueFront < capacity := by
  obtain ⟨hB, -⟩ := bounded_of_trace hmax hcapacity h
  rw [← hB.queueCapacity]
  exact ⟨⟨hB.ring.rear_nonneg, hB.ring.rear_lt⟩, hB.ring.front_nonneg, hB.ring.front_lt⟩

/-- **First come, first served**: after any run of the threads of a pool, the tasks taken by the
workers and those in the queue are the accepted ones, in order; the queue is a ring of its
capacity; and the number of live workers is in its bounds. -/
theorem taskQueue_fifo (hmax : min ≤ max) (hcapacity : 0 < capacity)
    (h : Trace PoolState.Step (PoolState.init (threadPoolCreate min max capacity taskQ) :
      PoolState ι τ) es s) :
    (0 ≤ s.pool.queueSize ∧ s.pool.queueSize ≤ s.pool.queueCapacity) ∧
      s.pool.queueRear = (s.pool.queueFront + s.pool.queueSize) % s.pool.queueCapacity ∧
        accepted es = taken es ++ s.pool.tasks ∧
          (s.pool.tasks.length : ℤ) = s.pool.queueSize ∧
            (s.pool.minNum ≤ s.pool.liveNum ∧ s.pool.liveNum ≤ s.pool.maxNum) ∧
              s.pool.queueCapacity = capacity ∧ s.pool.minNum = min ∧ s.pool.maxNum = max := by
  obtain ⟨hB, htasks⟩ := bounded_of_trace hmax hcapacity h
  refine ⟨⟨hB.ring.size_nonneg, hB.ring.size_le⟩, hB.ring.rear_eq, htasks,
    contents_length hB.ring.size_nonneg, ⟨?_, ?_⟩, hB.queueCapacity, hB.minNum, hB.maxNum⟩
  · rw [hB.minNum]
    exact hB.min_le
  · rw [hB.maxNum]
    exact hB.le_max

theorem taskQueue_fifo_woken : ∃ es, ∃ s : PoolState Unit ℕ,
    Trace PoolState.Step (PoolState.init (threadPoolCreate 2 3 4 fun _ => 0)) es s ∧
      accepted es = [7, 8] ∧ taken es = [7] ∧
      (0 ≤ s.pool.queueSize ∧ s.pool.queueSize ≤ s.pool.queueCapacity) ∧
        s.pool.queueRear = (s.pool.queueFront + s.pool.queueSize) % s.pool.queueCapacity ∧
          accepted es = taken es ++ s.pool.tasks ∧
            (s.pool.tasks.length : ℤ) = s.pool.queueSize ∧
              (s.pool.minNum ≤ s.pool.liveNum ∧ s.pool.liveNum ≤ s.pool.maxNum) ∧
                s.pool.queueCapacity = 4 ∧ s.pool.minNum = 2 ∧ s.pool.maxNum = 3 := by
  -- both workers sleep, and each task added wakes one of them
  have hwait : Trace PoolState.Step
      (PoolState.init (threadPoolCreate 2 3 4 fun _ => 0) : PoolState Unit ℕ) [.wait 0] _ :=
    .single (.wait (.inl ⟨rfl, rfl⟩))
  have hboth := hwait.step (e := .wait 1) (.wait (.inl ⟨rfl, rfl⟩))
  have hcall := hboth.step (e := .call () 7) (.call rfl)
  have hadded := hcall.step (e := .added () 7) (.added (.inl rfl) rfl rfl (.inl ⟨0, rfl, rfl⟩))
  have hagain := hadded.step (e := .call () 8) (.call rfl)
  have hfull := hagain.step (e := .added () 8) (.added (.inl rfl) rfl rfl (.inl ⟨1, rfl, rfl⟩))
  have htake := hfull.step (e := .take 0 7) <|
    .take (.inr ⟨rfl, rfl⟩) (.inr ⟨by rintro ⟨⟩; decide, rfl⟩)
  exact ⟨_, _, htake, rfl, rfl, taskQueue_fifo (by decide) (by decide) htake⟩

end Adrift
