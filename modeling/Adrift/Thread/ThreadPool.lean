import Adrift.Lib.ConditionVariable
import Adrift.Lib.RingBuffer
import Adrift.Lib.Transition

/-!
# The thread pool

`thread/threadpool.c`: threads add tasks to a ring buffer, workers take them, and a manager creates
workers and makes idle ones exit. Every critical section of `mutexPool` is one step, and so is every
one of `mutexBusy`. Threads wait on `notFull` and `notEmpty`, and may also wake up without a signal.

Of `threadPoolDestroy` there is the flag that it sets.

## Main definitions

* `ThreadPool`, `threadPoolCreate`, `threadPoolAdd`, `workerTest`, `workerRetest`, `managerGrows`,
  `managerShrinks`, `threadExit`: the pool, and the critical sections
* `PoolState`: the pool, and what the threads are doing
* `PoolState.Step`: the steps of the threads, in any order

## Main results

* `threadPoolAdd_eq_done`, `WorkerRuns.wait`, `WorkerRuns.take`, `WorkerRuns.exit`: what the
  critical sections do
* `PoolState.createWorkers_induction`: what the creation of a worker keeps, the manager's loop keeps
-/

namespace Adrift

open ConditionVariable

/-! ## The critical sections -/

/-- `ThreadPool`, without its mutexes and its condition variables. A slot of `threadIDs` without a
thread has the id zero. -/
structure ThreadPool (τ : Type) where
  taskQ : ℤ → τ
  queueCapacity : ℤ
  queueSize : ℤ
  queueFront : ℤ
  queueRear : ℤ
  threadIDs : ℕ → Option ℕ
  minNum : ℤ
  maxNum : ℤ
  busyNum : ℤ
  liveNum : ℤ
  exitNum : ℤ
  shutdown : Bool

/-- `NUMBER`: as many workers are created, or made to exit, in one round. -/
def number : ℕ := 2

variable {τ : Type}

/-- `threadPoolCreate`. The cells of the task queue hold what `malloc` has found there. -/
def threadPoolCreate (min max queueCapacity : ℤ) (taskQ : ℤ → τ) : ThreadPool τ where
  taskQ := taskQ
  queueCapacity := queueCapacity
  queueSize := 0
  queueFront := 0
  queueRear := 0
  threadIDs i := if i < min.toNat then some i else none
  minNum := min
  maxNum := max
  busyNum := 0
  liveNum := min
  exitNum := 0
  shutdown := false

/-- What a test of `threadPoolAdd` comes to. -/
inductive AddResult (τ : Type)
  | wait
  | refused
  | done (pool : ThreadPool τ)

/-- A test of `threadPoolAdd`. After `done`, `notEmpty` is signalled. -/
def threadPoolAdd (pool : ThreadPool τ) (task : τ) : AddResult τ :=
  if pool.queueSize = pool.queueCapacity ∧ pool.shutdown = false then .wait
  else if pool.shutdown = true then .refused
  else .done { pool with
    taskQ := Function.update pool.taskQ pool.queueRear task
    queueRear := (pool.queueRear + 1) % pool.queueCapacity
    queueSize := pool.queueSize + 1 }

/-- What a test of a worker comes to. -/
inductive WorkerResult (τ : Type)
  | wait
  | exit
  | take (task : τ)

/-- A test of `worker`. After `take`, `notFull` is signalled. -/
def workerTest (pool : ThreadPool τ) : ThreadPool τ × WorkerResult τ :=
  if pool.queueSize = 0 ∧ pool.shutdown = false then (pool, .wait)
  else if pool.shutdown = true then (pool, .exit)
  else ({ pool with
    queueFront := (pool.queueFront + 1) % pool.queueCapacity
    queueSize := pool.queueSize - 1 }, .take (pool.taskQ pool.queueFront))

/-- `worker` after a wait: it may have to exit, and tests the queue otherwise. -/
def workerRetest (pool : ThreadPool τ) : ThreadPool τ × WorkerResult τ :=
  if 0 < pool.exitNum then
    let pool := { pool with exitNum := pool.exitNum - 1 }
    if pool.minNum < pool.liveNum then ({ pool with liveNum := pool.liveNum - 1 }, .exit)
    else workerTest pool
  else workerTest pool

/-- `threadExit`: the slot of the thread is cleared. -/
def threadExit (pool : ThreadPool τ) (tid : ℕ) : ThreadPool τ :=
  match (List.range pool.maxNum.toNat).find? fun i => pool.threadIDs i = some tid with
  | none => pool
  | some i => { pool with threadIDs := Function.update pool.threadIDs i none }

/-- The manager's test for more workers, of the numbers it has read. -/
def managerGrows (pool : ThreadPool τ) (queueSize liveNum : ℤ) : Bool :=
  liveNum < queueSize ∧ liveNum < pool.maxNum

/-- The manager's test for fewer workers, of the numbers it has read. -/
def managerShrinks (pool : ThreadPool τ) (liveNum busyNum : ℤ) : Bool :=
  busyNum * 2 < liveNum ∧ pool.minNum < liveNum

/-! ## The threads -/

/-- **What a worker is doing**: before its creation, before it locks the mutex, asleep on
`notEmpty`, woken and before its next test, with a task before and after it is counted as busy,
and before and after it clears its slot. -/
inductive WorkerPhase (τ : Type)
  | absent
  | ready
  | asleep
  | woken
  | took (task : τ)
  | busy (task : τ)
  | exiting
  | gone
  deriving DecidableEq

/-- What a thread is doing that adds tasks: it is outside `threadPoolAdd`, or before its first test,
asleep on `notFull`, or woken and before its next test. -/
inductive AddPhase
  | outside
  | called
  | asleep
  | woken
  deriving DecidableEq

/-- **What the manager is doing**: it is to test for the end, asleep, has read two numbers, three,
has created workers, has signals left to send, or has ended. -/
inductive ManagerPhase
  | test
  | asleep
  | sized (queueSize liveNum : ℤ)
  | counted (queueSize liveNum busyNum : ℤ)
  | grown (liveNum busyNum : ℤ)
  | signals (n : ℕ)
  | ended

/-- The pool, and what the threads are doing. The workers are numbered in the order of their
creation; `tasks` are those that the threads have called `threadPoolAdd` with. -/
structure PoolState (ι τ : Type) where
  pool : ThreadPool τ
  manager : ManagerPhase
  created : ℕ
  workers : ℕ → WorkerPhase τ
  adds : ι → AddPhase
  tasks : ι → Option τ

variable {ι : Type}

/-- The threads of a pool just created. -/
def PoolState.init (pool : ThreadPool τ) : PoolState ι τ where
  pool := pool
  manager := .test
  created := pool.minNum.toNat
  workers w := if w < pool.minNum.toNat then .ready else .absent
  adds _ := .outside
  tasks _ := none

/-- A worker is created for the slot `i`. -/
def PoolState.createWorker (s : PoolState ι τ) (i : ℕ) : PoolState ι τ :=
  { s with
    pool := { s.pool with
      threadIDs := Function.update s.pool.threadIDs i (some s.created)
      liveNum := s.pool.liveNum + 1 }
    created := s.created + 1
    workers := Function.update s.workers s.created .ready }

/-- The manager's loop over the slots `is`. -/
def PoolState.createWorkers (s : PoolState ι τ) (counter : ℕ) : List ℕ → PoolState ι τ
  | [] => s
  | i :: is =>
    if counter < number ∧ s.pool.liveNum < s.pool.maxNum then
      if s.pool.threadIDs i = none then (s.createWorker i).createWorkers (counter + 1) is
      else s.createWorkers counter is
    else s

/-- The manager's section that creates workers, when its test says so. -/
def PoolState.grow (s : PoolState ι τ) (queueSize liveNum : ℤ) : PoolState ι τ :=
  if managerGrows s.pool queueSize liveNum then
    s.createWorkers 0 (List.range s.pool.maxNum.toNat)
  else s

/-- The events of the threads. -/
inductive PoolEvent (ι τ : Type)
  | call (i : ι) (task : τ)
  | addWait (i : ι)
  | added (i : ι) (task : τ)
  | refused (i : ι)
  | wait (w : ℕ)
  | take (w : ℕ) (task : τ)
  | exit (w : ℕ)
  | busy (w : ℕ)
  | idle (w : ℕ)
  | gone (w : ℕ)
  | spurious (w : ℕ)
  | spuriousAdd (i : ι)
  | manager
  | shutdown

/-- The critical section of the worker `w`, before its first wait or after a wait. -/
def PoolState.WorkerRuns (s : PoolState ι τ) (w : ℕ) (r : ThreadPool τ × WorkerResult τ) : Prop :=
  s.workers w = .ready ∧ workerTest s.pool = r ∨ s.workers w = .woken ∧ workerRetest s.pool = r

/-- **The steps of the threads**. -/
inductive PoolState.Step [DecidableEq ι] : PoolState ι τ → PoolEvent ι τ → PoolState ι τ → Prop
  | call {s : PoolState ι τ} {i : ι} {task : τ} (hphase : s.adds i = .outside) :
      Step s (.call i task)
        { s with
          adds := Function.update s.adds i .called
          tasks := Function.update s.tasks i (some task) }
  | addWait {s : PoolState ι τ} {i : ι} {task : τ}
      (hphase : s.adds i = .called ∨ s.adds i = .woken) (htask : s.tasks i = some task)
      (hr : threadPoolAdd s.pool task = .wait) :
      Step s (.addWait i) { s with adds := Function.update s.adds i .asleep }
  | added {s : PoolState ι τ} {i : ι} {task : τ} {pool : ThreadPool τ}
      {workers : ℕ → WorkerPhase τ} (hphase : s.adds i = .called ∨ s.adds i = .woken)
      (htask : s.tasks i = some task) (hr : threadPoolAdd s.pool task = .done pool)
      (hworkers : Signal .asleep .woken s.workers workers) :
      Step s (.added i task)
        { s with pool := pool, workers := workers, adds := Function.update s.adds i .outside }
  | refused {s : PoolState ι τ} {i : ι} {task : τ}
      (hphase : s.adds i = .called ∨ s.adds i = .woken) (htask : s.tasks i = some task)
      (hr : threadPoolAdd s.pool task = .refused) :
      Step s (.refused i) { s with adds := Function.update s.adds i .outside }
  | wait {s : PoolState ι τ} {w : ℕ} {pool : ThreadPool τ} (hr : s.WorkerRuns w (pool, .wait)) :
      Step s (.wait w)
        { s with pool := pool, workers := Function.update s.workers w .asleep }
  | take {s : PoolState ι τ} {w : ℕ} {task : τ} {pool : ThreadPool τ} {adds : ι → AddPhase}
      (hr : s.WorkerRuns w (pool, .take task)) (hadds : Signal .asleep .woken s.adds adds) :
      Step s (.take w task)
        { s with pool := pool, workers := Function.update s.workers w (.took task), adds := adds }
  | exit {s : PoolState ι τ} {w : ℕ} {pool : ThreadPool τ} (hr : s.WorkerRuns w (pool, .exit)) :
      Step s (.exit w)
        { s with pool := pool, workers := Function.update s.workers w .exiting }
  | busy {s : PoolState ι τ} {w : ℕ} {task : τ} (hphase : s.workers w = .took task) :
      Step s (.busy w)
        { s with
          pool := { s.pool with busyNum := s.pool.busyNum + 1 }
          workers := Function.update s.workers w (.busy task) }
  | idle {s : PoolState ι τ} {w : ℕ} {task : τ} (hphase : s.workers w = .busy task) :
      Step s (.idle w)
        { s with
          pool := { s.pool with busyNum := s.pool.busyNum - 1 }
          workers := Function.update s.workers w .ready }
  | gone {s : PoolState ι τ} {w : ℕ} (hphase : s.workers w = .exiting) :
      Step s (.gone w)
        { s with pool := threadExit s.pool w, workers := Function.update s.workers w .gone }
  | spurious {s : PoolState ι τ} {w : ℕ} (hphase : s.workers w = .asleep) :
      Step s (.spurious w) { s with workers := Function.update s.workers w .woken }
  | spuriousAdd {s : PoolState ι τ} {i : ι} (hphase : s.adds i = .asleep) :
      Step s (.spuriousAdd i) { s with adds := Function.update s.adds i .woken }
  | managerSleep {s : PoolState ι τ} (hphase : s.manager = .test)
      (hshutdown : s.pool.shutdown = false) : Step s .manager { s with manager := .asleep }
  | managerEnd {s : PoolState ι τ} (hphase : s.manager = .test)
      (hshutdown : s.pool.shutdown = true) : Step s .manager { s with manager := .ended }
  | managerSize {s : PoolState ι τ} (hphase : s.manager = .asleep) :
      Step s .manager { s with manager := .sized s.pool.queueSize s.pool.liveNum }
  | managerCount {s : PoolState ι τ} {queueSize liveNum : ℤ}
      (hphase : s.manager = .sized queueSize liveNum) :
      Step s .manager { s with manager := .counted queueSize liveNum s.pool.busyNum }
  | managerGrow {s : PoolState ι τ} {queueSize liveNum busyNum : ℤ}
      (hphase : s.manager = .counted queueSize liveNum busyNum) :
      Step s .manager { s.grow queueSize liveNum with manager := .grown liveNum busyNum }
  | managerShrink {s : PoolState ι τ} {liveNum busyNum : ℤ}
      (hphase : s.manager = .grown liveNum busyNum)
      (hshrinks : managerShrinks s.pool liveNum busyNum = true) :
      Step s .manager
        { s with pool := { s.pool with exitNum := number }, manager := .signals number }
  | managerKeep {s : PoolState ι τ} {liveNum busyNum : ℤ}
      (hphase : s.manager = .grown liveNum busyNum)
      (hkeeps : managerShrinks s.pool liveNum busyNum = false) :
      Step s .manager { s with manager := .test }
  | managerSignal {s : PoolState ι τ} {n : ℕ} {workers : ℕ → WorkerPhase τ}
      (hphase : s.manager = .signals (n + 1))
      (hworkers : Signal .asleep .woken s.workers workers) :
      Step s .manager { s with workers := workers, manager := .signals n }
  | managerLoop {s : PoolState ι τ} (hphase : s.manager = .signals 0) :
      Step s .manager { s with manager := .test }
  | shutdown {s : PoolState ι τ} :
      Step s .shutdown { s with pool := { s.pool with shutdown := true } }

/-! ## What the critical sections do -/

variable {s s' : PoolState ι τ} {pool pool' : ThreadPool τ} {task : τ} {w i : ℕ}

/-- **A task is added** when there is room for it. -/
theorem threadPoolAdd_eq_done (hr : threadPoolAdd pool task = .done pool') :
    pool.queueSize ≠ pool.queueCapacity ∧ pool' = { pool with
      taskQ := Function.update pool.taskQ pool.queueRear task
      queueRear := (pool.queueRear + 1) % pool.queueCapacity
      queueSize := pool.queueSize + 1 } := by
  rw [threadPoolAdd] at hr
  split_ifs at hr with hfull hshutdown
  cases hr
  refine ⟨?_, rfl⟩
  intro hsize
  apply hfull
  exact ⟨hsize, by simpa using hshutdown⟩

/-- **What a test of a worker comes to**: it waits while the queue is empty, exits after the
shutdown, and takes the task at the front otherwise. -/
theorem workerTest_cases (pool : ThreadPool τ) :
    workerTest pool = (pool, .wait) ∧ pool.queueSize = 0 ∧ pool.shutdown = false ∨
      workerTest pool = (pool, .exit) ∧ pool.shutdown = true ∨
        workerTest pool = ({ pool with
          queueFront := (pool.queueFront + 1) % pool.queueCapacity
          queueSize := pool.queueSize - 1 }, .take (pool.taskQ pool.queueFront)) ∧
            pool.queueSize ≠ 0 := by
  rw [workerTest]
  split_ifs with hempty hshutdown
  · exact .inl ⟨rfl, hempty⟩
  · exact .inr (.inl ⟨rfl, hshutdown⟩)
  · refine .inr (.inr ⟨rfl, ?_⟩)
    intro hsize
    apply hempty
    exact ⟨hsize, by simpa using hshutdown⟩

/-- **A test that takes a task** takes the one at the front. -/
theorem workerTest_eq_take (hr : workerTest pool = (pool', .take task)) :
    pool.queueSize ≠ 0 ∧ task = pool.taskQ pool.queueFront ∧ pool' = { pool with
      queueFront := (pool.queueFront + 1) % pool.queueCapacity
      queueSize := pool.queueSize - 1 } := by
  rcases workerTest_cases pool with ⟨hw, -⟩ | ⟨hw, -⟩ | ⟨hw, hsize⟩
  · cases hw.symm.trans hr
  · cases hw.symm.trans hr
  · cases hw.symm.trans hr
    exact ⟨hsize, rfl, rfl⟩

/-- **After a wait** a worker exits when it has to and there are others enough, and tests the queue
otherwise. -/
theorem workerRetest_cases (pool : ThreadPool τ) :
    (∃ e, workerRetest pool = workerTest { pool with exitNum := e }) ∨
      workerRetest pool =
          ({ pool with exitNum := pool.exitNum - 1, liveNum := pool.liveNum - 1 }, .exit) ∧
        0 < pool.exitNum ∧ pool.minNum < pool.liveNum := by
  rw [workerRetest]
  split_ifs with hexit
  · dsimp only
    split_ifs with hlive
    · exact .inr ⟨rfl, hexit, hlive⟩
    · exact .inl ⟨_, rfl⟩
  · exact .inl ⟨pool.exitNum, rfl⟩

namespace PoolState.WorkerRuns

/-- A worker tests the queue, or it was woken to exit. -/
theorem test_or_exit {r : WorkerResult τ} (h : s.WorkerRuns w (pool, r)) :
    (∃ e, workerTest { s.pool with exitNum := e } = (pool, r)) ∨
      s.workers w = .woken ∧ r = .exit ∧ s.pool.minNum < s.pool.liveNum ∧ pool = { s.pool with
        exitNum := s.pool.exitNum - 1
        liveNum := s.pool.liveNum - 1 } := by
  rcases h with ⟨-, h⟩ | ⟨hphase, h⟩
  · exact .inl ⟨s.pool.exitNum, h⟩
  · rcases workerRetest_cases s.pool with ⟨e, he⟩ | ⟨he, -, hlive⟩
    · exact .inl ⟨e, he.symm.trans h⟩
    · cases he.symm.trans h
      exact .inr ⟨hphase, rfl, hlive, rfl⟩

/-- **A worker waits** only while the queue is empty. -/
theorem wait (h : s.WorkerRuns w (pool, .wait)) :
    s.pool.queueSize = 0 ∧ ∃ e, pool = { s.pool with exitNum := e } := by
  rcases h.test_or_exit with ⟨e, he⟩ | ⟨-, hr, -⟩
  · rcases workerTest_cases { s.pool with exitNum := e } with ⟨hw, hempty, -⟩ | ⟨hw, -⟩ | ⟨hw, -⟩
    · cases hw.symm.trans he
      exact ⟨hempty, e, rfl⟩
    · cases hw.symm.trans he
    · cases hw.symm.trans he
  · cases hr

/-- **A worker takes** the task at the front. -/
theorem take (h : s.WorkerRuns w (pool, .take task)) :
    s.pool.queueSize ≠ 0 ∧ task = s.pool.taskQ s.pool.queueFront ∧ ∃ e, pool = { s.pool with
      exitNum := e
      queueFront := (s.pool.queueFront + 1) % s.pool.queueCapacity
      queueSize := s.pool.queueSize - 1 } := by
  rcases h.test_or_exit with ⟨e, he⟩ | ⟨-, hr, -⟩
  · obtain ⟨hsize, htask, rfl⟩ := workerTest_eq_take he
    exact ⟨hsize, htask, e, rfl⟩
  · cases hr

/-- **A worker exits** after the shutdown, or when it was woken and there are others enough. -/
theorem exit (h : s.WorkerRuns w (pool, .exit)) :
    s.pool.shutdown = true ∧ (∃ e, pool = { s.pool with exitNum := e }) ∨
      s.pool.minNum < s.pool.liveNum ∧ pool = { s.pool with
        exitNum := s.pool.exitNum - 1
        liveNum := s.pool.liveNum - 1 } := by
  rcases h.test_or_exit with ⟨e, he⟩ | ⟨-, -, hlive, hpool⟩
  · rcases workerTest_cases { s.pool with exitNum := e } with ⟨hw, -⟩ | ⟨hw, hshutdown⟩ | ⟨hw, -⟩
    · cases hw.symm.trans he
    · cases hw.symm.trans he
      exact .inl ⟨hshutdown, e, rfl⟩
    · cases hw.symm.trans he
  · exact .inr ⟨hlive, hpool⟩

end PoolState.WorkerRuns

/-- **The manager's loop keeps** what the creation of a worker keeps. -/
theorem PoolState.createWorkers_induction {P : PoolState ι τ → Prop}
    (hP : ∀ {s} (i : ℕ), s.pool.liveNum < s.pool.maxNum → P s → P (s.createWorker i))
    (counter : ℕ) (is : List ℕ) (hs : P s) : P (s.createWorkers counter is) := by
  induction is generalizing s counter with
  | nil => exact hs
  | cons i is ih =>
    rw [createWorkers]
    split_ifs with hcounter hslot
    · exact ih _ (hP i hcounter.2 hs)
    · exact ih _ hs
    · exact hs

theorem PoolState.grow_induction {P : PoolState ι τ → Prop}
    (hP : ∀ {s} (i : ℕ), s.pool.liveNum < s.pool.maxNum → P s → P (s.createWorker i))
    (queueSize liveNum : ℤ) (hs : P s) : P (s.grow queueSize liveNum) := by
  rw [grow]
  split_ifs
  · exact createWorkers_induction hP _ _ hs
  · exact hs

/-- **Workers are created in order**: those to come do nothing yet. -/
def PoolState.Fresh (s : PoolState ι τ) : Prop := ∀ w, s.created ≤ w → s.workers w = .absent

namespace PoolState.Fresh

theorem init (pool : ThreadPool τ) : (PoolState.init pool : PoolState ι τ).Fresh :=
  fun _ hw => if_neg (not_lt.mpr hw)

/-- What holds of the workers created so far, and before the creation, holds of all. -/
theorem forall_workers (hF : s.Fresh) {P : WorkerPhase τ → Prop} (habsent : P .absent)
    (hP : ∀ w < s.created, P (s.workers w)) (w : ℕ) : P (s.workers w) := by
  rcases lt_or_ge w s.created with hw | hw
  · exact hP w hw
  · rwa [hF w hw]

/-- A signal while nobody sleeps. -/
theorem signal_none (hF : s.Fresh) (hnone : ∀ w < s.created, s.workers w ≠ .asleep) :
    Signal .asleep .woken s.workers s.workers :=
  .inr ⟨hF.forall_workers (P := (· ≠ .asleep)) (by rintro ⟨⟩) hnone, rfl⟩

/-- A worker that goes on was created. -/
theorem update (hF : s.Fresh) {phase phase' : WorkerPhase τ} (hw : s.workers w = phase)
    (hphase : phase ≠ .absent) (v : ℕ) (hv : s.created ≤ v) :
    Function.update s.workers w phase' v = .absent := by
  have hne : v ≠ w := by
    rintro rfl
    exact hphase (hw.symm.trans (hF v hv))
  rw [Function.update_of_ne hne, hF v hv]

theorem signal (hF : s.Fresh) {workers : ℕ → WorkerPhase τ}
    (h : Signal .asleep .woken s.workers workers) (v : ℕ) (hv : s.created ≤ v) :
    workers v = .absent := by
  rcases h.apply v with he | ⟨hasleep, -⟩
  · rw [he, hF v hv]
  · cases hasleep.symm.trans (hF v hv)

theorem createWorker (hF : s.Fresh) (i : ℕ) : (s.createWorker i).Fresh := by
  intro v hv
  have hne : v ≠ s.created := Nat.ne_of_gt hv
  exact (Function.update_of_ne hne ..).trans (hF v (Nat.le_of_succ_le hv))

theorem runs (hF : s.Fresh) {r : ThreadPool τ × WorkerResult τ} (hr : s.WorkerRuns w r)
    {phase : WorkerPhase τ} (v : ℕ) (hv : s.created ≤ v) :
    Function.update s.workers w phase v = .absent := by
  rcases hr with ⟨hw, -⟩ | ⟨hw, -⟩
  · exact hF.update hw (by rintro ⟨⟩) v hv
  · exact hF.update hw (by rintro ⟨⟩) v hv

variable [DecidableEq ι]

theorem step {e : PoolEvent ι τ} (hF : s.Fresh) (h : s.Step e s') : s'.Fresh := by
  cases h with
  | added _ _ _ hworkers => exact hF.signal hworkers
  | wait hr => exact hF.runs hr
  | take hr _ => exact hF.runs hr
  | exit hr => exact hF.runs hr
  | busy hphase => exact hF.update hphase (by rintro ⟨⟩)
  | idle hphase => exact hF.update hphase (by rintro ⟨⟩)
  | gone hphase => exact hF.update hphase (by rintro ⟨⟩)
  | spurious hphase => exact hF.update hphase (by rintro ⟨⟩)
  | managerGrow => exact PoolState.grow_induction (fun i _ hF => hF.createWorker i) _ _ hF
  | managerSignal _ hworkers => exact hF.signal hworkers
  | _ => exact hF

theorem trace {es : List (PoolEvent ι τ)} (h : Transition.Trace Step (PoolState.init pool) es s) :
    s.Fresh := h.invariant (init pool) fun hF hs => hF.step hs

end PoolState.Fresh

theorem threadExit_eq (pool : ThreadPool τ) (tid : ℕ) :
    ∃ ids, threadExit pool tid = { pool with threadIDs := ids } := by
  rw [threadExit]
  split
  · exact ⟨pool.threadIDs, rfl⟩
  · exact ⟨_, rfl⟩

end Adrift
