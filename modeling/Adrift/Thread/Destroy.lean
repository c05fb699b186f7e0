import Adrift.Thread.Accounting

/-!
# The end of the thread pool

`threadPoolDestroy` sets the flag, waits for the manager, and sends as many signals as there are
live workers before it frees the pool. It holds no mutex: a thread that has tested the flag before
it was set goes on with its critical section, and sleeps, adds a task or takes one after that. And a
worker that wakes up may find an `exitNum` that the manager has left behind: it is not counted any
more when it exits, and the loop sends a signal less.

## Main definitions

* `DestroyState`, `ThreadPoolDestroy`, `DestroyState.Step`: `threadPoolDestroy` among the threads
* `DestroyState.Signals n m d`: what holds while the signals are sent
* `finished fs`: the section that was in progress when the flag was set, if it has ended

## Main results

* `PoolState.Step.quiet`: after the flag is set a section that begins adds and takes no task
* `DestroyState.Signals.step`: a step keeps the signals
* `destroy_wakes`: how many workers may be left asleep
* `DestroyState.Quiet.step`: a step keeps the queue, and the threads that wait for room
* `destroy_quiet`: the tasks that are left, and the threads that wait for room
-/

namespace Adrift

open ConditionVariable Transition

/-- **What `threadPoolDestroy` is doing**: it waits for the manager, or sends signals, or it has
freed the pool. -/
inductive DestroyPhase
  | joining
  | signalling (i : ℕ)
  | freed

/-- A pool whose flag is set, and the thread in `threadPoolDestroy`. One thread may be in a critical
section whose tests of the flag are over: it is about to sleep, to take a task or to add one. -/
structure DestroyState (ι τ : Type) where
  threads : PoolState ι τ
  phase : DestroyPhase
  entering : Option (PoolEvent ι τ)

/-- The events after the flag is set. -/
inductive DestroyEvent (ι τ : Type)
  | thread (e : PoolEvent ι τ)
  | finish (e : PoolEvent ι τ)
  | join
  | signal
  | free

variable {ι τ : Type}

/-- The thread that an event is about, one that adds tasks or a worker. -/
def PoolEvent.thread : PoolEvent ι τ → Option (ι ⊕ ℕ)
  | call i _ | addWait i | added i _ | refused i | spuriousAdd i => some (.inl i)
  | wait w | take w _ | exit w | busy w | idle w | gone w | spurious w => some (.inr w)
  | manager | shutdown => none

/-- **The flag is set**, between the critical sections of `mutexPool` or in one of them. A section
that has tested the flag for the last time ends as if it were not set. -/
inductive ThreadPoolDestroy : PoolState ι τ → DestroyState ι τ → Prop
  | between {s : PoolState ι τ} : ThreadPoolDestroy s
      ⟨{ s with pool := { s.pool with shutdown := true } }, .joining, none⟩
  | waits {s : PoolState ι τ} {w : ℕ} {pool : ThreadPool τ} (hr : s.WorkerRuns w (pool, .wait)) :
      ThreadPoolDestroy s
        ⟨{ s with pool := { pool with shutdown := true } }, .joining, some (.wait w)⟩
  | takes {s : PoolState ι τ} {w : ℕ} {task : τ} {pool : ThreadPool τ}
      (hr : s.WorkerRuns w (pool, .take task)) :
      ThreadPoolDestroy s
        ⟨{ s with pool := { s.pool with exitNum := pool.exitNum, shutdown := true } }, .joining,
          some (.take w task)⟩
  | addWaits {s : PoolState ι τ} {i : ι} {task : τ}
      (hphase : s.adds i = .called ∨ s.adds i = .woken) (htask : s.tasks i = some task)
      (hr : threadPoolAdd s.pool task = .wait) :
      ThreadPoolDestroy s
        ⟨{ s with pool := { s.pool with shutdown := true } }, .joining, some (.addWait i)⟩
  | adds {s : PoolState ι τ} {i : ι} {task : τ} {pool : ThreadPool τ}
      (hphase : s.adds i = .called ∨ s.adds i = .woken) (htask : s.tasks i = some task)
      (hr : threadPoolAdd s.pool task = .done pool) :
      ThreadPoolDestroy s
        ⟨{ s with pool := { s.pool with shutdown := true } }, .joining, some (.added i task)⟩

/-- **The steps after the flag is set**. The pool is accessed until it is freed. A thread whose
section is in progress has the mutex; that the others may lock it, too, only adds runs. -/
inductive DestroyState.Step [DecidableEq ι] :
    DestroyState ι τ → DestroyEvent ι τ → DestroyState ι τ → Prop
  | thread {s s' : PoolState ι τ} {phase : DestroyPhase} {entering : Option (PoolEvent ι τ)}
      {e : PoolEvent ι τ} (hphase : phase ≠ .freed) (he : ∀ f ∈ entering, e.thread ≠ f.thread)
      (hs : s.Step e s') : Step ⟨s, phase, entering⟩ (.thread e) ⟨s', phase, entering⟩
  | sleep {s : PoolState ι τ} {phase : DestroyPhase} {w : ℕ} (hphase : phase ≠ .freed) :
      Step ⟨s, phase, some (.wait w)⟩ (.finish (.wait w))
        ⟨{ s with workers := Function.update s.workers w .asleep }, phase, none⟩
  | take {s : PoolState ι τ} {phase : DestroyPhase} {w : ℕ} {task : τ} {pool : ThreadPool τ}
      {adds : ι → AddPhase} (hphase : phase ≠ .freed)
      (hr : workerTest { s.pool with shutdown := false } = (pool, .take task))
      (hadds : Signal .asleep .woken s.adds adds) :
      Step ⟨s, phase, some (.take w task)⟩ (.finish (.take w task))
        ⟨{ s with
          pool := { pool with shutdown := true }
          workers := Function.update s.workers w (.took task)
          adds := adds }, phase, none⟩
  | addSleep {s : PoolState ι τ} {phase : DestroyPhase} {i : ι} (hphase : phase ≠ .freed) :
      Step ⟨s, phase, some (.addWait i)⟩ (.finish (.addWait i))
        ⟨{ s with adds := Function.update s.adds i .asleep }, phase, none⟩
  | add {s : PoolState ι τ} {phase : DestroyPhase} {i : ι} {task : τ} {pool : ThreadPool τ}
      {workers : ℕ → WorkerPhase τ} (hphase : phase ≠ .freed)
      (hr : threadPoolAdd { s.pool with shutdown := false } task = .done pool)
      (hworkers : Signal .asleep .woken s.workers workers) :
      Step ⟨s, phase, some (.added i task)⟩ (.finish (.added i task))
        ⟨{ s with
          pool := { pool with shutdown := true }
          workers := workers
          adds := Function.update s.adds i .outside }, phase, none⟩
  | join {s : PoolState ι τ} {entering : Option (PoolEvent ι τ)} (hended : s.manager = .ended) :
      Step ⟨s, .joining, entering⟩ .join ⟨s, .signalling 0, entering⟩
  | signal {s : PoolState ι τ} {i : ℕ} {entering : Option (PoolEvent ι τ)}
      {workers : ℕ → WorkerPhase τ} (hi : i < s.pool.liveNum)
      (hworkers : Signal .asleep .woken s.workers workers) :
      Step ⟨s, .signalling i, entering⟩ .signal
        ⟨{ s with workers := workers }, .signalling (i + 1), entering⟩
  | free {s : PoolState ι τ} {i : ℕ} {entering : Option (PoolEvent ι τ)}
      (hi : ¬ i < s.pool.liveNum) :
      Step ⟨s, .signalling i, entering⟩ .free ⟨s, .freed, entering⟩

/-- The worker waits. -/
def WorkerPhase.isAsleep : WorkerPhase τ → Bool
  | asleep => true
  | _ => false

theorem WorkerPhase.isAsleep_eq_false {phase : WorkerPhase τ} :
    phase.isAsleep = false ↔ phase ≠ .asleep := by
  cases phase <;> simp [isAsleep]

theorem WorkerPhase.isLive_of_asleep {phase : WorkerPhase τ} (h : phase.isAsleep = true) :
    phase.isLive = true := by
  cases phase with
  | asleep => rfl
  | _ => cases h

/-- One if a worker is about to sleep. -/
def DestroyState.pending (d : DestroyState ι τ) : ℤ :=
  match d.entering with
  | some (.wait _) => 1
  | _ => 0

theorem DestroyState.pending_nonneg (d : DestroyState ι τ) : 0 ≤ d.pending := by
  rw [pending]
  split <;> decide

theorem DestroyState.pending_eq_zero {d : DestroyState ι τ}
    (h : ∀ w, d.entering ≠ some (.wait w)) : d.pending = 0 := by
  rw [pending]
  split
  · rename_i w hw
    exact absurd hw (h w)
  · rfl

/-- The thread of an event is in a critical section, after its tests of the flag. -/
def PoolState.InSection (s : PoolState ι τ) : PoolEvent ι τ → Prop
  | .wait w | .take w _ => s.workers w = .ready ∨ s.workers w = .woken
  | .addWait i | .added i _ => s.adds i = .called ∨ s.adds i = .woken
  | _ => False

/-- The thread whose section is in progress is in it. -/
def DestroyState.Entering (d : DestroyState ι τ) : Prop :=
  ∀ e ∈ d.entering, d.threads.InSection e

variable {min max capacity n m : ℤ} {taskQ : ℤ → τ} {pool pool' : ThreadPool τ} {task : τ}
  {w i : ℕ} {s s' : PoolState ι τ} {e : PoolEvent ι τ} {es : List (PoolEvent ι τ)}
  {d d' d₀ d₁ : DestroyState ι τ} {f : DestroyEvent ι τ} {fs gs : List (DestroyEvent ι τ)}

/-! ## After the flag -/

/-- A worker in a critical section has not slept yet, or was woken. -/
theorem PoolState.WorkerRuns.ready_or_woken {r : ThreadPool τ × WorkerResult τ}
    (hr : s.WorkerRuns w r) : s.workers w = .ready ∨ s.workers w = .woken := by
  rcases hr with ⟨hw, -⟩ | ⟨hw, -⟩
  · exact .inl hw
  · exact .inr hw

/-- After the flag is set a worker exits at its next test. -/
theorem PoolState.WorkerRuns.shutdown {r : WorkerResult τ} (hr : s.WorkerRuns w (pool, r))
    (hdown : s.pool.shutdown = true) : r = .exit := by
  rcases hr.test_or_exit with ⟨e, he⟩ | ⟨-, h, -⟩
  · rw [workerTest, if_neg (by simp [hdown]), if_pos hdown] at he
    exact (Prod.mk.inj he).2.symm
  · exact h

theorem workerTest_counters (pool : ThreadPool τ) :
    (workerTest pool).1.exitNum = pool.exitNum ∧ (workerTest pool).1.liveNum = pool.liveNum := by
  rw [workerTest]
  split_ifs <;> exact ⟨rfl, rfl⟩

/-- **What a worker does to the counters**: one that is not counted any more was counted by
`exitNum`. -/
theorem PoolState.WorkerRuns.counters {r : WorkerResult τ} (hr : s.WorkerRuns w (pool, r))
    (hexit : 0 ≤ s.pool.exitNum) : 0 ≤ pool.exitNum ∧ pool.exitNum ≤ s.pool.exitNum ∧
      s.pool.liveNum - pool.liveNum ≤ s.pool.exitNum - pool.exitNum := by
  have htest : ∀ {pool₀ : ThreadPool τ}, workerTest pool₀ = (pool, r) →
      pool.exitNum = pool₀.exitNum ∧ pool.liveNum = pool₀.liveNum := by
    intro pool₀ hr
    have h := workerTest_counters pool₀
    rwa [hr] at h
  rcases hr with ⟨-, hr⟩ | ⟨-, hr⟩
  · obtain ⟨he, hl⟩ := htest hr
    omega
  · rw [workerRetest] at hr
    dsimp only at hr
    split_ifs at hr with hpos hlive
    · cases hr
      dsimp only
      omega
    · obtain ⟨he, hl⟩ := htest hr
      dsimp only at he hl
      omega
    · obtain ⟨he, hl⟩ := htest hr
      omega

theorem threadPoolAdd_shutdown (hdown : pool.shutdown = true) (task : τ) :
    threadPoolAdd pool task = .refused := by
  rw [threadPoolAdd, if_neg (by simp [hdown]), if_pos hdown]

/-- **After the flag is set** no step adds or takes a task, and a thread that waits for room goes
on only if it wakes up by itself. -/
theorem PoolState.Step.quiet [DecidableEq ι] (h : s.Step e s') (hdown : s.pool.shutdown = true) :
    (s'.pool.shutdown = true ∧ s'.pool.tasks = s.pool.tasks) ∧
      (e.acceptedTask = none ∧ e.takenTask = none) ∧
        ∀ i, s.adds i = .asleep → e ≠ .spuriousAdd i → s'.adds i = .asleep := by
  have hadds : ∀ {i : ι} {phase : AddPhase}, s.adds i ≠ .asleep →
      ∀ j, s.adds j = .asleep → Function.update s.adds i phase j = .asleep := by
    intro i phase hi j hj
    have hji : j ≠ i := by
      rintro rfl
      exact hi hj
    rw [Function.update_of_ne hji, hj]
  cases h with
  | call hphase => exact ⟨⟨hdown, rfl⟩, ⟨rfl, rfl⟩, fun j hj _ => hadds (by simp [hphase]) j hj⟩
  | addWait _ _ hr => cases (threadPoolAdd_shutdown hdown _).symm.trans hr
  | added _ _ hr _ => cases (threadPoolAdd_shutdown hdown _).symm.trans hr
  | refused hphase _ _ =>
    refine ⟨⟨hdown, rfl⟩, ⟨rfl, rfl⟩, fun j hj _ => hadds ?_ j hj⟩
    rcases hphase with hphase | hphase <;> simp [hphase]
  | wait hr => cases hr.shutdown hdown
  | take hr _ => cases hr.shutdown hdown
  | exit hr =>
    rcases hr.exit with ⟨-, e, rfl⟩ | ⟨-, rfl⟩
    · exact ⟨⟨hdown, rfl⟩, ⟨rfl, rfl⟩, fun _ hj _ => hj⟩
    · exact ⟨⟨hdown, rfl⟩, ⟨rfl, rfl⟩, fun _ hj _ => hj⟩
  | @gone w _ =>
    obtain ⟨ids, hids⟩ := threadExit_eq s.pool w
    rw [hids]
    exact ⟨⟨hdown, rfl⟩, ⟨rfl, rfl⟩, fun _ hj _ => hj⟩
  | @spuriousAdd i hphase =>
    refine ⟨⟨hdown, rfl⟩, ⟨rfl, rfl⟩, fun j hj hne => ?_⟩
    dsimp only
    have hji : j ≠ i := by
      rintro rfl
      exact hne rfl
    rw [Function.update_of_ne hji, hj]
  | managerGrow =>
    obtain ⟨hd, ht, ha⟩ := PoolState.grow_induction
      (P := fun s' => s'.pool.shutdown = true ∧ s'.pool.tasks = s.pool.tasks ∧ s'.adds = s.adds)
      (fun _ _ h => h) _ _ ⟨hdown, rfl, rfl⟩
    refine ⟨⟨hd, ht⟩, ⟨rfl, rfl⟩, fun j hj _ => ?_⟩
    exact (congrFun ha j).trans hj
  | shutdown => exact ⟨⟨rfl, rfl⟩, ⟨rfl, rfl⟩, fun _ hj _ => hj⟩
  | _ => exact ⟨⟨hdown, rfl⟩, ⟨rfl, rfl⟩, fun _ hj _ => hj⟩

variable [DecidableEq ι]

/-- **What a step does after the flag is set** and the manager has ended: workers that sleep go on
with `liveNum`, but for those that exit on an `exitNum`. -/
theorem PoolState.Step.asleep_le (h : s.Step e s') (hF : s.Fresh)
    (hdown : s.pool.shutdown = true) (hended : s.manager = .ended) (hexit : 0 ≤ s.pool.exitNum) :
    s'.manager = .ended ∧ 0 ≤ s'.pool.exitNum ∧ s'.pool.exitNum ≤ s.pool.exitNum ∧
      s'.count WorkerPhase.isAsleep - s'.pool.liveNum + s'.pool.exitNum ≤
        s.count WorkerPhase.isAsleep - s.pool.liveNum + s.pool.exitNum := by
  have hcount : ∀ {w : ℕ} {phase : WorkerPhase τ}, s.workers w ≠ .absent →
      indicator WorkerPhase.isAsleep phase = 0 →
        census (Finset.range s.created) WorkerPhase.isAsleep (Function.update s.workers w phase) ≤
          s.count WorkerPhase.isAsleep := by
    intro w phase hw hphase
    have hnonneg := indicator_nonneg WorkerPhase.isAsleep (s.workers w)
    rw [hF.count_update rfl hw, hphase]
    omega
  have hle : ∀ {w : ℕ} {phase : WorkerPhase τ}, s.workers w ≠ .absent →
      indicator WorkerPhase.isAsleep phase = 0 →
        census (Finset.range s.created) WorkerPhase.isAsleep (Function.update s.workers w phase) -
            s.pool.liveNum + s.pool.exitNum ≤
          s.count WorkerPhase.isAsleep - s.pool.liveNum + s.pool.exitNum := by
    intro w phase hw hphase
    have := hcount hw hphase
    omega
  cases h with
  | added _ _ hr _ => cases (threadPoolAdd_shutdown hdown _).symm.trans hr
  | wait hr => cases hr.shutdown hdown
  | take hr _ => cases hr.shutdown hdown
  | exit hr =>
    obtain ⟨phase, hw, hne, -⟩ := hr.running
    obtain ⟨hpos, hle, hlive⟩ := hr.counters hexit
    refine ⟨hended, hpos, hle, ?_⟩
    refine le_trans (add_le_add_left (sub_le_sub_right (hcount (hw ▸ hne) rfl) _) _) ?_
    dsimp only
    omega
  | busy hphase => exact ⟨hended, hexit, le_rfl, hle (by simp [hphase]) rfl⟩
  | idle hphase => exact ⟨hended, hexit, le_rfl, hle (by simp [hphase]) rfl⟩
  | @gone w hphase =>
    obtain ⟨ids, hids⟩ := threadExit_eq s.pool w
    rw [hids]
    exact ⟨hended, hexit, le_rfl, hle (by simp [hphase]) rfl⟩
  | spurious hphase => exact ⟨hended, hexit, le_rfl, hle (by simp [hphase]) rfl⟩
  | managerSleep hphase | managerEnd hphase | managerSize hphase | managerCount hphase
  | managerGrow hphase | managerShrink hphase | managerKeep hphase | managerSignal hphase
  | managerLoop hphase => cases hended.symm.trans hphase
  | _ => exact ⟨hended, hexit, le_rfl, le_rfl⟩

/-- The events of the others leave a worker in its critical section. -/
theorem PoolState.Step.worker_eq (h : s.Step e s') (hF : s.Fresh)
    (hw : s.workers w = .ready ∨ s.workers w = .woken) (he : e.thread ≠ some (.inr w)) :
    s'.workers w = s.workers w := by
  have hne : ∀ {v : ℕ} {phase : WorkerPhase τ}, some (Sum.inr v : ι ⊕ ℕ) ≠ some (.inr w) →
      Function.update s.workers v phase w = s.workers w := by
    intro v phase hv
    rw [Function.update_of_ne]
    rintro rfl
    exact hv rfl
  have hawake : s.workers w ≠ .asleep := by
    rcases hw with hw | hw <;> simp [hw]
  cases h with
  | added _ _ _ hworkers => exact hworkers.eq_of_ne hawake
  | wait => exact hne he
  | take => exact hne he
  | exit => exact hne he
  | busy => exact hne he
  | idle => exact hne he
  | gone => exact hne he
  | spurious => exact hne he
  | managerGrow =>
    -- the slots of new workers are behind it
    have habsent : s.workers w ≠ .absent := by
      rcases hw with hw | hw <;> simp [hw]
    obtain ⟨-, h⟩ := PoolState.grow_induction
      (P := fun s' => s'.Fresh ∧ s'.workers w = s.workers w) (fun i _ hP => by
        refine ⟨hP.1.createWorker i, ?_⟩
        have hlt := hP.1.lt_created (hP.2 ▸ habsent)
        rw [createWorker_workers, Function.update_of_ne hlt.ne, hP.2]) _ _ ⟨hF, rfl⟩
    exact h
  | managerSignal _ hworkers => exact hworkers.eq_of_ne hawake
  | _ => rfl

/-- The events of the others leave a thread that adds a task in its critical section. -/
theorem PoolState.Step.adds_eq {i : ι} (h : s.Step e s')
    (hi : s.adds i = .called ∨ s.adds i = .woken) (he : e.thread ≠ some (.inl i)) :
    s'.adds i = s.adds i := by
  have hne : ∀ {j : ι} {phase : AddPhase}, some (Sum.inl j : ι ⊕ ℕ) ≠ some (.inl i) →
      Function.update s.adds j phase i = s.adds i := by
    intro j phase hj
    rw [Function.update_of_ne]
    rintro rfl
    exact hj rfl
  cases h with
  | call => exact hne he
  | addWait => exact hne he
  | added => exact hne he
  | refused => exact hne he
  | take _ hadds =>
    apply hadds.eq_of_ne
    rcases hi with hi | hi <;> simp [hi]
  | spuriousAdd => exact hne he
  | managerGrow =>
    exact PoolState.grow_induction (P := fun s' => s'.adds i = s.adds i) (fun _ _ h => h) _ _ rfl
  | _ => rfl

/-- A section in progress stays so while the others go on. -/
theorem PoolState.InSection.step {f : PoolEvent ι τ} (hI : s.InSection f) (hF : s.Fresh)
    (h : s.Step e s') (he : e.thread ≠ f.thread) : s'.InSection f := by
  cases f with
  | wait w =>
    rw [InSection, h.worker_eq hF hI he]
    exact hI
  | take w task =>
    rw [InSection, h.worker_eq hF hI he]
    exact hI
  | addWait i =>
    rw [InSection, h.adds_eq hI he]
    exact hI
  | added i task =>
    rw [InSection, h.adds_eq hI he]
    exact hI
  | _ => exact hI

omit [DecidableEq ι] in
/-- A signal to the workers leaves a section in progress. -/
theorem PoolState.InSection.signal {f : PoolEvent ι τ} (hI : s.InSection f)
    {workers : ℕ → WorkerPhase τ} (h : Signal .asleep .woken s.workers workers) :
    PoolState.InSection { s with workers := workers } f := by
  have hworker : ∀ w, s.workers w = .ready ∨ s.workers w = .woken →
      workers w = .ready ∨ workers w = .woken := by
    intro w hw
    have heq : workers w = s.workers w := by
      apply h.eq_of_ne
      rcases hw with hw | hw <;> simp [hw]
    rwa [heq]
  cases f with
  | wait w => exact hworker w hI
  | take w task => exact hworker w hI
  | _ => exact hI

omit [DecidableEq ι] in
theorem ne_absent_of_ready (hw : s.workers w = .ready ∨ s.workers w = .woken) :
    s.workers w ≠ .absent := by
  rcases hw with h | h <;> simp [h]

/-- The thread whose section is in progress stays in it until its end. -/
theorem DestroyState.Step.entering (h : d.Step f d') (hF : d.threads.Fresh) (hE : d.Entering) :
    d'.threads.Fresh ∧ d'.Entering := by
  cases h with
  | thread _ he hs => exact ⟨hF.step hs, fun f hf => (hE f hf).step hF hs (he f hf)⟩
  | @sleep s phase w _ =>
    have hne : s.workers w ≠ .absent := ne_absent_of_ready (hE (.wait w) rfl)
    exact ⟨fun v hv => hF.update rfl hne v hv, fun _ hf => nomatch hf⟩
  | @take s phase w task _ _ _ _ =>
    have hne : s.workers w ≠ .absent := ne_absent_of_ready (hE (.take w task) rfl)
    exact ⟨fun v hv => hF.update rfl hne v hv, fun _ hf => nomatch hf⟩
  | addSleep => exact ⟨hF, fun _ hf => nomatch hf⟩
  | add _ _ hworkers => exact ⟨fun v hv => hF.signal hworkers v hv, fun _ hf => nomatch hf⟩
  | join => exact ⟨hF, hE⟩
  | signal _ hworkers =>
    exact ⟨fun v hv => hF.signal hworkers v hv, fun f hf => (hE f hf).signal hworkers⟩
  | free => exact ⟨hF, hE⟩

omit [DecidableEq ι] in
/-- The workers that sleep, or are about to, are live. -/
theorem DestroyState.asleep_le (hF : d.threads.Fresh) (hE : d.Entering) :
    d.threads.count WorkerPhase.isAsleep + d.pending ≤ d.threads.count WorkerPhase.isLive := by
  by_cases hwaits : ∃ w, d.entering = some (.wait w)
  · obtain ⟨w, hw⟩ := hwaits
    have hone : d.pending = 1 := by rw [pending, hw]
    rw [hone]
    -- it is counted as if it slept already
    have hle : census (Finset.range d.threads.created) WorkerPhase.isAsleep
          (Function.update d.threads.workers w .asleep) ≤
        census (Finset.range d.threads.created) WorkerPhase.isLive
          (Function.update d.threads.workers w .asleep) :=
      census_mono fun w _ => WorkerPhase.isLive_of_asleep
    have hphase : d.threads.workers w = .ready ∨ d.threads.workers w = .woken := hE _ hw
    rcases hphase with h | h
    · rw [hF.count_update h (by rintro ⟨⟩), hF.count_update h (by rintro ⟨⟩)] at hle
      exact ((sub_zero _).symm.le.trans hle).trans (add_sub_cancel_right _ _).le
    · rw [hF.count_update h (by rintro ⟨⟩), hF.count_update h (by rintro ⟨⟩)] at hle
      exact ((sub_zero _).symm.le.trans hle).trans (add_sub_cancel_right _ _).le
  · rw [DestroyState.pending_eq_zero fun w hw => hwaits ⟨w, hw⟩, add_zero]
    exact census_mono fun w _ => WorkerPhase.isLive_of_asleep

omit [DecidableEq ι] in
/-- A worker in a critical section does not sleep. -/
theorem PoolState.Fresh.count_ready (hF : s.Fresh)
    (hw : s.workers w = .ready ∨ s.workers w = .woken) (phase : WorkerPhase τ) :
    census (Finset.range s.created) WorkerPhase.isAsleep (Function.update s.workers w phase) =
      s.count WorkerPhase.isAsleep + indicator WorkerPhase.isAsleep phase := by
  rcases hw with h | h
  · rw [hF.count_update h (by rintro ⟨⟩)]
    exact sub_zero _
  · rw [hF.count_update h (by rintro ⟨⟩)]
    exact sub_zero _

omit [DecidableEq ι] in
/-- A signal wakes a worker, or there is none left to wake. -/
theorem PoolState.Fresh.count_signal (hF : s.Fresh) {workers : ℕ → WorkerPhase τ}
    (h : Signal .asleep .woken s.workers workers) :
    census (Finset.range s.created) WorkerPhase.isAsleep workers =
        s.count WorkerPhase.isAsleep - 1 ∨
      census (Finset.range s.created) WorkerPhase.isAsleep workers = 0 := by
  have hmem : ∀ w, s.workers w = .asleep → w ∈ Finset.range s.created := fun w hw =>
    Finset.mem_range.mpr (hF.lt_created (show s.workers w ≠ .absent by simp [hw]))
  rcases census_signal (p := WorkerPhase.isAsleep) h hmem with h | ⟨hnone, rfl⟩
  · exact .inl (h.trans (congrArg (· - 1) (add_zero _)))
  · exact .inr (census_eq_zero fun w _ => WorkerPhase.isAsleep_eq_false.mpr (hnone w))

/-- **While the signals are sent**, from an `exitNum` of `n` on and with `m` workers about to sleep:
the workers asleep are as many as the signals to come, but for those, and for the ones whose exit
takes a signal from the others. -/
structure DestroyState.Signals (n m : ℤ) (d : DestroyState ι τ) : Prop where
  fresh : d.threads.Fresh
  entering : d.Entering
  shutdown : d.threads.pool.shutdown = true
  ended : d.threads.manager = .ended
  exitNum : 0 ≤ d.threads.pool.exitNum ∧ d.threads.pool.exitNum ≤ n
  pending : d.pending ≤ m
  asleep : match d.phase with
    | .joining => False
    | .signalling i => d.threads.count WorkerPhase.isAsleep + d.pending + i ≤
        d.threads.pool.liveNum + (n - d.threads.pool.exitNum) + m
    | .freed => d.threads.count WorkerPhase.isAsleep + d.pending ≤
        n - d.threads.pool.exitNum + m

omit [DecidableEq ι] in
/-- While they are sent, the workers that sleep or are about to may only become fewer, and the live
ones only with `exitNum`. -/
theorem DestroyState.Signals.asleep_of_le (hS : d.Signals n m) (heq : d'.phase = d.phase)
    (hphase : d.phase ≠ .freed)
    (hle : d'.threads.count WorkerPhase.isAsleep + d'.pending - d'.threads.pool.liveNum +
        d'.threads.pool.exitNum ≤
      d.threads.count WorkerPhase.isAsleep + d.pending - d.threads.pool.liveNum +
        d.threads.pool.exitNum) :
    match d'.phase with
    | .joining => False
    | .signalling i => d'.threads.count WorkerPhase.isAsleep + d'.pending + i ≤
        d'.threads.pool.liveNum + (n - d'.threads.pool.exitNum) + m
    | .freed => d'.threads.count WorkerPhase.isAsleep + d'.pending ≤
        n - d'.threads.pool.exitNum + m := by
  have hasleep := hS.asleep
  rw [heq]
  cases hp : d.phase with
  | joining =>
    rw [hp] at hasleep
    exact hasleep
  | signalling i =>
    rw [hp] at hasleep
    dsimp only at hasleep ⊢
    omega
  | freed => exact absurd hp hphase

/-- **A step keeps the signals**. -/
theorem DestroyState.Signals.step (hS : d.Signals n m) (h : d.Step f d') : d'.Signals n m := by
  have hS₀ := hS
  obtain ⟨hF, hE, hdown, hended, hexit, hpending, hasleep⟩ := hS
  obtain ⟨hF', hE'⟩ := h.entering hF hE
  cases h with
  | @thread s s' phase entering e hphase _ hs =>
    obtain ⟨hended', hpos', hle', hcount⟩ := hs.asleep_le hF hdown hended hexit.1
    refine ⟨hF', hE', (hs.quiet hdown).1.1, hended', ⟨hpos', hle'.trans hexit.2⟩, hpending,
      hS₀.asleep_of_le rfl hphase ?_⟩
    dsimp only [DestroyState.pending] at hcount ⊢
    omega
  | @sleep s phase w hphase =>
    have hsleeps := hF.count_ready (hE (.wait w) rfl) .asleep
    have hone : DestroyState.pending ⟨s, phase, some (.wait w)⟩ = 1 := rfl
    rw [hone] at hpending
    refine ⟨hF', hE', hdown, hended, hexit, zero_le_one.trans hpending,
      hS₀.asleep_of_le rfl hphase (le_of_eq ?_)⟩
    -- the worker was counted when it was about to sleep
    rw [hone]
    exact congrArg (· - s.pool.liveNum + s.pool.exitNum) ((add_zero _).trans hsleeps)
  | @take s phase w task pool adds hphase hr =>
    obtain ⟨-, -, rfl⟩ := workerTest_eq_take hr
    have hsame := hF.count_ready (hE (.take w task) rfl) (.took task)
    refine ⟨hF', hE', rfl, hended, hexit, hpending, hS₀.asleep_of_le rfl hphase (le_of_eq ?_)⟩
    exact congrArg (· + 0 - s.pool.liveNum + s.pool.exitNum) (hsame.trans (add_zero _))
  | addSleep hphase => exact ⟨hF', hE', hdown, hended, hexit, hpending, hasleep⟩
  | @add s phase i task pool workers hphase hr hworkers =>
    obtain ⟨-, rfl⟩ := threadPoolAdd_eq_done hr
    have hle : census (Finset.range s.created) WorkerPhase.isAsleep workers ≤
        s.count WorkerPhase.isAsleep := by
      have hF : s.Fresh := hF
      have hnonneg : 0 ≤ s.count WorkerPhase.isAsleep := census_nonneg ..
      rcases hF.count_signal hworkers with h | h <;> omega
    refine ⟨hF', hE', rfl, hended, hexit, hpending, hS₀.asleep_of_le rfl hphase ?_⟩
    exact add_le_add_left (sub_le_sub_right (add_le_add_left hle _) _) _
  | join => exact hasleep.elim
  | @signal s i entering workers hi hworkers =>
    refine ⟨hF', hE', hdown, hended, hexit, hpending, ?_⟩
    have hgoal : census (Finset.range s.created) WorkerPhase.isAsleep workers +
        DestroyState.pending ⟨s, .signalling i, entering⟩ + ((i + 1 : ℕ) : ℤ) ≤
          s.pool.liveNum + (n - s.pool.exitNum) + m := by
      dsimp only at hasleep hexit
      have hF : s.Fresh := hF
      push_cast
      rcases hF.count_signal hworkers with h | h
      · omega
      · omega
    exact hgoal
  | @free s i entering hi =>
    refine ⟨hF', hE', hdown, hended, hexit, hpending, ?_⟩
    dsimp only [DestroyState.pending] at hasleep ⊢
    omega

/-! ## The end -/

/-- The counter that makes workers exit is never negative, and at most `NUMBER`. -/
theorem PoolState.Step.exitNum (h : s.Step e s')
    (hexit : 0 ≤ s.pool.exitNum ∧ s.pool.exitNum ≤ number) :
    0 ≤ s'.pool.exitNum ∧ s'.pool.exitNum ≤ number := by
  have hruns : ∀ {w : ℕ} {pool : ThreadPool τ} {r : WorkerResult τ}, s.WorkerRuns w (pool, r) →
      0 ≤ pool.exitNum ∧ pool.exitNum ≤ number := by
    intro w pool r hr
    obtain ⟨hpos, hle, -⟩ := hr.counters hexit.1
    exact ⟨hpos, hle.trans hexit.2⟩
  cases h with
  | added _ _ hr _ =>
    obtain ⟨-, rfl⟩ := threadPoolAdd_eq_done hr
    exact hexit
  | wait hr => exact hruns hr
  | take hr _ => exact hruns hr
  | exit hr => exact hruns hr
  | @gone w _ =>
    obtain ⟨ids, hids⟩ := threadExit_eq s.pool w
    rw [hids]
    exact hexit
  | managerGrow =>
    exact PoolState.grow_induction
      (P := fun s : PoolState ι τ => 0 ≤ s.pool.exitNum ∧ s.pool.exitNum ≤ number)
      (fun _ _ h => h) _ _ hexit
  | managerShrink => exact ⟨Int.natCast_nonneg _, le_rfl⟩
  | _ => exact hexit

/-- What holds of the threads until the manager has ended. -/
structure DestroyState.Joining (d : DestroyState ι τ) : Prop where
  counted : d.threads.Counted
  entering : d.Entering
  shutdown : d.threads.pool.shutdown = true
  exitNum : 0 ≤ d.threads.pool.exitNum ∧ d.threads.pool.exitNum ≤ number

theorem DestroyState.Joining.step (hJ : d.phase = .joining → d.Joining) (h : d.Step f d') :
    d'.phase = .joining → d'.Joining := by
  intro hphase
  have hstep := h
  cases h with
  | thread _ _ hs =>
    obtain ⟨hC, hE, hdown, hexit⟩ := hJ hphase
    exact ⟨hC.step hs, (hstep.entering hC.fresh hE).2, (hs.quiet hdown).1.1, hs.exitNum hexit⟩
  | @sleep s phase w _ =>
    obtain ⟨hC, hE, hdown, hexit⟩ := hJ hphase
    obtain ⟨hF, hE'⟩ := hstep.entering hC.fresh hE
    refine ⟨?_, hE', hdown, hexit⟩
    have hw : s.workers w = .ready ∨ s.workers w = .woken := hE (.wait w) rfl
    rcases hw with h | h
    · exact hC.update hF h (by rintro ⟨⟩) ⟨rfl, rfl⟩ (add_zero _).symm (add_zero _).symm rfl
    · exact hC.update hF h (by rintro ⟨⟩) ⟨rfl, rfl⟩ (add_zero _).symm (add_zero _).symm rfl
  | @take s phase w task _ _ _ hr =>
    obtain ⟨hC, hE, hdown, hexit⟩ := hJ hphase
    obtain ⟨hF, hE'⟩ := hstep.entering hC.fresh hE
    obtain ⟨-, -, rfl⟩ := workerTest_eq_take hr
    refine ⟨?_, hE', rfl, hexit⟩
    have hw : s.workers w = .ready ∨ s.workers w = .woken := hE (.take w task) rfl
    rcases hw with h | h
    · exact hC.update hF h (by rintro ⟨⟩) ⟨rfl, rfl⟩ (add_zero _).symm (add_zero _).symm hdown.symm
    · exact hC.update hF h (by rintro ⟨⟩) ⟨rfl, rfl⟩ (add_zero _).symm (add_zero _).symm hdown.symm
  | addSleep =>
    obtain ⟨hC, hE, hdown, hexit⟩ := hJ hphase
    exact ⟨⟨hC.fresh, hC.busy, hC.live_le, hC.live⟩, (hstep.entering hC.fresh hE).2, hdown, hexit⟩
  | add _ hr hworkers =>
    obtain ⟨hC, hE, hdown, hexit⟩ := hJ hphase
    obtain ⟨hF, hE'⟩ := hstep.entering hC.fresh hE
    obtain ⟨-, rfl⟩ := threadPoolAdd_eq_done hr
    exact ⟨hC.signal hF hworkers ⟨rfl, rfl⟩ ⟨rfl, rfl, hdown.symm⟩, hE', rfl, hexit⟩
  | join => cases hphase
  | signal => cases hphase
  | free => cases hphase

omit [DecidableEq ι] in
/-- **The flag is set** in a state that is reached. -/
theorem ThreadPoolDestroy.joining (h : ThreadPoolDestroy s d) (hC : s.Counted)
    (hexit : 0 ≤ s.pool.exitNum ∧ s.pool.exitNum ≤ number) : d.Joining := by
  cases h with
  | between =>
    refine ⟨⟨hC.fresh, hC.busy, hC.live_le, fun hdown => nomatch hdown⟩, ?_, rfl, hexit⟩
    rintro w ⟨⟩
  | @waits w pool hr =>
    obtain ⟨hpos, hle, -⟩ := hr.counters hexit.1
    obtain ⟨-, e, rfl⟩ := hr.wait
    refine ⟨⟨hC.fresh, hC.busy, hC.live_le, fun hdown => nomatch hdown⟩, ?_, rfl, hpos,
      hle.trans hexit.2⟩
    rintro f ⟨⟩
    exact hr.ready_or_woken
  | @takes w task pool hr =>
    obtain ⟨hpos, hle, -⟩ := hr.counters hexit.1
    refine ⟨⟨hC.fresh, hC.busy, hC.live_le, fun hdown => nomatch hdown⟩, ?_, rfl, hpos,
      hle.trans hexit.2⟩
    rintro f ⟨⟩
    exact hr.ready_or_woken
  | addWaits hphase =>
    refine ⟨⟨hC.fresh, hC.busy, hC.live_le, fun hdown => nomatch hdown⟩, ?_, rfl, hexit⟩
    rintro f ⟨⟩
    exact hphase
  | adds hphase =>
    refine ⟨⟨hC.fresh, hC.busy, hC.live_le, fun hdown => nomatch hdown⟩, ?_, rfl, hexit⟩
    rintro f ⟨⟩
    exact hphase

/-- **Workers that are left asleep**: when the pool is freed, no more workers sleep than `exitNum`
counted when the manager had ended, which is at most `NUMBER`, and one more if it was then about to
sleep. So none does when `exitNum` was zero and no worker was about to sleep. -/
theorem destroy_wakes (hmin : 0 ≤ min)
    (h : Trace PoolState.Step (PoolState.init (threadPoolCreate min max capacity taskQ) :
      PoolState ι τ) es s) (hdestroy : ThreadPoolDestroy s d₀)
    (hjoining : Trace DestroyState.Step d₀ fs d) (hjoin : d.Step .join d₁)
    (hsignals : Trace DestroyState.Step d₁ gs d') (hfreed : d'.phase = .freed) :
    d'.threads.count WorkerPhase.isAsleep + d'.pending ≤ d.threads.pool.exitNum + d.pending ∧
      d.threads.pool.exitNum ≤ number ∧
        (d.threads.pool.exitNum = 0 → (∀ w, d.entering ≠ some (.wait w)) →
          ∀ w, d'.threads.workers w ≠ .asleep) := by
  have hC : s.Counted := h.invariant (.init hmin) fun hC hs => hC.step hs
  have hexit : 0 ≤ s.pool.exitNum ∧ s.pool.exitNum ≤ number :=
    h.invariant (P := fun s : PoolState ι τ => 0 ≤ s.pool.exitNum ∧ s.pool.exitNum ≤ number)
      ⟨le_rfl, Int.natCast_nonneg _⟩ fun hexit hs => hs.exitNum hexit
  have hJ : d.phase = .joining → d.Joining :=
    hjoining.invariant (P := fun d => d.phase = .joining → d.Joining)
      (fun _ => hdestroy.joining hC hexit) fun hJ hs => DestroyState.Joining.step hJ hs
  cases hjoin with
  | @join s₁ entering hended =>
    obtain ⟨hC₁, hE₁, hdown₁, hexit₁⟩ := hJ rfl
    have hS₀ : DestroyState.Signals s₁.pool.exitNum
        (DestroyState.pending ⟨s₁, .joining, entering⟩) ⟨s₁, .signalling 0, entering⟩ := by
      refine ⟨hC₁.fresh, hE₁, hdown₁, hended, ⟨hexit₁.1, le_rfl⟩, le_rfl, ?_⟩
      have hle := DestroyState.asleep_le hC₁.fresh hE₁
      have hlive := hC₁.live_le
      have hnonneg := DestroyState.pending_nonneg ⟨s₁, .joining, entering⟩
      dsimp only [DestroyState.pending] at hle hlive hnonneg ⊢
      push_cast
      omega
    obtain ⟨hF, -, -, -, ⟨hpos, -⟩, -, hasleep⟩ := hsignals.invariant hS₀ fun hS hs => hS.step hs
    rw [hfreed] at hasleep
    dsimp only at hasleep hexit₁ ⊢
    refine ⟨by omega, hexit₁.2, ?_⟩
    intro hzero hwaits w
    apply WorkerPhase.isAsleep_eq_false.mp
    by_cases hw : d'.threads.workers w = .absent
    · rw [hw]
      rfl
    · have hnonneg := d'.pending_nonneg
      have hnone : DestroyState.pending ⟨s₁, .joining, entering⟩ = 0 :=
        DestroyState.pending_eq_zero hwaits
      refine eq_false_of_census (s := Finset.range d'.threads.created) ?_
        (Finset.mem_range.mpr (hF.lt_created hw))
      have hle : d'.threads.count WorkerPhase.isAsleep ≤ 0 := by omega
      exact hle

theorem destroy_wakes_one : ∃ es fs gs, ∃ s : PoolState Unit ℕ, ∃ d₀ d d₁ d',
    Trace PoolState.Step (PoolState.init (threadPoolCreate 1 2 4 fun _ => 0)) es s ∧
      s.workers 0 = .asleep ∧ ThreadPoolDestroy s d₀ ∧ Trace DestroyState.Step d₀ fs d ∧
      d.Step .join d₁ ∧ Trace DestroyState.Step d₁ gs d' ∧ d'.phase = .freed ∧
        d'.threads.count WorkerPhase.isAsleep + d'.pending ≤
            d.threads.pool.exitNum + d.pending ∧
          d.threads.pool.exitNum ≤ number ∧
            (d.threads.pool.exitNum = 0 → (∀ w, d.entering ≠ some (.wait w)) →
              ∀ w, d'.threads.workers w ≠ .asleep) := by
  obtain ⟨es, s, h, hw, hmanager, hlive⟩ : ∃ es, ∃ s : PoolState Unit ℕ,
      Trace PoolState.Step (PoolState.init (threadPoolCreate 1 2 4 fun _ => 0)) es s ∧
        s.workers 0 = .asleep ∧ s.manager = .test ∧ s.pool.liveNum = 1 :=
    ⟨_, _, .single (e := .wait 0) (.wait (.inl ⟨rfl, rfl⟩)), rfl, rfl, rfl⟩
  obtain ⟨s₁, hs, hended, hw₁, hlive₁⟩ : ∃ s₁,
      PoolState.Step { s with pool := { s.pool with shutdown := true } } .manager s₁ ∧
        s₁.manager = .ended ∧ s₁.workers 0 = .asleep ∧ s₁.pool.liveNum = 1 :=
    ⟨_, .managerEnd hmanager rfl, rfl, hw, hlive⟩
  have hjoining : Trace DestroyState.Step ⟨_, .joining, none⟩ [.thread .manager] _ :=
    .single (.thread (by rintro ⟨⟩) (by rintro w ⟨⟩) hs)
  have hjoin : DestroyState.Step ⟨s₁, .joining, none⟩ .join _ := .join hended
  have hpos : ((0 : ℕ) : ℤ) < s₁.pool.liveNum := by rw [hlive₁]; decide
  have hsignal : Trace DestroyState.Step ⟨s₁, .signalling 0, none⟩ [.signal] _ :=
    .single (.signal hpos (.inl ⟨0, hw₁, rfl⟩))
  have hend : ¬ ((0 + 1 : ℕ) : ℤ) < s₁.pool.liveNum := by rw [hlive₁]; decide
  have hfree := hsignal.step (.free hend)
  exact ⟨_, _, _, s, _, _, _, _, h, hw, .between, hjoining, hjoin, hfree, rfl,
    destroy_wakes (by decide) h .between hjoining hjoin hfree rfl⟩

/-! ## The end of the queue -/

/-- The section that an event ends, when it was in progress. -/
def DestroyEvent.finished : DestroyEvent ι τ → Option (PoolEvent ι τ)
  | finish e => some e
  | _ => none

/-- **The section that was in progress** when the flag was set, if it has ended. -/
def finished (fs : List (DestroyEvent ι τ)) : List (PoolEvent ι τ) :=
  fs.filterMap DestroyEvent.finished

/-- **After the flag is set** the queue changes by the section that was in progress at most. A
thread that waited for room goes on waiting, but for those that wake up by themselves, and for one
when that section has taken a task. -/
structure DestroyState.Quiet (min max capacity : ℤ) (d₀ : DestroyState ι τ)
    (fs : List (DestroyEvent ι τ)) (d : DestroyState ι τ) : Prop where
  fresh : d.threads.Fresh
  entering : d.Entering
  shutdown : d.threads.pool.shutdown = true
  bounded : d.threads.pool.Bounded min max capacity
  events : ∀ e, .thread e ∈ fs → e.acceptedTask = none ∧ e.takenTask = none
  progress : d.entering = d₀.entering ∧ finished fs = [] ∨
    d.entering = none ∧ ∃ e, d₀.entering = some e ∧ finished fs = [e]
  tasks : d₀.threads.pool.tasks ++ accepted (finished fs) =
    taken (finished fs) ++ d.threads.pool.tasks
  waits : ∃ woken : Option ι, (woken ≠ none → ∃ w task, finished fs = [.take w task]) ∧
    ∀ i, d₀.threads.adds i = .asleep → .thread (.spuriousAdd i) ∉ fs →
      woken = some i ∨ d.threads.adds i = .asleep

omit [DecidableEq ι] in
theorem finished_concat (fs : List (DestroyEvent ι τ)) (f : DestroyEvent ι τ) :
    finished (fs ++ [f]) = finished fs ++ f.finished.toList := by
  rw [finished, List.filterMap_append, finished]
  cases f <;> rfl

omit [DecidableEq ι] in
theorem events_concat (h : ∀ e, .thread e ∈ fs → e.acceptedTask = none ∧ e.takenTask = none)
    (hf : ∀ e, f = .thread e → e.acceptedTask = none ∧ e.takenTask = none) (e : PoolEvent ι τ)
    (he : .thread e ∈ fs ++ [f]) : e.acceptedTask = none ∧ e.takenTask = none := by
  rcases List.mem_append.mp he with he | he
  · exact h e he
  · exact hf e (List.mem_singleton.mp he).symm

/-- **A step of a thread** outside the section in progress. -/
theorem DestroyState.Quiet.thread {phase : DestroyPhase} {entering : Option (PoolEvent ι τ)}
    (hQ : DestroyState.Quiet min max capacity d₀ fs ⟨s, phase, entering⟩)
    (he : ∀ f ∈ entering, e.thread ≠ f.thread) (hs : s.Step e s') :
    DestroyState.Quiet min max capacity d₀ (fs ++ [.thread e]) ⟨s', phase, entering⟩ := by
  obtain ⟨⟨hdown', htasks'⟩, hevent, hadds'⟩ := hs.quiet hQ.shutdown
  have hfinished : finished (fs ++ [.thread e]) = finished fs :=
    (finished_concat ..).trans (List.append_nil _)
  refine ⟨hQ.fresh.step hs, fun f hf => (hQ.entering f hf).step hQ.fresh hs (he f hf), hdown',
    (hs.bounded hQ.bounded).1, events_concat hQ.events ?_, ?_, ?_, ?_⟩
  · rintro _ ⟨⟩
    exact hevent
  · rw [hfinished]
    exact hQ.progress
  · rw [hfinished, hQ.tasks]
    exact congrArg _ htasks'.symm
  · obtain ⟨woken, hwoken, hasleep⟩ := hQ.waits
    refine ⟨woken, hfinished ▸ hwoken, fun i hi hnot => ?_⟩
    rw [List.mem_append, not_or, List.mem_singleton] at hnot
    exact (hasleep i hi hnot.1).imp_right fun h => hadds' i h fun he => hnot.2 (he ▸ rfl)

omit [DecidableEq ι] in
/-- **The section in progress ends**. -/
theorem DestroyState.Quiet.finish {phase : DestroyPhase}
    (hQ : DestroyState.Quiet min max capacity d₀ fs ⟨s, phase, some e⟩) (hF : s'.Fresh)
    (hdown : s'.pool.shutdown = true) (hB : s'.pool.Bounded min max capacity)
    (htasks : s.pool.tasks ++ accepted [e] = taken [e] ++ s'.pool.tasks)
    (hwaits : ∃ woken : Option ι, (woken ≠ none → ∃ w task, e = .take w task) ∧
      ∀ i, s.adds i = .asleep → woken = some i ∨ s'.adds i = .asleep) :
    DestroyState.Quiet min max capacity d₀ (fs ++ [.finish e]) ⟨s', phase, none⟩ := by
  rcases hQ.progress with ⟨hentering, hnone⟩ | ⟨hentering, -⟩
  · have hfinished : finished (fs ++ [.finish e]) = [e] := by
      rw [finished_concat, hnone]
      rfl
    refine ⟨hF, (fun _ hf => nomatch hf), hdown, hB, events_concat hQ.events (by rintro _ ⟨⟩),
      .inr ⟨rfl, e, hentering.symm, hfinished⟩, ?_, ?_⟩
    · -- nothing was added or taken before
      have hbefore := hQ.tasks
      rw [hnone] at hbefore
      have hsame : d₀.threads.pool.tasks = s.pool.tasks := (List.append_nil _).symm.trans hbefore
      rw [hfinished, hsame]
      exact htasks
    · obtain ⟨woken₀, hwoken₀, hasleep₀⟩ := hQ.waits
      have hnone₀ : woken₀ = none := by
        by_contra hne
        obtain ⟨w, task, h⟩ := hwoken₀ hne
        cases hnone.symm.trans h
      obtain ⟨woken, hwoken, hasleep⟩ := hwaits
      refine ⟨woken, fun hne => ?_, fun i hi hnot => ?_⟩
      · obtain ⟨w, task, rfl⟩ := hwoken hne
        exact ⟨w, task, hfinished⟩
      · have hnot' : .thread (.spuriousAdd i) ∉ fs := fun h => hnot (List.mem_append_left _ h)
        rcases hasleep₀ i hi hnot' with h | h
        · cases hnone₀.symm.trans h
        · exact hasleep i h
  · cases hentering

/-- **A step keeps the queue and the threads that wait for room**. -/
theorem DestroyState.Quiet.step (hQ : DestroyState.Quiet min max capacity d₀ fs d)
    (h : d.Step f d') : DestroyState.Quiet min max capacity d₀ (fs ++ [f]) d' := by
  obtain ⟨hF', hE'⟩ := h.entering hQ.fresh hQ.entering
  have hB := hQ.bounded
  -- an event of the destroying thread leaves the threads as they are
  have hother : ∀ {f : DestroyEvent ι τ} {d' : DestroyState ι τ}, f.finished = none →
      (∀ e, f ≠ .thread e) → d'.threads.Fresh ∧ d'.Entering → d'.entering = d.entering →
      d'.threads.pool = d.threads.pool → d'.threads.adds = d.threads.adds →
      DestroyState.Quiet min max capacity d₀ (fs ++ [f]) d' := by
    intro f d' hnone hne hfresh hentering hpool hadds
    have hfinished : finished (fs ++ [f]) = finished fs := by
      rw [finished_concat, hnone]
      exact List.append_nil _
    refine ⟨hfresh.1, hfresh.2, hpool ▸ hQ.shutdown, hpool ▸ hB,
      events_concat hQ.events fun e he => absurd he (hne e), ?_, ?_, ?_⟩
    · rw [hfinished, hentering]
      exact hQ.progress
    · rw [hfinished, hpool]
      exact hQ.tasks
    · obtain ⟨woken, hwoken, hasleep⟩ := hQ.waits
      refine ⟨woken, hfinished ▸ hwoken, fun i hi hnot => ?_⟩
      rw [hadds]
      exact hasleep i hi fun h => hnot (List.mem_append_left _ h)
  cases h with
  | thread _ he hs => exact hQ.thread he hs
  | sleep =>
    exact hQ.finish hF' hQ.shutdown hB (List.append_nil _) ⟨none, by simp, fun _ h => .inr h⟩
  | @take s phase w task pool adds _ hr hadds =>
    have hB₀ : ThreadPool.Bounded { s.pool with shutdown := false } min max capacity :=
      { hB with }
    obtain ⟨hB', htasks⟩ := hB₀.takeTest hr
    -- one of the threads that wait for room is woken at most
    obtain ⟨woken, hwoken⟩ := hadds.exists_other
    exact hQ.finish hF' rfl { hB' with } ((List.append_nil _).trans htasks)
      ⟨woken, fun _ => ⟨w, task, rfl⟩, hwoken⟩
  | @addSleep s phase i _ =>
    refine hQ.finish hF' hQ.shutdown hB (List.append_nil _) ⟨none, by simp, fun j hj => .inr ?_⟩
    dsimp only
    by_cases hji : j = i
    · rw [hji, Function.update_self]
    · rw [Function.update_of_ne hji, hj]
  | @add s phase i task pool workers _ hr hworkers =>
    have hB₀ : ThreadPool.Bounded { s.pool with shutdown := false } min max capacity :=
      { hB with }
    obtain ⟨hB', htasks⟩ := hB₀.add hr
    have hadds : s.adds i = .called ∨ s.adds i = .woken := hQ.entering (.added i task) rfl
    refine hQ.finish hF' rfl { hB' with } htasks.symm ⟨none, by simp, fun j hj => .inr ?_⟩
    have hji : j ≠ i := by
      rintro rfl
      rcases hadds with h | h <;> cases h.symm.trans hj
    exact (Function.update_of_ne hji ..).trans hj
  | join => exact hother rfl (by rintro _ ⟨⟩) ⟨hF', hE'⟩ rfl rfl rfl
  | signal => exact hother rfl (by rintro _ ⟨⟩) ⟨hF', hE'⟩ rfl rfl rfl
  | free => exact hother rfl (by rintro _ ⟨⟩) ⟨hF', hE'⟩ rfl rfl rfl

omit [DecidableEq ι] in
/-- **The flag is set**: nothing is added, taken or woken by that. -/
theorem ThreadPoolDestroy.quiet (h : ThreadPoolDestroy s d) (hF : s.Fresh)
    (hB : s.pool.Bounded min max capacity) : DestroyState.Quiet min max capacity d [] d ∧
      d.threads.pool.tasks = s.pool.tasks ∧ d.threads.adds = s.adds := by
  have hquiet : ∀ {d : DestroyState ι τ}, d.threads.Fresh → d.Entering →
      d.threads.pool.shutdown = true → d.threads.pool.Bounded min max capacity →
      DestroyState.Quiet min max capacity d [] d := by
    intro d hF hE hdown hB
    exact ⟨hF, hE, hdown, hB, fun e he => absurd he List.not_mem_nil, .inl ⟨rfl, rfl⟩,
      List.append_nil _, none, by simp, fun _ h _ => .inr h⟩
  cases h with
  | between => exact ⟨hquiet hF (fun _ hf => nomatch hf) rfl { hB with }, rfl, rfl⟩
  | waits hr =>
    obtain ⟨hB', htasks⟩ := hB.wait hr
    obtain ⟨-, e, rfl⟩ := hr.wait
    refine ⟨hquiet hF ?_ rfl { hB' with }, htasks, rfl⟩
    rintro f ⟨⟩
    exact hr.ready_or_woken
  | takes hr =>
    refine ⟨hquiet hF ?_ rfl { hB with }, rfl, rfl⟩
    rintro f ⟨⟩
    exact hr.ready_or_woken
  | addWaits hphase =>
    refine ⟨hquiet hF ?_ rfl { hB with }, rfl, rfl⟩
    rintro f ⟨⟩
    exact hphase
  | adds hphase =>
    refine ⟨hquiet hF ?_ rfl { hB with }, rfl, rfl⟩
    rintro f ⟨⟩
    exact hphase

/-- **The end of the queue**: after the flag is set only the critical section that was in progress
adds a task or takes one, when it had tested the flag before. The others in the queue are never
taken; and a thread that waits for room does so for ever, unless it wakes up by itself, or is the
one that this section has woken. -/
theorem destroy_quiet (hmax : min ≤ max) (hcapacity : 0 < capacity)
    (h : Trace PoolState.Step (PoolState.init (threadPoolCreate min max capacity taskQ) :
      PoolState ι τ) es s) (hdestroy : ThreadPoolDestroy s d₀)
    (hrun : Trace DestroyState.Step d₀ fs d) :
    (∀ e, .thread e ∈ fs → e.acceptedTask = none ∧ e.takenTask = none) ∧
      (finished fs = [] ∨ ∃ e, d₀.entering = some e ∧ finished fs = [e]) ∧
        accepted (es ++ finished fs) = taken (es ++ finished fs) ++ d.threads.pool.tasks ∧
          ∃ woken : Option ι, (woken ≠ none → ∃ w task, finished fs = [.take w task]) ∧
            ∀ i, s.adds i = .asleep → .thread (.spuriousAdd i) ∉ fs →
              woken = some i ∨ d.threads.adds i = .asleep := by
  obtain ⟨hB, htasks⟩ := bounded_of_trace hmax hcapacity h
  obtain ⟨hstart, htasks₀, hadds₀⟩ := hdestroy.quiet (.trace h) hB
  have hQ : DestroyState.Quiet min max capacity d₀ fs d := by
    induction hrun with
    | start => exact hstart
    | step _ hs ih => exact ih.step hs
  refine ⟨hQ.events, hQ.progress.imp And.right And.right, ?_, hadds₀ ▸ hQ.waits⟩
  calc accepted (es ++ finished fs)
      = taken es ++ (s.pool.tasks ++ accepted (finished fs)) := by
        rw [accepted_append, htasks, List.append_assoc]
    _ = taken es ++ (taken (finished fs) ++ d.threads.pool.tasks) := by rw [← htasks₀, hQ.tasks]
    _ = taken (es ++ finished fs) ++ d.threads.pool.tasks := by
        rw [taken_append, List.append_assoc]

theorem destroy_quiet_taking : ∃ es fs, ∃ s : PoolState Bool ℕ, ∃ d₀ d,
    Trace PoolState.Step (PoolState.init (threadPoolCreate 1 1 1 fun _ => 0)) es s ∧
      ThreadPoolDestroy s d₀ ∧ Trace DestroyState.Step d₀ fs d ∧ s.adds true = .asleep ∧
        finished fs = [.take 0 7] ∧ d.threads.adds true = .woken ∧
          (∀ e, .thread e ∈ fs → e.acceptedTask = none ∧ e.takenTask = none) ∧
            (finished fs = [] ∨ ∃ e, d₀.entering = some e ∧ finished fs = [e]) ∧
              accepted (es ++ finished fs) = taken (es ++ finished fs) ++ d.threads.pool.tasks ∧
                ∃ woken : Option Bool, (woken ≠ none → ∃ w task, finished fs = [.take w task]) ∧
                  ∀ i, s.adds i = .asleep → .thread (.spuriousAdd i) ∉ fs →
                    woken = some i ∨ d.threads.adds i = .asleep := by
  have hcall : Trace PoolState.Step
      (PoolState.init (threadPoolCreate 1 1 1 fun _ => 0) : PoolState Bool ℕ) [.call false 7] _ :=
    .single (.call rfl)
  have hadded := hcall.step (e := .added false 7)
    (.added (.inl rfl) rfl rfl ((PoolState.Fresh.trace hcall).signal_none (by decide)))
  have hcall' := hadded.step (e := .call true 8) (.call rfl)
  have hwait := hcall'.step (e := .addWait true) (.addWait (.inl rfl) rfl rfl)
  -- the flag is set while the worker takes the first task, and the manager ends after that
  obtain ⟨s, h, hasleep, hmanager, hready, p, p', hr, hr'⟩ : ∃ s : PoolState Bool ℕ,
      Trace PoolState.Step (PoolState.init (threadPoolCreate 1 1 1 fun _ => 0)) _ s ∧
        s.adds true = .asleep ∧ s.manager = .test ∧ s.workers 0 = .ready ∧ ∃ p p',
          workerTest s.pool = (p, .take 7) ∧
            workerTest { s.pool with exitNum := p.exitNum, shutdown := false } = (p', .take 7) :=
    ⟨_, hwait, rfl, rfl, rfl, _, _, rfl, rfl⟩
  have htakes : ThreadPoolDestroy s _ := .takes (.inl ⟨hready, hr⟩)
  have htake : DestroyState.Step
      ⟨{ s with pool := { s.pool with exitNum := p.exitNum, shutdown := true } }, .joining,
        some (.take 0 7)⟩ (.finish (.take 0 7)) _ :=
    .take (by rintro ⟨⟩) hr' (.inl ⟨true, hasleep, rfl⟩)
  have hs : PoolState.Step
      { s with
        pool := { p' with shutdown := true }
        workers := Function.update s.workers 0 (.took 7)
        adds := Function.update s.adds true .woken } .manager _ := .managerEnd hmanager rfl
  have hrun := (Trace.single htake).step (.thread (by rintro ⟨⟩) (by rintro f ⟨⟩) hs)
  exact ⟨_, _, s, _, _, h, htakes, hrun, hasleep, rfl, rfl,
    destroy_quiet (by decide) (by decide) h htakes hrun⟩

end Adrift
