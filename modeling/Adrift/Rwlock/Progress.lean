import Adrift.Lib.Census
import Adrift.Rwlock.RwLock
import Mathlib.Data.Fintype.Card
import Mathlib.Tactic.Linarith

/-!
# The lock is passed on

The cache takes the lock for one access and holds no other lock meanwhile. Threads that do so are
never stuck: once no thread calls any more, their tests and releases come to an end, whatever their
order, and then every call has returned and nobody holds the lock.

## Main definitions

* `LockState.CallsFree s e`: a thread calls only while it does not hold the lock
* `LockEvent.Completes`: the tests and the releases
* `LockState.work s`: a bound for the tests and releases that are left

## Main results

* `LockState.work_step`: a test or a release lowers the bound
* `LockState.drained`: threads that can neither test nor release are outside, without the lock
* `rwlock_drains`: so every run comes to an end with all calls returned
-/

namespace Adrift

open ConditionVariable Transition

variable {ι : Type} {s s' : LockState ι} {e : LockEvent ι} {es es' : List (LockEvent ι)}

/-- **A thread calls only while it does not hold the lock**, as `cache_insert` and `cache_find`
do. -/
def LockState.CallsFree (s : LockState ι) : LockEvent ι → Prop
  | .readCall i | .writeCall i => i ∉ s.readers ∧ i ∉ s.writers
  | _ => True

/-- **The tests and the releases**, which bring threads out of their calls. -/
def LockEvent.Completes : LockEvent ι → Prop
  | .readTest _ | .readUnlock _ | .writeTest _ | .writeUnlock _ => True
  | _ => False

theorem LockEvent.Completes.callsFree (he : e.Completes) : s.CallsFree e := by
  cases e with
  | readCall => exact he.elim
  | writeCall => exact he.elim
  | _ => trivial

/-- In a call. -/
def LockPhase.calls (p : LockPhase) : Bool := p.reads || p.writes

/-- In a call, and about to test. -/
def LockPhase.tests : LockPhase → Bool
  | readCalled | readWoken | writeCalled | writeWoken => true
  | _ => false

/-! ## Holders -/

/-- **Who holds the lock is outside**. -/
def LockState.HoldersOutside (s : LockState ι) : Prop :=
  ∀ i, i ∈ s.readers ∨ i ∈ s.writers → s.phase i = .outside

variable [DecidableEq ι]

theorem LockState.HoldersOutside.update {i : ι} {phase : LockPhase} (hH : s.HoldersOutside)
    (hi : i ∉ s.readers ∧ i ∉ s.writers) :
    LockState.HoldersOutside { s with phase := Function.update s.phase i phase } := by
  intro j hj
  have hne : j ≠ i := by
    rintro rfl
    exact hj.elim hi.1 hi.2
  exact (Function.update_of_ne hne ..).trans (hH j hj)

omit [DecidableEq ι] in
/-- A thread in a call does not hold the lock. -/
theorem LockState.HoldersOutside.notMem (hH : s.HoldersOutside) {i : ι}
    (hi : s.phase i ≠ .outside) : i ∉ s.readers ∧ i ∉ s.writers :=
  ⟨fun h => hi (hH i (.inl h)), fun h => hi (hH i (.inr h))⟩

/-- A signal leaves the threads outside alone. -/
theorem SignalWriters.outside {signals : Bool} {p p' : ι → LockPhase}
    (h : SignalWriters signals p p') {i : ι} (hi : p i = .outside) : p' i = .outside := by
  rw [SignalWriters] at h
  split_ifs at h
  · rcases h.apply i with hi' | ⟨hi', -⟩
    · exact hi'.trans hi
    · cases hi.symm.trans hi'
  · rw [h, hi]

omit [DecidableEq ι] in
theorem broadcastReaders_outside {signals : Bool} {p : ι → LockPhase} {i : ι}
    (hi : p i = .outside) : broadcastReaders signals p i = .outside := by
  rw [broadcastReaders]
  split_ifs
  · exact (if_neg (by rw [hi]; decide)).trans hi
  · exact hi

/-- A step keeps the holders outside, when nobody calls who holds the lock. -/
theorem LockState.HoldersOutside.step (hH : s.HoldersOutside) (h : s.Step e s')
    (hcalls : s.CallsFree e) : s'.HoldersOutside := by
  have htests : ∀ {i}, s.phase i = .readCalled ∨ s.phase i = .readWoken ∨
      s.phase i = .writeCalled ∨ s.phase i = .writeWoken → i ∉ s.readers ∧ i ∉ s.writers := by
    intro i hi
    apply hH.notMem
    rcases hi with hi | hi | hi | hi <;> rw [hi] <;> decide
  -- a thread that acquires the lock returns from its call
  have hpass : ∀ {i}, i ∉ s.readers ∧ i ∉ s.writers → ∀ j, j = i ∨ j ∈ s.readers ∨ j ∈ s.writers →
      Function.update s.phase i .outside j = .outside := by
    intro i hi j hj
    by_cases hji : j = i
    · rw [hji, Function.update_self]
    · rw [Function.update_of_ne hji]
      exact hH j (hj.resolve_left hji)
  cases h with
  | readCall hphase hi => exact hH.update hcalls
  | readPass hphase hl =>
    intro j hj
    refine hpass (htests (hphase.imp id .inl)) j ?_
    simpa only [Finset.mem_insert, or_assoc] using hj
  | readWait hphase hl => exact hH.update (htests (hphase.imp id .inl))
  | readUnlock hphase hi hl hp =>
    exact fun j hj => hp.outside (hH j (hj.imp_left Finset.mem_of_mem_erase))
  | writeCall hphase hi => exact hH.update hcalls
  | writePass hphase hl =>
    intro j hj
    refine hpass (htests (.inr (.inr hphase))) j ?_
    rcases hj with hj | hj
    · exact .inr (.inl hj)
    · exact (Finset.mem_insert.mp hj).imp id .inr
  | writeWait hphase hl => exact hH.update (htests (.inr (.inr hphase)))
  | writeUnlock hphase hi hl hp =>
    exact fun j hj =>
      broadcastReaders_outside (hp.outside (hH j (hj.imp_right Finset.mem_of_mem_erase)))
  | spuriousRead hphase => exact hH.update (hH.notMem (by rw [hphase]; decide))
  | spuriousWrite hphase => exact hH.update (hH.notMem (by rw [hphase]; decide))

/-! ## The end -/

theorem exists_signalWriters (signals : Bool) (p : ι → LockPhase) :
    ∃ p', SignalWriters signals p p' := by
  unfold SignalWriters
  split_ifs
  · exact exists_signal .writeAsleep .writeWoken p
  · exact ⟨p, rfl⟩

/-- **Threads that can neither test nor release** are outside, and nobody holds the lock: a call
that sleeps waits for a holder, or for a thread that is to test. -/
theorem LockState.drained (hA : s.Awake) (hH : s.HoldersOutside)
    (hstuck : ∀ e s', e.Completes → ¬ s.Step e s') :
    ∀ i, s.phase i = .outside ∧ i ∉ s.readers ∧ i ∉ s.writers := by
  have hreaders : s.readers = ∅ := by
    rw [Finset.eq_empty_iff_forall_notMem]
    intro i hi
    obtain ⟨p, hp⟩ := exists_signalWriters (rwlockReadUnlock s.lock).2 s.phase
    exact hstuck (.readUnlock i) _ trivial (.readUnlock (hH i (.inl hi)) hi rfl hp)
  have hwriters : s.writers = ∅ := by
    rw [Finset.eq_empty_iff_forall_notMem]
    intro i hi
    obtain ⟨p, hp⟩ := exists_signalWriters (rwlockWriteUnlock s.lock).2 s.phase
    exact hstuck (.writeUnlock i) _ trivial (.writeUnlock (hH i (.inr hi)) hi rfl hp)
  have hread : ∀ i, ¬ (s.phase i = .readCalled ∨ s.phase i = .readWoken) := by
    intro i hi
    cases hl : rwlockReadLock s.lock with
    | none => exact hstuck (.readTest i) _ trivial (.readWait hi hl)
    | some l => exact hstuck (.readTest i) _ trivial (.readPass hi hl)
  have hwrite : ∀ i, ¬ (s.phase i = .writeCalled ∨ s.phase i = .writeWoken) := by
    intro i hi
    cases hl : rwlockWriteLock s.lock with
    | none => exact hstuck (.writeTest i) _ trivial (.writeWait hi hl)
    | some l => exact hstuck (.writeTest i) _ trivial (.writePass hi hl)
  intro i
  refine ⟨?_, by simp [hreaders], by simp [hwriters]⟩
  cases hphase : s.phase i with
  | outside => rfl
  | readAsleep => exact absurd hphase (hA.readAsleep hwriters i)
  | writeAsleep =>
    obtain ⟨j, hj⟩ := hA.writeAsleep hwriters hreaders i hphase
    exact absurd (.inr hj) (hwrite j)
  | readCalled => exact absurd (.inl hphase) (hread i)
  | readWoken => exact absurd (.inr hphase) (hread i)
  | writeCalled => exact absurd (.inl hphase) (hwrite i)
  | writeWoken => exact absurd (.inr hphase) (hwrite i)

/-! ## The work that is left -/

variable [Fintype ι]

/-- **The work that is left**: a test that passes and a release for every call, a release for every
holder, and between two of them a test for every thread. -/
def LockState.work (s : LockState ι) : ℤ :=
  (2 * census Finset.univ LockPhase.calls s.phase + s.readers.card + s.writers.card) *
    (Fintype.card ι + 1) + census Finset.univ LockPhase.tests s.phase

omit [DecidableEq ι] in
/-- No more threads are about to test than there are. -/
theorem tests_le_card (p : ι → LockPhase) :
    census Finset.univ LockPhase.tests p ≤ Fintype.card ι := by
  rw [census_eq_card]
  exact_mod_cast Finset.card_le_univ _

omit [DecidableEq ι] in
theorem LockState.work_nonneg (s : LockState ι) : 0 ≤ s.work := by
  have hcalls := census_nonneg Finset.univ LockPhase.calls s.phase
  have htests := census_nonneg Finset.univ LockPhase.tests s.phase
  rw [work]
  apply add_nonneg _ htests
  apply mul_nonneg <;> omega

/-- One holder or caller less outweighs the tests of all threads. -/
theorem lower_work {a a' t t' n : ℤ} (hn : 0 ≤ n) (ha : a' + 1 ≤ a) (ht : 0 ≤ t) (ht' : t' ≤ n) :
    a' * (n + 1) + t' + 1 ≤ a * (n + 1) + t := by
  have hmul := mul_le_mul_of_nonneg_right ha (by omega : 0 ≤ n + 1)
  rw [add_mul, one_mul] at hmul
  omega

/-- **A test that fails** sends a thread to sleep. -/
theorem LockState.work_wait {i : ι} {phase : LockPhase} (hphase : (s.phase i).tests)
    (hcalls : phase.calls = (s.phase i).calls) (htests : phase.tests = false) :
    LockState.work { s with phase := Function.update s.phase i phase } + 1 ≤ s.work := by
  have hc := census_update (p := LockPhase.calls) (f := s.phase) (Finset.mem_univ i) phase
  have ht := census_update (p := LockPhase.tests) (f := s.phase) (Finset.mem_univ i) phase
  rw [indicator, indicator, hcalls] at hc
  rw [indicator, indicator, hphase, htests, if_neg Bool.false_ne_true, if_pos rfl] at ht
  rw [work, work]
  dsimp only
  rw [hc, ht, add_sub_cancel_right]
  omega

/-- **A test that passes** makes a call into a holder. -/
theorem LockState.work_pass {i : ι} {l : RwLock} {readers writers : Finset ι}
    (hcalls : (s.phase i).calls)
    (hcard : readers.card + writers.card = s.readers.card + s.writers.card + 1) :
    LockState.work ⟨l, Function.update s.phase i .outside, readers, writers⟩ + 1 ≤ s.work := by
  have hc := census_update (p := LockPhase.calls) (f := s.phase) (Finset.mem_univ i) .outside
  rw [indicator, indicator, hcalls, if_pos rfl, if_neg (by decide)] at hc
  apply lower_work (Int.natCast_nonneg _)
  · rw [hc]
    push_cast [← hcard]
    omega
  · exact census_nonneg ..
  · exact tests_le_card _

omit [DecidableEq ι] in
/-- **A release** lets threads test again, and is one holder less. -/
theorem LockState.work_release {l : RwLock} {p : ι → LockPhase} {readers writers : Finset ι}
    (hcalls : ∀ i, (p i).calls = (s.phase i).calls)
    (hcard : readers.card + writers.card + 1 = s.readers.card + s.writers.card) :
    LockState.work ⟨l, p, readers, writers⟩ + 1 ≤ s.work := by
  have hc : census Finset.univ LockPhase.calls p = census Finset.univ LockPhase.calls s.phase :=
    census_congr fun i _ => hcalls i
  apply lower_work (Int.natCast_nonneg _)
  · dsimp only
    rw [hc]
    omega
  · exact census_nonneg ..
  · exact tests_le_card p

/-- **A test or a release lowers the work** that is left. -/
theorem LockState.work_step (hC : s.Counts) (h : s.Step e s') (he : e.Completes) :
    s'.work + 1 ≤ s.work := by
  cases h with
  | readCall => exact he.elim
  | @readPass i l hphase hl =>
    refine work_pass (i := i) (by rcases hphase with h | h <;> rw [h] <;> rfl) ?_
    rw [Finset.card_insert_of_notMem (hC.reads_notMem hphase)]
    omega
  | @readWait i hphase hl =>
    apply work_wait _ _ rfl <;> rcases hphase with h | h <;> rw [h] <;> rfl
  | @readUnlock i l signals p hphase hi hl hp =>
    refine work_release (fun j => ?_) ?_
    · rw [LockPhase.calls, LockPhase.calls, (hp.calls j).1, (hp.calls j).2]
    · have := Finset.card_erase_add_one hi
      omega
  | writeCall => exact he.elim
  | @writePass i l hphase hl =>
    refine work_pass (i := i) (by rcases hphase with h | h <;> rw [h] <;> rfl) ?_
    rw [Finset.card_insert_of_notMem (hC.writes_notMem hphase)]
    omega
  | @writeWait i hphase hl =>
    apply work_wait _ _ rfl <;> rcases hphase with h | h <;> rw [h] <;> rfl
  | @writeUnlock i l signals p hphase hi hl hp =>
    refine work_release (fun j => ?_) ?_
    · obtain ⟨hr, hw⟩ := broadcastReaders_calls signals p j
      rw [LockPhase.calls, LockPhase.calls, hr, hw, (hp.calls j).1, (hp.calls j).2]
    · have := Finset.card_erase_add_one hi
      omega
  | spuriousRead => exact he.elim
  | spuriousWrite => exact he.elim

/-- **The lock is passed on**: threads have called while they did not hold it, and call no more;
then their tests and releases come to an end in any order, and when they can neither test nor
release, every call has returned and nobody holds the lock. -/
theorem rwlock_drains (h : Trace (Restrict LockState.Step LockState.CallsFree) .init es s)
    (h' : Trace (Restrict LockState.Step fun _ e => e.Completes) s es' s') :
    es'.length ≤ s.work ∧ ((∀ e s'', e.Completes → ¬ s'.Step e s'') →
      ∀ i, s'.phase i = .outside ∧ i ∉ s'.readers ∧ i ∉ s'.writers) := by
  -- what the threads keep before and after the last call
  let P : LockState ι → Prop := fun s => s.Counts ∧ s.Awake ∧ s.HoldersOutside
  have hstep : ∀ {s e s'}, P s → s.Step e s' → s.CallsFree e → P s' :=
    fun ⟨hC, hA, hH⟩ hs hcalls => ⟨hC.step hs, hA.step hC hs, hH.step hs hcalls⟩
  have hinit : P .init := ⟨.init, .init, fun i hi => by simp [LockState.init] at hi⟩
  have hP : P s := h.invariant hinit fun hP hs => hstep hP hs.1 hs.2
  obtain ⟨⟨hC, hA, hH⟩, hle⟩ := h'.length_add_le (μ := LockState.work) hP
    fun hP ⟨hs, he⟩ => ⟨hstep hP hs he.callsFree, LockState.work_step hP.1 hs he⟩
  have hwork := s'.work_nonneg
  exact ⟨by omega, LockState.drained hA hH⟩

theorem rwlock_drains_sleeping : ∃ es, ∃ s : LockState (Fin 2),
    Trace (Restrict LockState.Step LockState.CallsFree) .init es s ∧ s.phase 1 = .writeAsleep ∧
      ∀ es' s', Trace (Restrict LockState.Step fun _ e => e.Completes) s es' s' →
        (∀ e s'', e.Completes → ¬ s'.Step e s'') → s'.phase 1 = .outside := by
  have hcall : Trace (Restrict LockState.Step LockState.CallsFree)
      (.init : LockState (Fin 2)) [.readCall 0] _ :=
    .single ⟨.readCall rfl (Finset.notMem_empty 0), Finset.notMem_empty 0, Finset.notMem_empty 0⟩
  have hread := hcall.step ⟨.readPass (i := 0) (.inl rfl) rfl, trivial⟩
  have hwrite := hread.step ⟨.writeCall (i := 1) rfl (Finset.notMem_empty 1), by decide, by decide⟩
  -- the writer sleeps while the reader holds the lock
  have hsleep := hwrite.step ⟨.writeWait (i := 1) (.inl rfl) rfl, trivial⟩
  exact ⟨_, _, hsleep, rfl, fun es' s' h' hstuck => ((rwlock_drains hsleep h').2 hstuck 1).1⟩

end Adrift
