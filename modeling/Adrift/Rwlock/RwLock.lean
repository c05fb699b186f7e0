import Adrift.Lib.ConditionVariable
import Adrift.Lib.Transition
import Mathlib.Data.Finset.Card

/-!
# The lock of the cache

`rwlock/rwlock.c`: a lock for readers and writers made of a mutex, two condition variables and two
counters. The mutex makes every critical section one step. A thread tests the counters when it has
called, and again whenever it was woken, and sleeps in between; it takes no lock that it holds
already.

## Main definitions

* `RwLock`, `rwlockReadLock`, `rwlockReadUnlock`, `rwlockWriteLock`, `rwlockWriteUnlock`: the
  counters, and the critical sections
* `LockState`: the counters, what the threads are doing, and who holds the lock
* `LockState.Step`: calls, tests, releases and spurious wake-ups, by any thread in any order

## Main results

* `LockState.Counts.step`: the counters count the holders, and writers exclude all others
* `LockState.Awake.step`: nobody sleeps while the lock is free, unless a woken thread is to test
* `rwlock_exclusion`: both, in every state that is reached
-/

namespace Adrift

open ConditionVariable Transition

/-! ## The critical sections -/

/-- `RwLock`, without its mutex and its condition variables. -/
structure RwLock where
  readerCount : ℤ
  writerCount : ℤ
  deriving DecidableEq

/-- `rwlock_ctor`. -/
def rwlockCtor : RwLock := ⟨0, 0⟩

/-- A test of `rwlock_read_lock`: nothing when the thread has to wait on `read_cond`. -/
def rwlockReadLock (l : RwLock) : Option RwLock :=
  if 0 < l.writerCount then none else some { l with readerCount := l.readerCount + 1 }

/-- `rwlock_read_unlock`: the lock, and whether `write_cond` is signalled. -/
def rwlockReadUnlock (l : RwLock) : RwLock × Bool :=
  let l := { l with readerCount := l.readerCount - 1 }
  (l, l.readerCount = 0)

/-- A test of `rwlock_write_lock`: nothing when the thread has to wait on `write_cond`. -/
def rwlockWriteLock (l : RwLock) : Option RwLock :=
  if 0 < l.writerCount ∨ 0 < l.readerCount then none
  else some { l with writerCount := l.writerCount + 1 }

/-- `rwlock_write_unlock`: the lock, and whether `write_cond` is signalled and `read_cond`
broadcast. -/
def rwlockWriteUnlock (l : RwLock) : RwLock × Bool :=
  let l := { l with writerCount := l.writerCount - 1 }
  (l, l.writerCount = 0)

/-! ## The threads -/

/-- **What a thread is doing**: it is outside the calls that lock, or in one, before its first
test, asleep, or woken and before its next test. -/
inductive LockPhase
  | outside
  | readCalled
  | readAsleep
  | readWoken
  | writeCalled
  | writeAsleep
  | writeWoken
  deriving DecidableEq

/-- In a call of `rwlock_read_lock`. -/
def LockPhase.reads : LockPhase → Bool
  | readCalled | readAsleep | readWoken => true
  | _ => false

/-- In a call of `rwlock_write_lock`. -/
def LockPhase.writes : LockPhase → Bool
  | writeCalled | writeAsleep | writeWoken => true
  | _ => false

/-- The lock, what the threads are doing, and the threads that hold the lock. -/
structure LockState (ι : Type) where
  lock : RwLock
  phase : ι → LockPhase
  readers : Finset ι
  writers : Finset ι

variable {ι : Type}

/-- No thread has called yet. -/
def LockState.init : LockState ι := ⟨rwlockCtor, fun _ => .outside, ∅, ∅⟩

/-- The events of the threads. -/
inductive LockEvent (ι : Type)
  | readCall (i : ι)
  | readTest (i : ι)
  | readUnlock (i : ι)
  | writeCall (i : ι)
  | writeTest (i : ι)
  | writeUnlock (i : ι)
  | spurious (i : ι)

/-- The signal to `write_cond`, when there is one. -/
def SignalWriters [DecidableEq ι] (signals : Bool) (p p' : ι → LockPhase) : Prop :=
  if signals then Signal .writeAsleep .writeWoken p p' else p' = p

/-- The broadcast to `read_cond`, when there is one. -/
def broadcastReaders (signals : Bool) (p : ι → LockPhase) : ι → LockPhase :=
  if signals then broadcast .readAsleep .readWoken p else p

/-- **The steps of the threads**. -/
inductive LockState.Step [DecidableEq ι] : LockState ι → LockEvent ι → LockState ι → Prop
  | readCall {s : LockState ι} {i : ι} (hphase : s.phase i = .outside) (hi : i ∉ s.readers) :
      Step s (.readCall i) { s with phase := Function.update s.phase i .readCalled }
  | readPass {s : LockState ι} {i : ι} {l : RwLock}
      (hphase : s.phase i = .readCalled ∨ s.phase i = .readWoken)
      (hl : rwlockReadLock s.lock = some l) :
      Step s (.readTest i)
        ⟨l, Function.update s.phase i .outside, insert i s.readers, s.writers⟩
  | readWait {s : LockState ι} {i : ι}
      (hphase : s.phase i = .readCalled ∨ s.phase i = .readWoken)
      (hl : rwlockReadLock s.lock = none) :
      Step s (.readTest i) { s with phase := Function.update s.phase i .readAsleep }
  | readUnlock {s : LockState ι} {i : ι} {l : RwLock} {signals : Bool} {p : ι → LockPhase}
      (hphase : s.phase i = .outside) (hi : i ∈ s.readers)
      (hl : rwlockReadUnlock s.lock = (l, signals)) (hp : SignalWriters signals s.phase p) :
      Step s (.readUnlock i) ⟨l, p, s.readers.erase i, s.writers⟩
  | writeCall {s : LockState ι} {i : ι} (hphase : s.phase i = .outside) (hi : i ∉ s.writers) :
      Step s (.writeCall i) { s with phase := Function.update s.phase i .writeCalled }
  | writePass {s : LockState ι} {i : ι} {l : RwLock}
      (hphase : s.phase i = .writeCalled ∨ s.phase i = .writeWoken)
      (hl : rwlockWriteLock s.lock = some l) :
      Step s (.writeTest i)
        ⟨l, Function.update s.phase i .outside, s.readers, insert i s.writers⟩
  | writeWait {s : LockState ι} {i : ι}
      (hphase : s.phase i = .writeCalled ∨ s.phase i = .writeWoken)
      (hl : rwlockWriteLock s.lock = none) :
      Step s (.writeTest i) { s with phase := Function.update s.phase i .writeAsleep }
  | writeUnlock {s : LockState ι} {i : ι} {l : RwLock} {signals : Bool} {p : ι → LockPhase}
      (hphase : s.phase i = .outside) (hi : i ∈ s.writers)
      (hl : rwlockWriteUnlock s.lock = (l, signals)) (hp : SignalWriters signals s.phase p) :
      Step s (.writeUnlock i) ⟨l, broadcastReaders signals p, s.readers, s.writers.erase i⟩
  | spuriousRead {s : LockState ι} {i : ι} (hphase : s.phase i = .readAsleep) :
      Step s (.spurious i) { s with phase := Function.update s.phase i .readWoken }
  | spuriousWrite {s : LockState ι} {i : ι} (hphase : s.phase i = .writeAsleep) :
      Step s (.spurious i) { s with phase := Function.update s.phase i .writeWoken }

variable {s s' : LockState ι} {e : LockEvent ι} {es : List (LockEvent ι)}

/-! ## Exclusion -/

/-- **The counters count the holders**, and writers exclude all others. A thread in a call does not
hold what it calls for. -/
structure LockState.Counts (s : LockState ι) : Prop where
  readerCount : s.lock.readerCount = s.readers.card
  writerCount : s.lock.writerCount = s.writers.card
  writers_le : s.writers.card ≤ 1
  exclusive : s.writers ≠ ∅ → s.readers = ∅
  notReader : ∀ i, (s.phase i).reads → i ∉ s.readers
  notWriter : ∀ i, (s.phase i).writes → i ∉ s.writers

theorem LockState.Counts.writing_iff (hC : s.Counts) : 0 < s.lock.writerCount ↔ s.writers ≠ ∅ := by
  rw [hC.writerCount, Int.natCast_pos, Finset.card_pos, Finset.nonempty_iff_ne_empty]

theorem LockState.Counts.reading_iff (hC : s.Counts) : 0 < s.lock.readerCount ↔ s.readers ≠ ∅ := by
  rw [hC.readerCount, Int.natCast_pos, Finset.card_pos, Finset.nonempty_iff_ne_empty]

/-- **The test of a reader** passes when no writer holds the lock. -/
theorem LockState.Counts.readLock_eq_some (hC : s.Counts) {l : RwLock}
    (hl : rwlockReadLock s.lock = some l) :
    s.writers = ∅ ∧ l = { s.lock with readerCount := s.lock.readerCount + 1 } := by
  rw [rwlockReadLock] at hl
  split_ifs at hl with h
  rw [hC.writing_iff, not_not] at h
  exact ⟨h, (Option.some.inj hl).symm⟩

theorem LockState.Counts.readLock_eq_none (hC : s.Counts) (hl : rwlockReadLock s.lock = none) :
    s.writers ≠ ∅ := by
  rw [rwlockReadLock] at hl
  split_ifs at hl with h
  exact hC.writing_iff.mp h

/-- **The test of a writer** passes when nobody holds the lock. -/
theorem LockState.Counts.writeLock_eq_some (hC : s.Counts) {l : RwLock}
    (hl : rwlockWriteLock s.lock = some l) :
    s.writers = ∅ ∧ s.readers = ∅ ∧ l = { s.lock with writerCount := s.lock.writerCount + 1 } := by
  rw [rwlockWriteLock] at hl
  split_ifs at hl with h
  rw [hC.writing_iff, hC.reading_iff, ← not_and_or, not_not] at h
  exact ⟨h.1, h.2, (Option.some.inj hl).symm⟩

theorem LockState.Counts.writeLock_eq_none (hC : s.Counts) (hl : rwlockWriteLock s.lock = none) :
    s.writers ≠ ∅ ∨ s.readers ≠ ∅ := by
  rw [rwlockWriteLock] at hl
  split_ifs at hl with h
  rwa [hC.writing_iff, hC.reading_iff] at h

theorem LockState.Counts.init : (LockState.init : LockState ι).Counts where
  readerCount := rfl
  writerCount := rfl
  writers_le := Nat.zero_le _
  exclusive h := absurd rfl h
  notReader _ h := nomatch h
  notWriter _ h := nomatch h

theorem LockState.Counts.reads_notMem (hC : s.Counts) {i : ι}
    (h : s.phase i = .readCalled ∨ s.phase i = .readWoken) : i ∉ s.readers := by
  apply hC.notReader
  rcases h with h | h <;> rw [h] <;> rfl

theorem LockState.Counts.writes_notMem (hC : s.Counts) {i : ι}
    (h : s.phase i = .writeCalled ∨ s.phase i = .writeWoken) : i ∉ s.writers := by
  apply hC.notWriter
  rcases h with h | h <;> rw [h] <;> rfl

variable [DecidableEq ι]

/-- A signal leaves the threads in their calls. -/
theorem SignalWriters.calls {signals : Bool} {p p' : ι → LockPhase}
    (h : SignalWriters signals p p') (i : ι) :
    (p' i).reads = (p i).reads ∧ (p' i).writes = (p i).writes := by
  rw [SignalWriters] at h
  split_ifs at h
  · rcases h.apply i with hi | ⟨hi, hi'⟩
    · rw [hi]
      exact ⟨rfl, rfl⟩
    · rw [hi, hi']
      exact ⟨rfl, rfl⟩
  · rw [h]
    exact ⟨rfl, rfl⟩

omit [DecidableEq ι] in
/-- A broadcast leaves the threads in their calls. -/
theorem broadcastReaders_calls (signals : Bool) (p : ι → LockPhase) (i : ι) :
    (broadcastReaders signals p i).reads = (p i).reads ∧
      (broadcastReaders signals p i).writes = (p i).writes := by
  rw [broadcastReaders]
  split_ifs
  · rcases broadcast_apply .readAsleep .readWoken p i with hi | ⟨hi, hi'⟩
    · rw [hi]
      exact ⟨rfl, rfl⟩
    · rw [hi, hi']
      exact ⟨rfl, rfl⟩
  · exact ⟨rfl, rfl⟩

/-- A thread that goes on keeps the counts, when it calls for nothing that it holds. -/
theorem LockState.Counts.update {i : ι} {phase : LockPhase} (hC : s.Counts)
    (hr : phase.reads → i ∉ s.readers) (hw : phase.writes → i ∉ s.writers) :
    LockState.Counts { s with phase := Function.update s.phase i phase } := by
  refine { hC with notReader := fun j hj => ?_, notWriter := fun j hj => ?_ } <;> dsimp only at hj
  · by_cases hi : j = i
    · subst hi
      rw [Function.update_self] at hj
      exact hr hj
    · rw [Function.update_of_ne hi] at hj
      exact hC.notReader j hj
  · by_cases hi : j = i
    · subst hi
      rw [Function.update_self] at hj
      exact hw hj
    · rw [Function.update_of_ne hi] at hj
      exact hC.notWriter j hj

theorem LockState.Counts.outside (hC : s.Counts) (i : ι) :
    LockState.Counts { s with phase := Function.update s.phase i .outside } :=
  hC.update (fun h => nomatch h) fun h => nomatch h

omit [DecidableEq ι] in
/-- A thread in a call is another one than one that is outside. -/
theorem ne_of_outside {p : ι → LockPhase} {i j : ι} (hi : p i = .outside)
    (hj : (p j).reads ∨ (p j).writes) : j ≠ i := by
  rintro rfl
  rw [hi] at hj
  rcases hj with hj | hj <;> cases hj

theorem LockState.Counts.readPass (hC : s.Counts) {i : ι} {l : RwLock}
    (hphase : s.phase i = .readCalled ∨ s.phase i = .readWoken)
    (hl : rwlockReadLock s.lock = some l) : LockState.Counts
      ⟨l, Function.update s.phase i .outside, insert i s.readers, s.writers⟩ := by
  obtain ⟨hempty, rfl⟩ := hC.readLock_eq_some hl
  have hi := hC.reads_notMem hphase
  have hup := hC.outside i
  refine { hup with readerCount := ?_, exclusive := fun h => absurd hempty h, notReader := ?_ }
  · dsimp only
    rw [hC.readerCount, Finset.card_insert_of_notMem hi]
    rfl
  · intro j hj hmem
    have hne : j ≠ i := ne_of_outside (Function.update_self ..) (.inl hj)
    exact hup.notReader j hj (Finset.mem_of_mem_insert_of_ne hmem hne)

theorem LockState.Counts.readUnlock (hC : s.Counts) {i : ι} {p : ι → LockPhase} {signals : Bool}
    (hi : i ∈ s.readers) (hp : SignalWriters signals s.phase p) : LockState.Counts
      ⟨(rwlockReadUnlock s.lock).1, p, s.readers.erase i, s.writers⟩ := by
  constructor
  · have hcount := hC.readerCount
    have hcard := Finset.card_erase_add_one hi
    dsimp only [rwlockReadUnlock]
    omega
  · exact hC.writerCount
  · exact hC.writers_le
  · intro hwriters
    -- a writer excludes the thread that unlocks
    rw [hC.exclusive hwriters] at hi
    cases hi
  · intro j hj hmem
    rw [(hp.calls j).1] at hj
    exact hC.notReader j hj (Finset.mem_of_mem_erase hmem)
  · intro j hj
    rw [(hp.calls j).2] at hj
    exact hC.notWriter j hj

theorem LockState.Counts.writePass (hC : s.Counts) {i : ι} {l : RwLock}
    (hphase : s.phase i = .writeCalled ∨ s.phase i = .writeWoken)
    (hl : rwlockWriteLock s.lock = some l) : LockState.Counts
      ⟨l, Function.update s.phase i .outside, s.readers, insert i s.writers⟩ := by
  obtain ⟨hempty, hreaders, rfl⟩ := hC.writeLock_eq_some hl
  have hi := hC.writes_notMem hphase
  have hup := hC.outside i
  have hcard : (insert i s.writers).card = s.writers.card + 1 := Finset.card_insert_of_notMem hi
  refine { hup with
    writerCount := ?_, writers_le := ?_, exclusive := fun _ => hreaders, notWriter := ?_ }
  · dsimp only
    rw [hC.writerCount, hcard]
    rfl
  · rw [hcard, hempty, Finset.card_empty]
  · intro j hj hmem
    have hne : j ≠ i := ne_of_outside (Function.update_self ..) (.inr hj)
    exact hup.notWriter j hj (Finset.mem_of_mem_insert_of_ne hmem hne)

theorem LockState.Counts.writeUnlock (hC : s.Counts) {i : ι} {p : ι → LockPhase} {signals : Bool}
    (hi : i ∈ s.writers) (hp : SignalWriters signals s.phase p) : LockState.Counts
      ⟨(rwlockWriteUnlock s.lock).1, broadcastReaders signals p, s.readers,
        s.writers.erase i⟩ := by
  constructor
  · exact hC.readerCount
  · have hcount := hC.writerCount
    have hcard := Finset.card_erase_add_one hi
    dsimp only [rwlockWriteUnlock]
    omega
  · exact (Finset.card_le_card (Finset.erase_subset ..)).trans hC.writers_le
  · -- the thread that unlocks excludes all readers
    exact fun _ => hC.exclusive (Finset.ne_empty_of_mem hi)
  · intro j hj
    rw [(broadcastReaders_calls _ _ j).1, (hp.calls j).1] at hj
    exact hC.notReader j hj
  · intro j hj hmem
    rw [(broadcastReaders_calls _ _ j).2, (hp.calls j).2] at hj
    exact hC.notWriter j hj (Finset.mem_of_mem_erase hmem)

/-- **A step keeps the counts**. -/
theorem LockState.Counts.step (hC : s.Counts) (h : s.Step e s') : s'.Counts := by
  cases h with
  | readCall hphase hi => exact hC.update (fun _ => hi) fun h => nomatch h
  | readPass hphase hl => exact hC.readPass hphase hl
  | readWait hphase hl => exact hC.update (fun _ => hC.reads_notMem hphase) fun h => nomatch h
  | readUnlock hphase hi hl hp =>
    cases hl
    exact hC.readUnlock hi hp
  | writeCall hphase hi => exact hC.update (fun h => nomatch h) fun _ => hi
  | writePass hphase hl => exact hC.writePass hphase hl
  | writeWait hphase hl => exact hC.update (fun h => nomatch h) fun _ => hC.writes_notMem hphase
  | writeUnlock hphase hi hl hp =>
    cases hl
    exact hC.writeUnlock hi hp
  | @spuriousRead i hphase =>
    exact hC.update (fun _ => hC.notReader i (by rw [hphase]; rfl)) fun h => nomatch h
  | @spuriousWrite i hphase =>
    exact hC.update (fun h => nomatch h) fun _ => hC.notWriter i (by rw [hphase]; rfl)

/-! ## Wake-ups -/

/-- **Nobody sleeps for nothing**: without writers no reader is asleep, and when nobody holds the
lock and a writer is asleep, another was woken and is to test. -/
structure LockState.Awake (s : LockState ι) : Prop where
  readAsleep : s.writers = ∅ → ∀ i, s.phase i ≠ .readAsleep
  writeAsleep : s.writers = ∅ → s.readers = ∅ → ∀ i, s.phase i = .writeAsleep →
    ∃ j, s.phase j = .writeWoken

omit [DecidableEq ι] in
theorem LockState.Awake.init : (LockState.init : LockState ι).Awake :=
  ⟨fun _ _ h => (nomatch h), fun _ _ _ h => (nomatch h)⟩

/-- A thread that does not go to sleep as a reader leaves no reader asleep. -/
theorem update_ne_readAsleep {p : ι → LockPhase} {i : ι} {phase : LockPhase}
    (hphase : phase ≠ .readAsleep) (hp : ∀ j, p j ≠ .readAsleep) (j : ι) :
    Function.update p i phase j ≠ .readAsleep := by
  intro hj
  exact hp j (of_update_eq_asleep hphase hj).2

/-- A thread that goes on and does not go to sleep keeps the others awake, when it was not woken as
a writer. -/
theorem LockState.Awake.update {i : ι} {phase : LockPhase} (hA : s.Awake)
    (hr : phase ≠ .readAsleep) (hw : phase ≠ .writeAsleep) (hwoken : s.phase i ≠ .writeWoken) :
    LockState.Awake { s with phase := Function.update s.phase i phase } := by
  constructor
  · exact fun hwriters => update_ne_readAsleep hr (hA.readAsleep hwriters)
  · intro hwriters hreaders j hj
    obtain ⟨k, hk⟩ := hA.writeAsleep hwriters hreaders j (of_update_eq_asleep hw hj).2
    have hne : k ≠ i := by
      rintro rfl
      exact hwoken hk
    exact ⟨k, (Function.update_of_ne hne ..).trans hk⟩

/-- A signal wakes no reader, and makes none sleep. -/
theorem SignalWriters.readAsleep {signals : Bool} {p p' : ι → LockPhase}
    (h : SignalWriters signals p p') {i : ι} (hi : p' i = .readAsleep) : p i = .readAsleep := by
  rw [SignalWriters] at h
  split_ifs at h
  · rcases h.apply i with hi' | ⟨-, hi'⟩
    · exact hi'.symm.trans hi
    · cases hi'.symm.trans hi
  · exact h ▸ hi

/-- The last reader signals. -/
theorem LockState.Awake.readUnlock (hA : s.Awake) (hC : s.Counts) {i : ι} {p : ι → LockPhase}
    (hi : i ∈ s.readers) (hp : SignalWriters (rwlockReadUnlock s.lock).2 s.phase p) :
    LockState.Awake ⟨(rwlockReadUnlock s.lock).1, p, s.readers.erase i, s.writers⟩ := by
  constructor
  · exact fun hwriters j hj => hA.readAsleep hwriters j (hp.readAsleep hj)
  · intro hwriters hreaders j hj
    have hzero : s.lock.readerCount - 1 = 0 := by
      have hcard := Finset.card_erase_add_one hi
      rw [hC.readerCount, ← hcard, show s.readers.erase i = ∅ from hreaders]
      rfl
    rw [SignalWriters, rwlockReadUnlock, if_pos (decide_eq_true hzero)] at hp
    exact hp.exists_woken hj

/-- The only writer signals, and broadcasts. -/
theorem LockState.Awake.writeUnlock (hC : s.Counts) {i : ι} {p : ι → LockPhase}
    (hi : i ∈ s.writers) (hp : SignalWriters (rwlockWriteUnlock s.lock).2 s.phase p) :
    LockState.Awake ⟨(rwlockWriteUnlock s.lock).1,
      broadcastReaders (rwlockWriteUnlock s.lock).2 p, s.readers, s.writers.erase i⟩ := by
  have hsignals : s.writers.erase i = ∅ → (rwlockWriteUnlock s.lock).2 = true := by
    intro hwriters
    have hcard := Finset.card_erase_add_one hi
    rw [hwriters] at hcard
    rw [rwlockWriteUnlock, hC.writerCount, ← hcard]
    rfl
  constructor
  · intro hwriters j
    dsimp only
    rw [broadcastReaders, if_pos (hsignals hwriters)]
    exact broadcast_ne (by decide) j
  · intro hwriters _ j hj
    dsimp only at hj ⊢
    rw [SignalWriters, if_pos (hsignals hwriters)] at hp
    rw [broadcastReaders, if_pos (hsignals hwriters)] at hj ⊢
    -- the broadcast leaves the writer that the signal woke
    rcases broadcast_apply .readAsleep .readWoken p j with hj' | ⟨-, hj'⟩
    · obtain ⟨k, hk⟩ := hp.exists_woken (hj'.symm.trans hj)
      exact ⟨k, (if_neg (by rw [hk]; decide)).trans hk⟩
    · cases hj'.symm.trans hj

/-- **A step keeps the threads awake**. -/
theorem LockState.Awake.step (hA : s.Awake) (hC : s.Counts) (h : s.Step e s') : s'.Awake := by
  cases h with
  | readCall hphase hi =>
    exact hA.update (by decide) (by decide) (by rw [hphase]; decide)
  | readPass hphase hl =>
    constructor
    · exact fun hwriters => update_ne_readAsleep (by decide) (hA.readAsleep hwriters)
    · exact fun _ hreaders => absurd hreaders (Finset.insert_nonempty ..).ne_empty
  | readWait hphase hl =>
    -- a writer holds the lock
    have hwriters := hC.readLock_eq_none hl
    exact ⟨fun h => absurd h hwriters, fun h => absurd h hwriters⟩
  | readUnlock hphase hi hl hp =>
    cases hl
    exact hA.readUnlock hC hi hp
  | writeCall hphase hi =>
    exact hA.update (by decide) (by decide) (by rw [hphase]; decide)
  | writePass hphase hl =>
    exact ⟨fun h => absurd h (Finset.insert_nonempty ..).ne_empty,
      fun h => absurd h (Finset.insert_nonempty ..).ne_empty⟩
  | writeWait hphase hl =>
    constructor
    · exact fun hwriters => update_ne_readAsleep (by decide) (hA.readAsleep hwriters)
    · intro hwriters hreaders
      -- the test has found a holder
      rcases hC.writeLock_eq_none hl with h | h
      · exact absurd hwriters h
      · exact absurd hreaders h
  | writeUnlock hphase hi hl hp =>
    cases hl
    exact .writeUnlock hC hi hp
  | spuriousRead hphase =>
    exact hA.update (by decide) (by decide) (by rw [hphase]; decide)
  | spuriousWrite hphase =>
    exact hA.update (by decide) (by decide) (by rw [hphase]; decide)

/-- **The lock excludes, and no thread is stuck**: in every state that is reached, the counters are
the numbers of holders, there is at most one writer, and none with a reader; and when nobody holds
the lock, no reader is asleep, and when a writer is asleep, another was woken and is to test. -/
theorem rwlock_exclusion (h : Trace LockState.Step LockState.init es s) :
    s.lock.readerCount = s.readers.card ∧ s.lock.writerCount = s.writers.card ∧
      s.lock.writerCount ≤ 1 ∧ (s.lock.writerCount = 1 → s.lock.readerCount = 0) ∧
        (s.lock.readerCount = 0 → s.lock.writerCount = 0 →
          (∀ i, s.phase i ≠ .readAsleep) ∧
            ∀ i, s.phase i = .writeAsleep → ∃ j, s.phase j = .writeWoken) := by
  obtain ⟨hC, hA⟩ : s.Counts ∧ s.Awake :=
    h.invariant (P := fun s => s.Counts ∧ s.Awake) ⟨.init, .init⟩
      fun ⟨hC, hA⟩ hs => ⟨hC.step hs, hA.step hC hs⟩
  refine ⟨hC.readerCount, hC.writerCount, ?_, fun hone => ?_, fun hreaders hwriters => ?_⟩
  · rw [hC.writerCount]
    exact_mod_cast hC.writers_le
  · have hne : s.writers ≠ ∅ := hC.writing_iff.mp (by rw [hone]; decide)
    rw [hC.readerCount, hC.exclusive hne]
    rfl
  · rw [hC.readerCount, Int.natCast_eq_zero, Finset.card_eq_zero] at hreaders
    rw [hC.writerCount, Int.natCast_eq_zero, Finset.card_eq_zero] at hwriters
    exact ⟨hA.readAsleep hwriters, hA.writeAsleep hwriters hreaders⟩

theorem rwlock_exclusion_sleeping : ∃ es, ∃ s : LockState ℕ,
    Trace LockState.Step LockState.init es s ∧ s.phase 1 = .writeAsleep ∧
      s.lock.readerCount = s.readers.card ∧ s.lock.writerCount = s.writers.card ∧
        s.lock.writerCount ≤ 1 ∧ (s.lock.writerCount = 1 → s.lock.readerCount = 0) ∧
          (s.lock.readerCount = 0 → s.lock.writerCount = 0 →
            (∀ i, s.phase i ≠ .readAsleep) ∧
              ∀ i, s.phase i = .writeAsleep → ∃ j, s.phase j = .writeWoken) := by
  have hcall : Trace LockState.Step (LockState.init : LockState ℕ) [.readCall 0] _ :=
    .single (.readCall rfl (Finset.notMem_empty 0))
  have hread := hcall.step (.readPass (i := 0) (.inl rfl) rfl)
  have hwrite := hread.step (.writeCall (i := 1) rfl (Finset.notMem_empty 1))
  -- the writer sleeps while the reader holds the lock
  have hsleep := hwrite.step (.writeWait (i := 1) (.inl rfl) rfl)
  exact ⟨_, _, hsleep, rfl, rwlock_exclusion hsleep⟩

end Adrift
