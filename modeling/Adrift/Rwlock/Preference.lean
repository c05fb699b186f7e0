import Adrift.Rwlock.RwLock

/-!
# Overtaken writers

The counters do not record that a writer waits. A reader that calls later is held up by writers that
have acquired the lock, and by no others: it acquires the lock before the writer that waits, when it
tests while readers hold the lock, or after an unlock and before the writer that was woken.

## Main definitions

* `LockState.Observed`: the steps of the threads, with the outcomes of their tests
* `Overtaken os`: a reader that called while a writer waited has acquired the lock before it
* `BehindWriters os`: such readers test only between an acquisition by a writer and its unlock
* `CallsBehindWriters os`, `WritersFirst os`: the readers call only then, and after an unlock a
  writer tests before them

## Main results

* `LockState.exists_observed`: every run of the threads has its outcomes
* `writeHeld_iff`: a writer holds the lock between its acquisition and its unlock
* `behindWriters_of_calls`: late readers test behind writers when they call there
* `writer_preference_iff`: no writer is overtaken exactly when late readers test behind writers
-/

namespace Adrift

open Transition

variable {ι : Type} [DecidableEq ι]

/-! ## What is observed -/

/-- The outcome of a test that leads to the state: whether the thread has acquired the lock. -/
def LockEvent.outcome (s : LockState ι) : LockEvent ι → Bool
  | .readTest i => i ∈ s.readers
  | .writeTest i => i ∈ s.writers
  | _ => true

/-- **The steps of the threads**, with the outcomes of their tests. -/
def LockState.Observed (s : LockState ι) (o : LockEvent ι × Bool) (s' : LockState ι) : Prop :=
  s.Step o.1 s' ∧ o.2 = o.1.outcome s'

/-- The writer has found the lock held, and has not acquired it since. -/
def WaitsToWrite (w : ι) : List (LockEvent ι × Bool) → Prop :=
  Since (fun _ o => o = (.writeTest w, false)) (· ≠ (.writeTest w, true))

/-- The reader called while the writer waited, and neither has acquired the lock since. -/
def LateReader (r w : ι) : List (LockEvent ι × Bool) → Prop :=
  Since (fun os o => o.1 = .readCall r ∧ WaitsToWrite w os)
    fun o => o ≠ (.readTest r, true) ∧ o ≠ (.writeTest w, true)

/-- **A writer was overtaken**: a reader that called while it waited has acquired the lock before
it. -/
def Overtaken (os : List (LockEvent ι × Bool)) : Prop :=
  ∃ as bs r w, os = as ++ (.readTest r, true) :: bs ∧ LateReader r w as

/-- A writer has acquired the lock, and none has unlocked since. -/
def WriteHeld : List (LockEvent ι × Bool) → Prop :=
  Since (fun _ o => ∃ w, o = (.writeTest w, true)) fun o => ∀ w, o.1 ≠ .writeUnlock w

/-- **Late readers test behind writers**: whenever a reader tests that called while a writer waited,
some writer has acquired the lock and has not unlocked since. -/
def BehindWriters (os : List (LockEvent ι × Bool)) : Prop :=
  ∀ as o bs r w, os = as ++ (.readTest r, o) :: bs → LateReader r w as → WriteHeld as

/-- Readers call behind writers: whenever a reader calls while a writer waits, some writer has
acquired the lock and has not unlocked since. -/
def CallsBehindWriters (os : List (LockEvent ι × Bool)) : Prop :=
  ∀ as o bs r w, os = as ++ (.readCall r, o) :: bs → WaitsToWrite w as → WriteHeld as

/-- A writer has unlocked, and none has acquired the lock since. -/
def WriteReleased : List (LockEvent ι × Bool) → Prop :=
  Since (fun _ o => ∃ w, o.1 = .writeUnlock w) fun o => ∀ w, o ≠ (.writeTest w, true)

/-- Writers first: while a writer waits, no reader tests between an unlock by a writer and the next
acquisition by one. -/
def WritersFirst (os : List (LockEvent ι × Bool)) : Prop :=
  ∀ as o bs r w, os = as ++ (.readTest r, o) :: bs → WaitsToWrite w as → ¬ WriteReleased as

variable {s s' : LockState ι} {o : LockEvent ι × Bool} {as bs os : List (LockEvent ι × Bool)}
  {es : List (LockEvent ι)}

/-- Every run of the threads has its outcomes. -/
theorem LockState.exists_observed (h : Trace LockState.Step LockState.init es s) :
    ∃ os, Trace LockState.Observed LockState.init os s ∧ os.map Prod.fst = es := by
  induction h with
  | start => exact ⟨[], .start, rfl⟩
  | @step es s s' e _ hs ih =>
    obtain ⟨os, hos, rfl⟩ := ih
    exact ⟨os ++ [(e, e.outcome s')], hos.step ⟨hs, rfl⟩, List.map_append⟩

theorem LockState.Counts.trace (h : Trace LockState.Observed (.init : LockState ι) os s) :
    s.Counts :=
  h.invariant .init fun hC hs => hC.step hs.1

/-! ## Behind a writer -/

omit [DecidableEq ι] in
theorem writeHeld_concat : WriteHeld (os ++ [o]) ↔
    (∃ w, o = (.writeTest w, true)) ∨ (∀ w, o.1 ≠ .writeUnlock w) ∧ WriteHeld os :=
  since_concat

/-- **A writer holds the lock** between its acquisition and its unlock. -/
theorem writeHeld_iff (h : Trace LockState.Observed (.init : LockState ι) os s) :
    WriteHeld os ↔ s.writers ≠ ∅ := by
  induction h with
  | start => exact iff_of_false not_since_nil fun hne => hne rfl
  | @step os s s' o hrun hs ih =>
    have hC := LockState.Counts.trace hrun
    obtain ⟨e, b⟩ := o
    obtain ⟨hs, hb⟩ := hs
    dsimp only at hs hb
    rw [writeHeld_concat]
    -- the steps of all others leave the writers as they are
    have hother : ∀ {e : LockEvent ι} {b : Bool} {s' : LockState ι}, (∀ w, e ≠ .writeTest w) →
        (∀ w, e ≠ .writeUnlock w) → s'.writers = s.writers →
        ((∃ w, (e, b) = (LockEvent.writeTest w, true)) ∨ (∀ w, e ≠ .writeUnlock w) ∧ WriteHeld os ↔
          s'.writers ≠ ∅) := by
      intro e b s' htest hunlock hwriters
      rw [hwriters, ← ih]
      refine ⟨?_, fun h => .inr ⟨hunlock, h⟩⟩
      rintro (⟨w, he⟩ | h)
      · exact absurd (congrArg Prod.fst he) (htest w)
      · exact h.2
    cases hs with
    | @writePass i l hphase hl =>
      have hmem : i ∈ insert i s.writers := Finset.mem_insert_self ..
      rw [LockEvent.outcome, decide_eq_true hmem] at hb
      exact iff_of_true (.inl ⟨i, by rw [hb]⟩) (Finset.ne_empty_of_mem hmem)
    | @writeWait i hphase hl =>
      have hmem := hC.writes_notMem hphase
      rw [LockEvent.outcome, decide_eq_false hmem] at hb
      rw [← ih]
      refine ⟨?_, fun h => .inr ⟨by rintro w ⟨⟩, h⟩⟩
      rintro (⟨w, he⟩ | h)
      · cases (congrArg Prod.snd he).symm.trans hb
      · exact h.2
    | @writeUnlock i l signals p hphase hi hl hp =>
      -- there is one writer at most
      have hcard := Finset.card_erase_add_one hi
      have hle := hC.writers_le
      have hempty : s.writers.erase i = ∅ := Finset.card_eq_zero.mp (by omega)
      refine iff_of_false ?_ (fun hne => hne hempty)
      rintro (⟨w, he⟩ | ⟨hne, -⟩)
      · cases he
      · exact hne i rfl
    | _ => exact hother (by rintro w ⟨⟩) (by rintro w ⟨⟩) rfl

/-- **The test of a reader** passes unless a writer holds the lock. -/
theorem readTest_outcome {r : ι} {b : Bool}
    (h : Trace LockState.Observed (.init : LockState ι) os s)
    (hs : s.Observed (.readTest r, b) s') : b = true ↔ ¬ WriteHeld os := by
  have hC := LockState.Counts.trace h
  obtain ⟨hs, hb⟩ := hs
  dsimp only at hs hb
  rw [hb, writeHeld_iff h, not_not, LockEvent.outcome, decide_eq_true_iff]
  cases hs with
  | readPass hphase hl => exact iff_of_true (Finset.mem_insert_self ..) (hC.readLock_eq_some hl).1
  | readWait hphase hl => exact iff_of_false (hC.reads_notMem hphase) (hC.readLock_eq_none hl)

omit [DecidableEq ι] in
/-- Once a writer has acquired the lock, some writer holds it, or has released it to nobody. -/
theorem WriteHeld.held_or_released (h : WriteHeld as) (bs : List (LockEvent ι × Bool)) :
    WriteHeld (as ++ bs) ∨ WriteReleased (as ++ bs) := by
  induction bs using List.reverseRecOn with
  | nil => exact .inl ((List.append_nil as).symm ▸ h)
  | append_singleton bs o ih =>
    rw [← List.append_assoc]
    by_cases hunlock : ∃ w, o.1 = .writeUnlock w
    · exact .inr (since_concat.mpr (.inl hunlock))
    by_cases htest : ∃ w, o = (.writeTest w, true)
    · exact .inl (writeHeld_concat.mpr (.inl htest))
    · rcases ih with hheld | hreleased
      · exact .inl (writeHeld_concat.mpr (.inr ⟨not_exists.mp hunlock, hheld⟩))
      · exact .inr (since_concat.mpr (.inr ⟨not_exists.mp htest, hreleased⟩))

omit [DecidableEq ι] in
/-- Late readers test behind writers when they call there, and the writers go first. -/
theorem behindWriters_of_calls (hcalls : CallsBehindWriters os) (hfirst : WritersFirst os) :
    BehindWriters os := by
  rintro as o bs r w rfl ⟨xs, ⟨e, b⟩, ys, rfl, ⟨he, hwaits⟩, hkeep⟩
  dsimp only at he
  subst he
  have hheld : WriteHeld xs :=
    hcalls xs b (ys ++ (.readTest r, o) :: bs) r w (by simp) hwaits
  -- the writer goes on waiting until the reader tests
  have hgoes : WaitsToWrite w (xs ++ (.readCall r, b) :: ys) := by
    refine hwaits.append fun y hy => ?_
    rcases List.mem_cons.mp hy with rfl | hy
    · rintro ⟨⟩
    · exact (hkeep y hy).2
  exact (hheld.held_or_released _).resolve_right (hfirst _ o bs r w rfl hgoes)

/-- **Writers are preferred only to readers behind a writer**: in every run, no reader acquires the
lock before a writer that waited when it called, if and only if these readers test behind writers:
between an acquisition of the lock by a writer and the unlock that follows it. That is so if they
call behind writers, and writers test first after an unlock. -/
theorem writer_preference_iff (h : Trace LockState.Observed (.init : LockState ι) os s) :
    (¬ Overtaken os ↔ BehindWriters os) ∧
      (CallsBehindWriters os → WritersFirst os → ¬ Overtaken os) := by
  have hiff : ¬ Overtaken os ↔ BehindWriters os := by
    constructor
    · rintro hnot as b bs r w rfl hlate
      obtain ⟨s₁, s₂, hrun, hs, -⟩ := h.split
      by_contra hheld
      obtain rfl := (readTest_outcome hrun hs).mpr hheld
      exact hnot ⟨as, bs, r, w, rfl, hlate⟩
    · rintro hbehind ⟨as, bs, r, w, rfl, hlate⟩
      obtain ⟨s₁, s₂, hrun, hs, -⟩ := h.split
      exact (readTest_outcome hrun hs).mp rfl (hbehind as true bs r w rfl hlate)
  exact ⟨hiff, fun hcalls hfirst => hiff.mpr (behindWriters_of_calls hcalls hfirst)⟩

theorem writer_preference_behind : ∃ os, ∃ s : LockState ℕ,
    Trace LockState.Observed .init os s ∧ os.map Prod.fst = [.writeCall 0, .writeTest 0,
        .writeCall 1, .writeTest 1, .readCall 2, .readTest 2, .writeUnlock 0, .writeTest 1] ∧
      s.writers = {1} ∧ LateReader 2 1 (os.take 7) ∧ (¬ Overtaken os ↔ BehindWriters os) ∧
        (CallsBehindWriters os → WritersFirst os → ¬ Overtaken os) := by
  have hcall : Trace LockState.Observed (.init : LockState ℕ) [(.writeCall 0, true)] _ :=
    .single ⟨.writeCall rfl (Finset.notMem_empty 0), rfl⟩
  have hwrite := hcall.step (e := (.writeTest 0, true)) ⟨.writePass (.inl rfl) rfl, rfl⟩
  -- the second writer waits for the first one when the reader calls
  have hcall' := hwrite.step (e := (.writeCall 1, true)) ⟨.writeCall rfl (by decide), rfl⟩
  have hwait := hcall'.step (e := (.writeTest 1, false)) ⟨.writeWait (.inl rfl) rfl, rfl⟩
  have hlate := hwait.step (e := (.readCall 2, true)) ⟨.readCall rfl (by decide), rfl⟩
  -- the reader finds the first writer, and the second writer tests before it after the unlock
  have hsleep := hlate.step (e := (.readTest 2, false)) ⟨.readWait (.inl rfl) rfl, rfl⟩
  obtain ⟨s, h, hphase, hwriters, hlock, hasleep⟩ : ∃ s : LockState ℕ,
      Trace LockState.Observed .init _ s ∧ s.phase 0 = .outside ∧ s.writers = {0} ∧
        s.lock = ⟨0, 1⟩ ∧ s.phase 1 = .writeAsleep :=
    ⟨_, hsleep, rfl, rfl, rfl, rfl⟩
  have hl : rwlockWriteUnlock s.lock = (⟨0, 0⟩, true) := by
    rw [hlock]
    rfl
  have hsignal : SignalWriters true s.phase (Function.update s.phase 1 .writeWoken) :=
    Or.inl ⟨1, hasleep, rfl⟩
  have hunlock := h.step (e := (.writeUnlock 0, true))
    ⟨.writeUnlock hphase (hwriters ▸ Finset.mem_singleton_self 0) hl hsignal, rfl⟩
  have hpass : LockState.Step
      ⟨⟨0, 0⟩, broadcastReaders true (Function.update s.phase 1 .writeWoken), s.readers,
        s.writers.erase 0⟩ (.writeTest 1) _ := .writePass (.inr rfl) rfl
  have hturn := hunlock.step (e := (.writeTest 1, true))
    ⟨hpass, by exact (decide_eq_true (Finset.mem_insert_self 1 _)).symm⟩
  refine ⟨_, _, hturn, rfl, ?_, ?_, writer_preference_iff hturn⟩
  · show insert 1 (s.writers.erase 0) = {1}
    rw [hwriters]
    decide
  · have hwaits : WaitsToWrite (1 : ℕ) [(.writeCall 0, true), (.writeTest 0, true),
        (.writeCall 1, true), (.writeTest 1, false)] :=
      ⟨[(.writeCall 0, true), (.writeTest 0, true), (.writeCall 1, true)], _, [], rfl, rfl,
        fun _ h => nomatch h⟩
    exact ⟨_, (.readCall 2, true), [(.readTest 2, false), (.writeUnlock 0, true)], rfl,
      ⟨rfl, hwaits⟩, by simp⟩

theorem not_writer_preference_reader : ¬ ∀ os (s : LockState ℕ),
    Trace LockState.Observed .init os s → ¬ Overtaken os := by
  intro hall
  have hcall : Trace LockState.Observed (.init : LockState ℕ) [(.readCall 0, true)] _ :=
    .single ⟨.readCall rfl (Finset.notMem_empty 0), rfl⟩
  have hread := hcall.step (e := (.readTest 0, true)) ⟨.readPass (.inl rfl) rfl, rfl⟩
  have hcall' := hread.step (e := (.writeCall 1, true)) ⟨.writeCall rfl (by decide), rfl⟩
  have hwait := hcall'.step (e := (.writeTest 1, false)) ⟨.writeWait (.inl rfl) rfl, rfl⟩
  have hlate := hwait.step (e := (.readCall 2, true)) ⟨.readCall rfl (by decide), rfl⟩
  -- the second reader joins the first one
  have hjoin := hlate.step (e := (.readTest 2, true)) ⟨.readPass (.inl rfl) rfl, rfl⟩
  refine hall _ _ hjoin ⟨_, [], 2, 1, rfl, _, (.readCall 2, true), [], rfl, ⟨rfl, ?_⟩, ?_⟩
  · exact ⟨_, (.writeTest 1, false), [], rfl, rfl, fun _ h => nomatch h⟩
  · exact fun _ h => nomatch h

end Adrift
