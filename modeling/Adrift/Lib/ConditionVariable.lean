import Mathlib.Logic.Function.Basic

/-!
# Condition variables

Threads that wait on a condition variable are asleep, until they are woken and test their condition
again. A signal wakes one of them, if there is one, and a broadcast all of them.

## Main definitions

* `Signal asleep woken p p'`: a signal takes the threads from the phases `p` to the phases `p'`
* `broadcast asleep woken p`: the phases after a broadcast

## Main results

* `of_update_eq_asleep`: a thread that goes on puts no other one to sleep
* `Signal.exists_other`: a signal wakes one thread at most
* `Signal.exists_woken`: a signal leaves no thread asleep without waking another
* `broadcast_ne`: a broadcast leaves no thread asleep
-/

namespace ConditionVariable

variable {ι P : Type*} {asleep woken : P} {p p' : ι → P}

section Signal

variable [DecidableEq ι]

/-- Who sleeps after another thread went on has slept before. -/
theorem of_update_eq_asleep {i j : ι} {x : P} (hx : x ≠ asleep)
    (h : Function.update p i x j = asleep) : j ≠ i ∧ p j = asleep := by
  by_cases hj : j = i
  · subst hj
    rw [Function.update_self] at h
    exact absurd h hx
  · rw [Function.update_of_ne hj] at h
    exact ⟨hj, h⟩

/-- **A signal** wakes one of the threads that are asleep, if there is one. -/
def Signal (asleep woken : P) (p p' : ι → P) : Prop :=
  (∃ i, p i = asleep ∧ p' = Function.update p i woken) ∨ (∀ i, p i ≠ asleep) ∧ p' = p

theorem exists_signal (asleep woken : P) (p : ι → P) : ∃ p', Signal asleep woken p p' := by
  by_cases h : ∃ i, p i = asleep
  · obtain ⟨i, hi⟩ := h
    exact ⟨_, .inl ⟨i, hi, rfl⟩⟩
  · exact ⟨p, .inr ⟨fun i hi => h ⟨i, hi⟩, rfl⟩⟩

/-- What a signal does to a thread: nothing, or it wakes up. -/
theorem Signal.apply (h : Signal asleep woken p p') (i : ι) :
    p' i = p i ∨ p i = asleep ∧ p' i = woken := by
  rcases h with ⟨j, hj, rfl⟩ | ⟨-, rfl⟩
  · by_cases hi : i = j
    · subst hi
      exact .inr ⟨hj, Function.update_self ..⟩
    · exact .inl (Function.update_of_ne hi ..)
  · exact .inl rfl

/-- A signal leaves a thread that is awake. -/
theorem Signal.eq_of_ne (h : Signal asleep woken p p') {i : ι} (hi : p i ≠ asleep) :
    p' i = p i :=
  (h.apply i).resolve_right fun hasleep => hi hasleep.1

/-- **A signal wakes one thread at most**. -/
theorem Signal.exists_other (h : Signal asleep woken p p') :
    ∃ o : Option ι, ∀ i, p i = asleep → o = some i ∨ p' i = asleep := by
  rcases h with ⟨j, -, rfl⟩ | ⟨-, rfl⟩
  · refine ⟨some j, fun i hi => ?_⟩
    by_cases hij : j = i
    · exact .inl (congrArg some hij)
    · exact .inr ((Function.update_of_ne (Ne.symm hij) ..).trans hi)
  · exact ⟨none, fun i hi => .inr hi⟩

/-- **No signal is lost**: when a thread is still asleep, another was woken. -/
theorem Signal.exists_woken (h : Signal asleep woken p p') {i : ι}
    (hi : p' i = asleep) : ∃ j, p' j = woken := by
  rcases h with ⟨j, -, rfl⟩ | ⟨hnone, rfl⟩
  · exact ⟨j, Function.update_self ..⟩
  · exact absurd hi (hnone i)

end Signal

section Broadcast

variable [DecidableEq P]

/-- **A broadcast** wakes all threads that are asleep. -/
def broadcast (asleep woken : P) (p : ι → P) : ι → P :=
  fun i => if p i = asleep then woken else p i

/-- What a broadcast does to a thread: nothing, or it wakes up. -/
theorem broadcast_apply (asleep woken : P) (p : ι → P) (i : ι) :
    broadcast asleep woken p i = p i ∨ p i = asleep ∧ broadcast asleep woken p i = woken := by
  by_cases h : p i = asleep
  · exact .inr ⟨h, if_pos h⟩
  · exact .inl (if_neg h)

/-- After a broadcast no thread is asleep. -/
theorem broadcast_ne (hne : asleep ≠ woken) (i : ι) : broadcast asleep woken p i ≠ asleep := by
  intro h
  rcases broadcast_apply asleep woken p i with he | ⟨-, he⟩
  · rw [broadcast, if_pos (he.symm.trans h)] at h
    exact hne h.symm
  · exact hne (h.symm.trans he)

end Broadcast

end ConditionVariable
