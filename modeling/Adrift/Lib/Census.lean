import Mathlib.Algebra.BigOperators.Group.Finset.Piecewise
import Mathlib.Algebra.Order.BigOperators.Group.Finset
import Mathlib.Algebra.Order.Ring.Int
import Mathlib.Algebra.BigOperators.Ring.Finset
import Adrift.Lib.ConditionVariable

/-!
# Threads in a phase

How many of given threads are in a phase of some kind. A step that changes the phase of one thread
changes the number by one at most, so that a counter of the program can be compared with it.

## Main definitions

* `indicator p x`: one if `x` is of the kind `p`, and zero otherwise
* `census s p f`: the number of threads of `s` whose phase is of the kind `p`

## Main results

* `census_update`: what a thread that goes on changes
* `census_insert`: what a new thread adds
* `census_signal`: what a signal changes
-/

namespace ConditionVariable

variable {ι P : Type*} {s s' : Finset ι} {p q : P → Bool} {f f' : ι → P} {i : ι} {x : P}

/-- One if `x` is of the kind `p`. -/
def indicator (p : P → Bool) (x : P) : ℤ := if p x then 1 else 0

theorem indicator_nonneg (p : P → Bool) (x : P) : 0 ≤ indicator p x := by
  rw [indicator]
  split_ifs <;> decide

theorem indicator_mono (hpq : p x = true → q x = true) : indicator p x ≤ indicator q x := by
  rw [indicator]
  split_ifs with hp
  · rw [indicator, if_pos (hpq hp)]
  · exact indicator_nonneg q x

/-- **The number of threads** whose phase is of the kind `p`. -/
def census (s : Finset ι) (p : P → Bool) (f : ι → P) : ℤ := ∑ i ∈ s, indicator p (f i)

theorem census_nonneg (s : Finset ι) (p : P → Bool) (f : ι → P) : 0 ≤ census s p f :=
  Finset.sum_nonneg fun i _ => indicator_nonneg p (f i)

/-- The number is that of the threads of the kind. -/
theorem census_eq_card (s : Finset ι) (p : P → Bool) (f : ι → P) :
    census s p f = (s.filter fun i => p (f i) = true).card := by
  rw [Finset.card_filter, Nat.cast_sum]
  apply Finset.sum_congr rfl
  intro i _
  rw [indicator]
  split_ifs <;> rfl

theorem census_congr (h : ∀ i ∈ s, p (f' i) = p (f i)) : census s p f' = census s p f := by
  apply Finset.sum_congr rfl
  intro i hi
  rw [indicator, indicator, h i hi]

theorem census_mono (h : ∀ i ∈ s, p (f i) = true → q (f i) = true) :
    census s p f ≤ census s q f :=
  Finset.sum_le_sum fun i hi => indicator_mono (h i hi)

/-- Nobody is of the kind. -/
theorem census_eq_zero (h : ∀ i ∈ s, p (f i) = false) : census s p f = 0 := by
  apply Finset.sum_eq_zero
  intro i hi
  rw [indicator, h i hi]
  rfl

/-- Where the number is zero, nobody is of the kind. -/
theorem eq_false_of_census (h : census s p f ≤ 0) (hi : i ∈ s) : p (f i) = false := by
  have hle : indicator p (f i) ≤ census s p f :=
    Finset.single_le_sum (f := fun i => indicator p (f i)) (fun i _ => indicator_nonneg p (f i)) hi
  cases hp : p (f i) with
  | false => rfl
  | true =>
    rw [indicator, if_pos hp] at hle
    omega

variable [DecidableEq ι]

/-- **A thread goes on**. -/
theorem census_update (hi : i ∈ s) (x : P) : census s p (Function.update f i x) =
    census s p f + indicator p x - indicator p (f i) := by
  have hrest : ∑ j ∈ s.erase i, indicator p (Function.update f i x j) =
      ∑ j ∈ s.erase i, indicator p (f j) := by
    apply Finset.sum_congr rfl
    intro j hj
    rw [Function.update_of_ne (Finset.ne_of_mem_erase hj)]
  rw [census, census, ← Finset.add_sum_erase s _ hi, ← Finset.add_sum_erase s _ hi, hrest,
    Function.update_self]
  omega

/-- **A new thread** is counted with its phase. -/
theorem census_insert (hi : i ∉ s) (x : P) :
    census (insert i s) p (Function.update f i x) = census s p f + indicator p x := by
  have hrest : census s p (Function.update f i x) = census s p f := by
    apply census_congr
    intro j hj
    rw [Function.update_of_ne (ne_of_mem_of_not_mem hj hi)]
  rw [← hrest, census, census, Finset.sum_insert hi, Function.update_self]
  omega

/-- **A signal** moves one thread from the one phase to the other, or nobody sleeps. -/
theorem census_signal {asleep woken : P} (h : Signal asleep woken f f')
    (hs : ∀ i, f i = asleep → i ∈ s) :
    census s p f' = census s p f + indicator p woken - indicator p asleep ∨
      (∀ i, f i ≠ asleep) ∧ f' = f := by
  rcases h with ⟨i, hi, rfl⟩ | hnone
  · left
    rw [census_update (hs i hi), hi]
  · exact .inr hnone

/-- A signal does not change a number that counts the two phases alike. -/
theorem census_signal_eq {asleep woken : P} (h : Signal asleep woken f f')
    (hp : p woken = p asleep) : census s p f' = census s p f := by
  apply census_congr
  intro i _
  rcases h.apply i with he | ⟨hi, hw⟩
  · rw [he]
  · rw [hw, hi, hp]

end ConditionVariable
