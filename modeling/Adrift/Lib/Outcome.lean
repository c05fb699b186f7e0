import Mathlib.Data.List.Basic

/-!
# Computations that may fault

A partial step of a program is a function into `Except ε`. The rules of this module take such
a computation apart at its binds, and carry an invariant through a loop over a list.

## Main results

* `bind_eq_ok`: a sequence of two computations succeeds when both do
* `foldlM_invariant`: what every iteration preserves, a loop preserves
* `foldlM_flatMap`: a loop over loops is one loop
* `foldlM_total`: a loop whose iterations succeed under the invariant succeeds
-/

namespace Outcome

variable {ε α β γ : Type}

theorem bind_eq_ok {x : Except ε α} {f : α → Except ε β} {b : β} :
    x >>= f = .ok b ↔ ∃ a, x = .ok a ∧ f a = .ok b := by
  cases x with
  | error e => simp [bind, Except.bind]
  | ok a => simp [bind, Except.bind]

theorem bind_eq_error {x : Except ε α} {f : α → Except ε β} {e : ε} :
    x >>= f = .error e ↔ x = .error e ∨ ∃ a, x = .ok a ∧ f a = .error e := by
  cases x with
  | error e => simp [bind, Except.bind]
  | ok a => simp [bind, Except.bind]

@[simp] theorem ok_bind (a : α) (f : α → Except ε β) : (Except.ok a >>= f) = f a := rfl

@[simp] theorem error_bind (e : ε) (f : α → Except ε β) :
    ((Except.error e : Except ε α) >>= f) = .error e := rfl

@[simp] theorem pure_eq_ok (a : α) : (pure a : Except ε α) = .ok a := rfl

@[simp] theorem throw_eq_error (e : ε) : (throw e : Except ε α) = .error e := rfl

theorem map_eq_ok {x : Except ε α} {f : α → β} {b : β} :
    f <$> x = .ok b ↔ ∃ a, x = .ok a ∧ f a = b := by
  cases x with
  | error e => simp [Functor.map, Except.map]
  | ok a => simp [Functor.map, Except.map]

@[simp] theorem map_ok (f : α → β) (a : α) : f <$> (Except.ok a : Except ε α) = .ok (f a) := rfl

@[simp] theorem map_error (f : α → β) (e : ε) :
    f <$> (Except.error e : Except ε α) = .error e := rfl

/-- **A loop preserves what its iterations preserve**. -/
theorem foldlM_invariant {f : β → α → Except ε β} {P : β → Prop} {xs : List α}
    (step : ∀ b, ∀ a ∈ xs, ∀ b', P b → f b a = .ok b' → P b') {b b' : β} (hb : P b)
    (hr : xs.foldlM f b = .ok b') : P b' := by
  induction xs generalizing b with
  | nil =>
    cases hr
    exact hb
  | cons a xs ih =>
    rw [List.foldlM_cons, bind_eq_ok] at hr
    obtain ⟨c, hc, hr⟩ := hr
    exact ih (fun b a ha => step b a (List.mem_cons_of_mem _ ha))
      (step b a List.mem_cons_self c hb hc) hr

/-- A loop over loops is one loop. -/
theorem foldlM_flatMap (g : γ → List α) (f : β → α → Except ε β) (xs : List γ) (b : β) :
    (xs.flatMap g).foldlM f b = xs.foldlM (fun b x => (g x).foldlM f b) b := by
  induction xs generalizing b with
  | nil => rfl
  | cons x xs ih =>
    rw [List.flatMap_cons, List.foldlM_append, List.foldlM_cons]
    exact bind_congr fun b => ih b

/-- **A loop runs to its end** when every iteration succeeds under the invariant. -/
theorem foldlM_total {f : β → α → Except ε β} {P : β → Prop} {xs : List α}
    (step : ∀ b, ∀ a ∈ xs, P b → ∃ b', f b a = .ok b' ∧ P b') {b : β} (hb : P b) :
    ∃ b', xs.foldlM f b = .ok b' ∧ P b' := by
  induction xs generalizing b with
  | nil => exact ⟨b, rfl, hb⟩
  | cons a xs ih =>
    obtain ⟨c, hc, hP⟩ := step b a List.mem_cons_self hb
    obtain ⟨b', hb', hP'⟩ := ih (fun b a ha => step b a (List.mem_cons_of_mem _ ha)) hP
    exact ⟨b', by rw [List.foldlM_cons, hc, ok_bind, hb'], hP'⟩

end Outcome
