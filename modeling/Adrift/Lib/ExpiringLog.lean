import Mathlib.Data.List.Basic
import Mathlib.Order.Basic

/-!
# Logs of expiring entries

Entries are appended to a log and die as time goes on. A store that sweeps dead entries away,
whenever it likes, has the same entries alive as the log, as long as time does not run backwards.

## Main definitions

* `Decays dead`: what is dead stays dead
* `alive dead now xs`: the entries that are alive at `now`, in order
* `SweptFrom dead now xs ys`: `ys` is `xs` without some entries that are dead from `now` on

## Main results

* `SweptFrom.append`: the same entries may be appended to both
* `SweptFrom.sweep`: dead entries may be dropped
* `SweptFrom.eq_of_alive`: where nothing is dead, nothing was dropped
-/

namespace ExpiringLog

variable {T α : Type*} [Preorder T] {dead : T → α → Bool} {now now' : T} {xs ys : List α}

/-- **What is dead stays dead**. -/
def Decays (dead : T → α → Bool) : Prop :=
  ∀ ⦃now now'⦄, now ≤ now' → ∀ x, dead now x = true → dead now' x = true

/-- The entries that are alive. -/
def alive (dead : T → α → Bool) (now : T) (xs : List α) : List α := xs.filter (!dead now ·)

/-- **Some dead entries are swept away**: from `now` on the same entries are alive. -/
structure SweptFrom (dead : T → α → Bool) (now : T) (xs ys : List α) : Prop where
  sublist : ys.Sublist xs
  alive_eq : ∀ now', now ≤ now' → alive dead now' xs = alive dead now' ys

omit [Preorder T] in
theorem alive_append (now : T) (xs ys : List α) :
    alive dead now (xs ++ ys) = alive dead now xs ++ alive dead now ys := List.filter_append ..

/-- A sweep drops nothing that is alive later. -/
theorem alive_alive (hd : Decays dead) (h : now ≤ now') (xs : List α) :
    alive dead now' (alive dead now xs) = alive dead now' xs := by
  rw [alive, alive, alive, List.filter_filter]
  apply List.filter_congr
  intro x _
  cases hx : dead now x with
  | false => simp
  | true => simp [hd h x hx]

namespace SweptFrom

theorem refl (now : T) (xs : List α) : SweptFrom dead now xs xs :=
  ⟨List.Sublist.refl xs, fun _ _ => rfl⟩

/-- Where nothing is dead, nothing is swept away. -/
theorem eq_of_alive (h : SweptFrom dead now xs ys) (hx : ∀ x ∈ xs, dead now x = false) :
    ys = xs := by
  have hxs : alive dead now xs = xs := List.filter_eq_self.mpr fun x hx' => by rw [hx x hx']; rfl
  apply h.sublist.eq_of_length_le
  rw [← hxs, h.alive_eq now le_rfl]
  exact (List.filter_sublist).length_le

theorem mono (h : SweptFrom dead now xs ys) (hnow : now ≤ now') : SweptFrom dead now' xs ys :=
  ⟨h.sublist, fun t ht => h.alive_eq t (hnow.trans ht)⟩

/-- **The same entries are appended** to both. -/
theorem append (h : SweptFrom dead now xs ys) (zs : List α) :
    SweptFrom dead now (xs ++ zs) (ys ++ zs) := by
  refine ⟨h.sublist.append (List.Sublist.refl zs), ?_⟩
  intro t ht
  rw [alive_append, alive_append, h.alive_eq t ht]

/-- **Dead entries are dropped**. -/
theorem sweep (h : SweptFrom dead now xs ys) (hd : Decays dead) :
    SweptFrom dead now xs (alive dead now ys) := by
  refine ⟨List.filter_sublist.trans h.sublist, ?_⟩
  intro t ht
  rw [alive_alive hd ht, h.alive_eq t ht]

end SweptFrom

end ExpiringLog
