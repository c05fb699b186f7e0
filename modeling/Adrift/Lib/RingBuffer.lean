import Mathlib.Data.Int.ModEq
import Mathlib.Data.List.Range
import Mathlib.Logic.Function.Basic

/-!
# Ring buffers

A buffer of the cells `0` to `cap - 1` that is written at the rear and read at the front, around its
end.

## Main definitions

* `IsRing cap front rear size`: the indices of a ring buffer belong together
* `contents q cap front size`: what the cells `q` hold, in order

## Main results

* `IsRing.push`, `IsRing.contents_push`: a write at the rear appends to the contents
* `IsRing.pop`, `IsRing.contents_pop`: a read at the front takes the first of the contents
-/

namespace RingBuffer

variable {τ : Type*} {q : ℤ → τ} {cap front rear size i j : ℤ}

/-- **The indices of a ring buffer**: the `size` cells from the front on end at the rear. -/
structure IsRing (cap front rear size : ℤ) : Prop where
  size_nonneg : 0 ≤ size
  size_le : size ≤ cap
  front_nonneg : 0 ≤ front
  front_lt : front < cap
  rear_eq : rear = (front + size) % cap

/-- **The contents**, from the front on. -/
def contents (q : ℤ → τ) (cap front size : ℤ) : List τ :=
  (List.range size.toNat).map fun j : ℕ => q ((front + j) % cap)

theorem contents_length (hsize : 0 ≤ size) : (contents q cap front size).length = size := by
  rw [contents, List.length_map, List.length_range, Int.toNat_of_nonneg hsize]

/-- Different places in a ring are different cells. -/
theorem add_emod_ne (hij : i < j) (hj : j < i + cap) : (front + i) % cap ≠ (front + j) % cap := by
  intro h
  have hdvd : cap ∣ front + j - (front + i) := Int.ModEq.dvd h
  have hle := Int.le_of_dvd (by omega) hdvd
  omega

namespace IsRing

/-- An empty ring. -/
theorem empty (hcap : 0 < cap) : IsRing cap 0 0 0 where
  size_nonneg := le_rfl
  size_le := hcap.le
  front_nonneg := le_rfl
  front_lt := hcap
  rear_eq := (Int.zero_emod cap).symm

theorem cap_pos (h : IsRing cap front rear size) : 0 < cap := h.front_nonneg.trans_lt h.front_lt

theorem rear_nonneg (h : IsRing cap front rear size) : 0 ≤ rear :=
  h.rear_eq ▸ Int.emod_nonneg _ h.cap_pos.ne'

theorem rear_lt (h : IsRing cap front rear size) : rear < cap :=
  h.rear_eq ▸ Int.emod_lt_of_pos _ h.cap_pos

/-- **A write** moves the rear. -/
theorem push (h : IsRing cap front rear size) (hsize : size < cap) :
    IsRing cap front ((rear + 1) % cap) (size + 1) where
  size_nonneg := by
    have := h.size_nonneg
    omega
  size_le := hsize
  front_nonneg := h.front_nonneg
  front_lt := h.front_lt
  rear_eq := by
    rw [h.rear_eq, Int.emod_add_emod, Int.add_assoc]

/-- **A read** moves the front. -/
theorem pop (h : IsRing cap front rear size) (hsize : 0 < size) :
    IsRing cap ((front + 1) % cap) rear (size - 1) where
  size_nonneg := by omega
  size_le := by
    have := h.size_le
    omega
  front_nonneg := Int.emod_nonneg _ h.cap_pos.ne'
  front_lt := Int.emod_lt_of_pos _ h.cap_pos
  rear_eq := by
    rw [h.rear_eq, Int.emod_add_emod]
    congr 1
    omega

/-- **A write appends** to the contents. -/
theorem contents_push (h : IsRing cap front rear size) (hsize : size < cap) (x : τ) :
    contents (Function.update q rear x) cap front (size + 1) =
      contents q cap front size ++ [x] := by
  have hnonneg := h.size_nonneg
  have hsucc : (size + 1).toNat = size.toNat + 1 := by omega
  rw [contents, hsucc, List.range_succ, List.map_append, List.map_singleton,
    Int.toNat_of_nonneg hnonneg, ← h.rear_eq, Function.update_self]
  congr 1
  apply List.map_congr_left
  intro j hj
  have hj := List.mem_range.mp hj
  rw [h.rear_eq, Function.update_of_ne (add_emod_ne (by omega) (by omega))]

/-- **A read takes the first** of the contents. -/
theorem contents_pop (h : IsRing cap front rear size) (hsize : 0 < size) :
    contents q cap front size =
      q front :: contents q cap ((front + 1) % cap) (size - 1) := by
  have hsucc : size.toNat = (size - 1).toNat + 1 := by omega
  rw [contents, hsucc, List.range_succ_eq_map, List.map_cons, List.map_map]
  congr 1
  · rw [Nat.cast_zero, Int.add_zero, Int.emod_eq_of_lt h.front_nonneg h.front_lt]
  · apply List.map_congr_left
    intro j _
    rw [Function.comp_apply, Int.emod_add_emod]
    congr 2
    omega

end IsRing

end RingBuffer
