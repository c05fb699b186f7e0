import Adrift.Lib.LinkPath

/-!
# Doubly linked chains

A chain of cells with two successor functions: one leads through the chain from its first cell,
the other one back from its last cell. Cells are put behind the last one, and taken out behind a
cell.

## Main definitions

* `DoublyLinked next prev xs`: the cells `xs` are linked both ways

## Main results

* `DoublyLinked.congr`: a chain only depends on the links of its cells
* `DoublyLinked.push`: a cell linked behind the last one extends the chain
* `DoublyLinked.unlink`, `DoublyLinked.getLast?_unlink`: linking around a cell takes it out of the
  chain
-/

variable {α : Type}

/-- **A doubly linked chain**: `next` leads from the first cell through the others, and `prev` from
the last one back. -/
structure DoublyLinked (next prev : α → Option α) (xs : List α) : Prop where
  forward : LinkPath next xs.head? xs none
  backward : LinkPath prev xs.getLast? xs.reverse none

namespace DoublyLinked

variable {next next' prev prev' : α → Option α} {w x p : α} {xs ys : List α}

theorem singleton (hn : next x = none) (hp : prev x = none) : DoublyLinked next prev [x] where
  forward := ⟨rfl, hn⟩
  backward := ⟨rfl, hp⟩

theorem nodup (h : DoublyLinked next prev xs) : xs.Nodup := h.forward.nodup

/-- A chain only depends on the links of its cells. -/
theorem congr (h : DoublyLinked next prev xs) (hn : ∀ x ∈ xs, next' x = next x)
    (hp : ∀ x ∈ xs, prev' x = prev x) : DoublyLinked next' prev' xs where
  forward := h.forward.congr hn
  backward := h.backward.congr fun x hx => hp x (List.mem_reverse.mp hx)

/-- **A cell linked behind the last one** extends the chain. -/
theorem push (h : DoublyLinked next prev (xs ++ [w])) (hw : next' w = some p) (hp : next' p = none)
    (hn : ∀ x ∈ xs, next' x = next x) (hpw : prev' p = some w)
    (hprev : ∀ x ∈ xs ++ [w], prev' x = prev x) : DoublyLinked next' prev' (xs ++ [w] ++ [p]) where
  forward := by
    have hhead : (xs ++ [w] ++ [p]).head? = (xs ++ [w]).head? := by cases xs <;> rfl
    rw [hhead, LinkPath.concat_iff, ← hw]
    exact ⟨h.forward.update_last hn, hp⟩
  backward := by
    rw [List.getLast?_concat, List.reverse_concat]
    refine ⟨rfl, ?_⟩
    rw [hpw, ← List.getLast?_concat (l := xs) (a := w)]
    exact h.backward.congr fun x hx => hprev x (List.mem_reverse.mp hx)

/-- **Linking around a cell** takes it out of the chain: `next` skips it behind its predecessor,
and `prev` in front of its successor, if there is one. -/
theorem unlink (h : DoublyLinked next prev (xs ++ w :: p :: ys)) (hw : next' w = next p)
    (hn : ∀ y, y ≠ w → y ≠ p → next' y = next y) (hs : ∀ y, next p = some y → prev' y = some w)
    (hprev : ∀ y, y ≠ p → next p ≠ some y → prev' y = prev y) :
    DoublyLinked next' prev' (xs ++ w :: ys) where
  forward := by
    have hhead : (xs ++ w :: ys).head? = (xs ++ w :: p :: ys).head? := by cases xs <;> rfl
    rw [hhead]
    exact h.forward.unlink hw hn
  backward := by
    have hback := h.backward
    have hnext := (LinkPath.append_cons_iff.mp ((List.append_cons xs w (p :: ys)) ▸ h.forward)).2
    cases ys with
    | nil =>
      -- without a successor the predecessor is the new last cell
      have hlast : (xs ++ [w, p]).reverse = p :: (w :: xs.reverse) := by simp
      rw [hlast, LinkPath.cons_iff] at hback
      have hd : (p :: (w :: xs.reverse)).Nodup := hlast ▸ List.nodup_reverse.mpr h.nodup
      have hpath := hback.2
      rw [List.getLast?_concat, List.reverse_concat]
      rw [hpath.eq_head?, List.head?_cons] at hpath
      refine hpath.congr fun y hy => hprev y ?_ ?_
      · exact ne_of_mem_of_not_mem hy (List.nodup_cons.mp hd).1
      · simp [show next p = none from hnext]
    | cons y ys =>
      have hlast : (xs ++ w :: p :: y :: ys).reverse =
          ys.reverse ++ y :: p :: (w :: xs.reverse) := by simp
      have hlast' : (xs ++ w :: y :: ys).reverse = ys.reverse ++ y :: (w :: xs.reverse) := by simp
      have hend : (xs ++ w :: y :: ys).getLast? = (xs ++ w :: p :: y :: ys).getLast? := by simp
      rw [hlast] at hback
      rw [hlast', hend]
      have hy : next p = some y := hnext.1
      have hp : prev p = some w := (LinkPath.append_cons_iff.mp hback).2.2.1
      refine hback.unlink ?_ fun z hz hzp => hprev z hzp ?_
      · rw [hs y hy, hp]
      · rw [hy]
        simpa using hz.symm

/-- The last cell of a chain only changes when it is the one that is taken out. -/
theorem getLast?_unlink [DecidableEq α] (h : DoublyLinked next prev (xs ++ w :: p :: ys)) :
    (xs ++ w :: ys).getLast? =
      if (xs ++ w :: p :: ys).getLast? = some p then some w else (xs ++ w :: p :: ys).getLast? := by
  cases ys with
  | nil => simp
  | cons y ys =>
    have hd : (p :: y :: ys).Nodup :=
      (List.nodup_cons.mp (List.nodup_append.mp h.nodup).2.1).2
    have hlast : (y :: ys).getLast? ≠ some p := fun e =>
      (List.nodup_cons.mp hd).1 (List.mem_of_getLast? e)
    simp [List.getLast?_append, List.getLast?_cons_cons, hlast]

end DoublyLinked
