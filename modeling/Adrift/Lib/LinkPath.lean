import Mathlib.Logic.Function.Basic
import Mathlib.Data.List.Nodup

/-!
# Paths along a successor function

A linked structure gives every cell at most one successor. A path lists the cells met while
following the successors from a start to an end; it is determined by its ends, visits no cell
twice when it stops, and only depends on the successors of the cells it visits.

## Main definitions

* `LinkPath next p xs q`: following `next` from `p` meets exactly `xs` before `q`

## Main results

* `LinkPath.append_iff`: a path splits at every cell
* `LinkPath.unique`, `LinkPath.nodup`: a path that stops is unique, and visits no cell twice
* `LinkPath.congr`: a path only depends on the successors of its cells
* `LinkPath.update_last`: redirecting the last cell extends the path
* `LinkPath.unlink`: redirecting around a cell removes it from the path
-/

variable {α : Type}

/-- **A path**: following `next` from `p` meets exactly the cells `xs` before `q`. -/
def LinkPath (next : α → Option α) : Option α → List α → Option α → Prop
  | p, [], q => p = q
  | p, x :: xs, q => p = some x ∧ LinkPath next (next x) xs q

namespace LinkPath

variable {next next' : α → Option α} {p q : Option α} {x y : α} {xs ys : List α}

@[simp] theorem nil_iff : LinkPath next p [] q ↔ p = q := Iff.rfl

@[simp] theorem cons_iff :
    LinkPath next p (x :: xs) q ↔ p = some x ∧ LinkPath next (next x) xs q := Iff.rfl

/-- A path splits at every cell. -/
theorem append_iff :
    LinkPath next p (xs ++ ys) q ↔ ∃ r, LinkPath next p xs r ∧ LinkPath next r ys q := by
  induction xs generalizing p with
  | nil => simp
  | cons x xs ih =>
    simp only [List.cons_append, cons_iff, ih]
    exact ⟨fun ⟨hp, r, h₁, h₂⟩ => ⟨r, ⟨hp, h₁⟩, h₂⟩, fun ⟨r, ⟨hp, h₁⟩, h₂⟩ => ⟨hp, r, h₁, h₂⟩⟩

theorem concat_iff : LinkPath next p (xs ++ [x]) q ↔ LinkPath next p xs (some x) ∧ next x = q := by
  simp [append_iff]

/-- A path passing through `x` reaches `x`, and continues from its successor. -/
theorem append_cons_iff :
    LinkPath next p (xs ++ x :: ys) q ↔
      LinkPath next p xs (some x) ∧ LinkPath next (next x) ys q := by
  simp [append_iff]

/-- Two paths from one cell that both stop are equal. -/
theorem unique (h : LinkPath next p xs none) (h' : LinkPath next p ys none) : xs = ys := by
  induction xs generalizing p ys with
  | nil =>
    obtain rfl : p = none := h
    cases ys with
    | nil => rfl
    | cons y ys => simp at h'
  | cons x xs ih =>
    obtain ⟨rfl, h⟩ := h
    cases ys with
    | nil => simp at h'
    | cons y ys =>
      obtain ⟨hxy, h'⟩ := h'
      obtain rfl := Option.some.inj hxy
      rw [ih h h']

/-- **A path that stops visits no cell twice**: a repeated cell would be followed by two paths
of different lengths. -/
theorem nodup (h : LinkPath next p xs none) : xs.Nodup := by
  induction xs generalizing p with
  | nil => exact List.nodup_nil
  | cons x xs ih =>
    obtain ⟨rfl, h⟩ := h
    refine List.nodup_cons.mpr ⟨fun hx => ?_, ih h⟩
    obtain ⟨as, bs, rfl⟩ := List.append_of_mem hx
    have hb := (append_cons_iff.mp h).2
    have := congrArg List.length (h.unique hb)
    simp at this
    omega

/-- A path only depends on the successors of its cells. -/
theorem congr (h : LinkPath next p xs q) (hn : ∀ x ∈ xs, next' x = next x) :
    LinkPath next' p xs q := by
  induction xs generalizing p with
  | nil => exact h
  | cons x xs ih =>
    obtain ⟨rfl, h⟩ := h
    refine ⟨rfl, ?_⟩
    rw [hn x List.mem_cons_self]
    exact ih h fun y hy => hn y (List.mem_cons_of_mem _ hy)

/-- Redirecting the last cell redirects the end of the path. -/
theorem update_last (h : LinkPath next p (xs ++ [x]) q)
    (hn : ∀ y ∈ xs, next' y = next y) : LinkPath next' p (xs ++ [x]) (next' x) := by
  rw [concat_iff] at h ⊢
  exact ⟨h.1.congr hn, rfl⟩

/-- **Redirecting around a cell** removes it from the path, and leaves the others. -/
theorem unlink {z : α} (h : LinkPath next p (xs ++ x :: z :: ys) none) (hx : next' x = next z)
    (hn : ∀ y, y ≠ x → y ≠ z → next' y = next y) : LinkPath next' p (xs ++ x :: ys) none := by
  have hd := h.nodup
  rw [append_cons_iff] at h ⊢
  obtain ⟨h₁, hz, h₂⟩ := h
  simp only [List.nodup_append, List.nodup_cons, List.mem_cons, not_or] at hd
  refine ⟨h₁.congr fun y hy => hn y ?_ ?_, ?_⟩
  · exact hd.2.2 y hy x (Or.inl rfl)
  · exact hd.2.2 y hy z (Or.inr (Or.inl rfl))
  · rw [hx]
    exact h₂.congr fun y hy => hn y (fun e => hd.2.1.1.2 (e ▸ hy)) fun e => hd.2.1.2.1 (e ▸ hy)

/-- What holds at the start and along the successors holds of every cell of a path. -/
theorem forall_mem {P : α → Prop} (h : LinkPath next p xs q) (hp : ∀ x ∈ xs, p = some x → P x)
    (hs : ∀ x ∈ xs, ∀ y ∈ xs, P x → next x = some y → P y) : ∀ x ∈ xs, P x := by
  induction xs generalizing p with
  | nil => simp
  | cons x xs ih =>
    obtain ⟨rfl, h⟩ := h
    have hx := hp x List.mem_cons_self rfl
    refine List.forall_mem_cons.mpr ⟨hx, ih h (fun y hy => ?_) fun y hy z hz => ?_⟩
    · exact hs x List.mem_cons_self y (List.mem_cons_of_mem _ hy) hx
    · exact hs y (List.mem_cons_of_mem _ hy) z (List.mem_cons_of_mem _ hz)

/-- A path that stops starts with its first cell. -/
theorem eq_head? (h : LinkPath next p xs none) : p = xs.head? := by
  cases xs with
  | nil => exact h
  | cons x xs => exact h.1

/-- The end of a path is its start, or the successor of its last cell. -/
theorem append_pred (h : LinkPath next p xs q) : p = q ∨ ∃ w ∈ xs, next w = q := by
  rcases List.eq_nil_or_concat xs with rfl | ⟨ys, w, rfl⟩
  · exact .inl h
  · rw [List.concat_eq_append] at h ⊢
    exact .inr ⟨w, by simp, (concat_iff.mp h).2⟩

/-- A cell of a path is its start, or the successor of another cell. -/
theorem pred_of_mem (h : LinkPath next p xs q) (hx : x ∈ xs) :
    p = some x ∨ ∃ w ∈ xs, next w = some x := by
  obtain ⟨as, bs, rfl⟩ := List.append_of_mem hx
  rcases (append_cons_iff.mp h).1.append_pred with hp | ⟨w, hw, hwx⟩
  · exact .inl hp
  · exact .inr ⟨w, List.mem_append_left _ hw, hwx⟩

/-- A path that stops contains the successors of its cells. -/
theorem mem_of_next (h : LinkPath next p xs none) (hx : x ∈ xs) (hn : next x = some y) :
    y ∈ xs := by
  obtain ⟨as, bs, rfl⟩ := List.append_of_mem hx
  have hrest := (append_cons_iff.mp h).2
  rw [hn] at hrest
  have hy := List.mem_of_mem_head? hrest.eq_head?.symm
  exact List.mem_append_right _ (List.mem_cons_of_mem _ hy)

end LinkPath
