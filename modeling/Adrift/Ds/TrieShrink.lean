import Adrift.Ds.HashMapShrink
import Adrift.Ds.TrieRun

/-!
# Shrinking the trie

`trie_shrink` updates the list of a node, then visits its children as long as it has counted no
unexpired node, and frees the node when it has counted none at all. A freed child leaves its
pointer behind in its parent, so that the walk is only safe when it meets nothing to free.

## Main definitions

* `TrieCell`: what a child pointer leads to during a shrink
* `trieNodeDtor`, `trieNodeShrink`, `trieShrink`: the operations
* `TrieNode.Counted counts t ls`: a shrink of `t` updates the lists `ls`, and frees nothing
* `TrieShrinksExactly h t now`: a shrink drops the dead nodes and the expired records
* `PrunesNothing h t now`: there is no dead node, and the first branch has all expired records that
  stand in a list with others

## Main results

* `trieNodeShrink_counted`: what a shrink does that frees nothing
* `counted_of_trieNodeShrink`: a shrink that leaves no freed child has freed nothing
* `trieShrinksExactly_iff`: a shrink is exact when it has nothing to prune
-/

namespace Adrift

open Outcome

/-! ## The operations -/

/-- **What a child pointer leads to** during a shrink. -/
inductive TrieCell
  | null
  | freed
  | node (data : Option ℕ) (child : Fin 95 → TrieCell)

mutual

/-- A node before a shrink. -/
def TrieNode.cell : TrieNode → TrieCell
  | .node data child => .node data fun i => childCell (child i)

/-- A child before a shrink. -/
def childCell : Option TrieNode → TrieCell
  | none => .null
  | some t => t.cell

end

def TrieCell.isNull : TrieCell → Bool
  | .null => true
  | _ => false

/-- `trie_node_dtor`. -/
def trieNodeDtor : TrieCell → Heap → Except Fault Heap
  | .null, h => .ok h
  | .freed, _ => .error .useAfterFree
  | .node data child, h => do
    let h ← listDtor h data
    (List.finRange 95).foldlM (fun h i => trieNodeDtor (child i) h) h

/-- The loop of `trie_node_shrink` over the children `is`, with `shrink` for the calls. -/
def shrinkChildren (shrink : Fin 95 → Heap → Except Fault (Heap × UInt64 × TrieCell)) :
    List (Fin 95) → Heap → UInt64 → (Fin 95 → TrieCell) →
      Except Fault (Heap × UInt64 × (Fin 95 → TrieCell))
  | [], h, count, child => .ok (h, count, child)
  | i :: is, h, count, child =>
    if count ≠ 0 then .ok (h, count, child)
    else if (child i).isNull then shrinkChildren shrink is h count child
    else do
      let (h, n, c) ← shrink i h
      shrinkChildren shrink is h (count + n) (Function.update child i c)

/-- `trie_node_shrink`: the heap, the count, and what a pointer to the node leads to. -/
def trieNodeShrink (now : ℤ) : TrieCell → Heap → Except Fault (Heap × UInt64 × TrieCell)
  | .null, _ => .error .nullPointer
  | .freed, _ => .error .useAfterFree
  | .node data child, h => do
    let (h, count) ← data.elim (.ok (h, 0)) fun l => listUpdate h l now
    let (h, count, child) ←
      shrinkChildren (fun i => trieNodeShrink now (child i)) (List.finRange 95) h count child
    if count = 0 then
      -- the destructor clears the parameter only, and not the pointer it was read from
      let h ← trieNodeDtor (.node data child) h
      return (h, count, .freed)
    else return (h, count, .node data child)

/-- `trie_shrink`: the heap, and what the root leads to. -/
def trieShrink (h : Heap) (trie : TrieNode) (now : ℤ) : Except Fault (Heap × TrieCell) := do
  let (h, _, root) ← trieNodeShrink now trie.cell h
  return (h, root)

/-! ## Nodes of a trie -/

variable {h h' h₁ : Heap} {t t' u : TrieNode} {data : Option ℕ} {child : Fin 95 → Option TrieNode}
  {i : Fin 95} {l s : ℕ} {now : ℤ} {members : ℕ → List ℕ} {ls ks : List ℕ}
  {counts counts' : ℕ → Prop}

/-- Induction over the children. -/
theorem TrieNode.childInduction {P : TrieNode → Prop}
    (node : ∀ data child, (∀ i t, child i = some t → P t) → P (.node data child)) (t : TrieNode) :
    P t := by
  -- the other motive is that of the child pointers
  refine @TrieNode.rec P (fun o => ∀ t, o = some t → P t) ?_ ?_ ?_ t
  · exact fun data child ih => node data child ih
  · exact fun _ h => nomatch h
  · exact fun t ht _ h => Option.some.inj h ▸ ht

theorem childCell_isNull (o : Option TrieNode) : (childCell o).isNull = o.isNone := by
  rcases o with _ | ⟨data, child⟩ <;> rfl

theorem childCell_ne_freed (o : Option TrieNode) : childCell o ≠ .freed := by
  rcases o with _ | ⟨data, child⟩ <;> rintro ⟨⟩

theorem TrieNode.cell_injective {t t' : TrieNode} (h : t.cell = t'.cell) : t = t' := by
  induction t using TrieNode.childInduction generalizing t' with
  | node data child ih =>
    obtain ⟨data', child'⟩ := t'
    obtain ⟨rfl, hchild⟩ := TrieCell.node.inj h
    congr
    ext1 i
    have hi : childCell (child i) = childCell (child' i) := congrFun hchild i
    have hnone : (child i).isNone = (child' i).isNone := by
      rw [← childCell_isNull, ← childCell_isNull, hi]
    cases hc : child i with
    | none =>
      rw [hc] at hnone
      exact (Option.isNone_iff_eq_none.mp hnone.symm).symm
    | some t =>
      obtain ⟨t', hc'⟩ : ∃ t', child' i = some t' := by
        rw [hc] at hnone
        exact Option.ne_none_iff_exists'.mp (Option.isNone_eq_false_iff.mp hnone.symm |>
          Option.isSome_iff_ne_none.mp)
      rw [hc, hc'] at hi
      rw [hc', ih i t hc hi]

/-- `l` is the list of the node or of a descendant. -/
def TrieNode.HasList (t : TrieNode) (l : ℕ) : Prop := ∃ path, trieFindFrom path t = .ok (some l)

/-- **Descendants** of a node. -/
inductive TrieNode.Below : TrieNode → TrieNode → Prop
  | child {data : Option ℕ} {child : Fin 95 → Option TrieNode} {i : Fin 95} {t : TrieNode}
      (hi : child i = some t) : Below t (.node data child)
  | deeper {data : Option ℕ} {child : Fin 95 → Option TrieNode} {i : Fin 95} {t u : TrieNode}
      (hi : child i = some t) (h : Below u t) : Below u (.node data child)

/-- The octet of a child. -/
theorem exists_childIndex (i : Fin 95) : ∃ c, childIndex c = .ok i := by
  refine ⟨.ofNat (i + 33), childIndex_eq_ok.mpr ?_⟩
  rw [UInt8.toNat_ofNat']
  omega

theorem TrieNode.HasList.own : (TrieNode.node (some l) child).HasList l := ⟨[], rfl⟩

theorem trieFindFrom_child {c : UInt8} (hc : childIndex c = .ok i) (hi : child i = some t)
    (path : List UInt8) :
    trieFindFrom (c :: path) (.node data child) = .ok (some l) ↔
      trieFindFrom path t = .ok (some l) := by
  rw [trieFindFrom_cons hc, hi, Option.getD_some]

theorem TrieNode.HasList.of_child (hl : t.HasList l) (hi : child i = some t) :
    (TrieNode.node data child).HasList l := by
  obtain ⟨c, hc⟩ := exists_childIndex i
  obtain ⟨path, hpath⟩ := hl
  exact ⟨c :: path, (trieFindFrom_child hc hi path).mpr hpath⟩

/-- The lists of a descendant are lists of the node. -/
theorem TrieNode.Below.hasList (h : u.Below t) (hl : u.HasList l) : t.HasList l := by
  induction h with
  | child hi => exact hl.of_child hi
  | deeper hi _ ih => exact (ih hl).of_child hi

/-! ## The first branch -/

/-- The first child. -/
def firstChild (child : Fin 95 → Option TrieNode) : Option (Fin 95) :=
  (List.finRange 95).find? fun i => (child i).isSome

theorem firstChild_isSome (hi : firstChild child = some i) : ∃ t, child i = some t :=
  Option.isSome_iff_exists.mp (List.find?_some (p := fun i => (child i).isSome) hi)

/-- **The lists that a shrink updates**: those from the node along first children, up to the first
one that counts. -/
inductive TrieNode.Counted (counts : ℕ → Prop) : TrieNode → List ℕ → Prop
  | own {l : ℕ} {child : Fin 95 → Option TrieNode} (hl : counts l) :
      Counted counts (.node (some l) child) [l]
  | child {data : Option ℕ} {child : Fin 95 → Option TrieNode} {i : Fin 95} {t : TrieNode}
      {ls : List ℕ} (hdata : ∀ l ∈ data, ¬ counts l) (hi : firstChild child = some i)
      (ht : child i = some t) (h : Counted counts t ls) :
      Counted counts (.node data child) (data.toList ++ ls)

namespace TrieNode.Counted

theorem hasList (hc : t.Counted counts ls) (hl : l ∈ ls) : t.HasList l := by
  induction hc with
  | own =>
    rw [List.mem_singleton.mp hl]
    exact .own
  | @child data child i t ls _ _ ht _ ih =>
    rcases List.mem_append.mp hl with hl | hl
    · obtain rfl := Option.mem_toList.mp hl
      exact .own
    · exact (ih hl).of_child ht

/-- Only the lists of the trie are asked whether they count. -/
theorem congr (hc : t.Counted counts ls) (hcounts : ∀ l, t.HasList l → (counts l ↔ counts' l)) :
    t.Counted counts' ls := by
  induction hc with
  | own hl => exact .own ((hcounts _ .own).mp hl)
  | child hdata hi ht _ ih =>
    refine .child (fun l hl hl' => ?_) hi ht (ih fun l hl => hcounts l (hl.of_child ht))
    obtain rfl := hl
    exact hdata l rfl ((hcounts l .own).mpr hl')

end TrieNode.Counted

/-! ## Updates -/

/-- The nodes of the lists after updates of the lists `ls`. -/
def Heap.keptAt (h : Heap) (now : ℤ) (members : ℕ → List ℕ) (ls : List ℕ) (l : ℕ) : List ℕ :=
  if l ∈ ls then h.kept now members l else members l

/-- **The lists `ls` have been updated**, and no other. -/
structure Updated (now : ℤ) (members : ℕ → List ℕ) (ls : List ℕ) (h h' : Heap) : Prop where
  lists : h'.Lists (h.keptAt now members ls)
  live : ∀ l, (h'.list l).isSome = (h.list l).isSome
  info : ∀ x, (h'.node x).isSome → h'.info x = h.info x

namespace Updated

theorem nil (hL : h.Lists members) : Updated now members [] h h := by
  refine ⟨?_, fun _ => rfl, fun _ _ => rfl⟩
  have hkept : h.keptAt now members [] = members := by
    ext1 l
    exact if_neg List.not_mem_nil
  rwa [hkept]

/-- **An update** of one list. -/
theorem single (hL : h.Lists members) (hl : (h.list l).isSome) (now : ℤ) : ∃ h',
    listUpdate h l now = .ok (h', .ofNat (h.kept now members l).length) ∧
      Updated now members [l] h h' := by
  obtain ⟨h', hr, hL'⟩ := hL.update hl now
  obtain ⟨s, hrep⟩ := hL.rep hl
  refine ⟨h', hr, ?_, fun k => ?_, fun x hx => listUpdate_info_eq hL.inv hrep.chain hr hx⟩
  · convert hL' using 1
    ext1 k
    by_cases hk : k = l
    · subst hk
      rw [Heap.keptAt, if_pos List.mem_cons_self, Function.update_self, Heap.kept]
    · rw [Heap.keptAt, if_neg (by simpa using hk), Function.update_of_ne hk]
  · rw [listUpdate_isSome hL.inv hrep.chain hr]

/-- A list that is left alone keeps its unexpired nodes. -/
theorem kept_eq (hu : Updated now members ls h h') (hl : (h.list l).isSome) (hls : l ∉ ls) :
    h'.kept now (h.keptAt now members ls) l = h.kept now members l := by
  obtain ⟨s, hrep⟩ := hu.lists.rep ((hu.live l).trans hl)
  have hmem : h.keptAt now members ls l = members l := if_neg hls
  rw [hmem] at hrep
  rw [Heap.kept, Heap.kept, hmem]
  exact hrep.filter_expiredAt hu.info now

/-- **First some lists are updated, and then others**. -/
theorem trans (hu : Updated now members ls h h₁)
    (hu' : Updated now (h.keptAt now members ls) ks h₁ h') (hks : ∀ l ∈ ks, (h.list l).isSome)
    (hdisj : ∀ l ∈ ks, l ∉ ls) : Updated now members (ls ++ ks) h h' where
  lists := by
    have hkept : h₁.keptAt now (h.keptAt now members ls) ks = h.keptAt now members (ls ++ ks) := by
      ext1 l
      by_cases hl : l ∈ ks
      · rw [Heap.keptAt, if_pos hl, hu.kept_eq (hks l hl) (hdisj l hl), Heap.keptAt,
          if_pos (List.mem_append_right _ hl)]
      · rw [Heap.keptAt, if_neg hl, Heap.keptAt, Heap.keptAt]
        simp only [List.mem_append, hl, or_false]
    rw [← hkept]
    exact hu'.lists
  live l := (hu'.live l).trans (hu.live l)
  info := Heap.info_trans hu.info hu'.info

end Updated

/-- **The lists of a trie** are live, and each stands at one path. -/
structure TrieLists (h : Heap) (t : TrieNode) : Prop where
  live : ∀ {l}, t.HasList l → (h.list l).isSome
  distinct : ∀ {path path' l}, trieFindFrom path t = .ok (some l) →
    trieFindFrom path' t = .ok (some l) → path = path'

namespace TrieLists

theorem updated (hT : TrieLists h t) (hu : Updated now members ls h h') : TrieLists h' t where
  live hl := (hu.live _).trans (hT.live hl)
  distinct := hT.distinct

theorem of_child (hT : TrieLists h (.node data child)) (hi : child i = some t) : TrieLists h t where
  live hl := hT.live (hl.of_child hi)
  distinct hl hl' := by
    obtain ⟨c, hc⟩ := exists_childIndex i
    have heq := hT.distinct ((trieFindFrom_child hc hi _).mpr hl)
      ((trieFindFrom_child hc hi _).mpr hl')
    exact (List.cons.inj heq).2

/-- The list of a node is not one of a child. -/
theorem notMem_own (hT : TrieLists h (.node data child)) (hi : child i = some t)
    (hl : t.HasList l) : l ∉ data.toList := by
  intro hmem
  obtain rfl := Option.mem_toList.mp hmem
  obtain ⟨c, hc⟩ := exists_childIndex i
  obtain ⟨path, hpath⟩ := hl
  have hown : trieFindFrom [] (.node (some l) child) = .ok (some l) := rfl
  cases hT.distinct hown ((trieFindFrom_child hc hi path).mpr hpath)

end TrieLists

/-- `list_update` returns a size other than zero for the list `l`. -/
def Heap.countsAt (h : Heap) (now : ℤ) (members : ℕ → List ℕ) (l : ℕ) : Prop :=
  UInt64.ofNat (h.kept now members l).length ≠ 0

/-- **The list of the node itself** is updated first. -/
theorem ownUpdate (hL : h.Lists members) (hT : TrieLists h (.node data child)) (now : ℤ) :
    ∃ h₁ n, data.elim (.ok (h, 0)) (fun l => listUpdate h l now) = .ok (h₁, n) ∧
      Updated now members data.toList h h₁ ∧ (n ≠ 0 ↔ ∃ l ∈ data, h.countsAt now members l) := by
  cases data with
  | none => exact ⟨h, 0, rfl, .nil hL, by simp⟩
  | some l =>
    obtain ⟨h₁, hr, hu⟩ := Updated.single hL (hT.live .own) now
    exact ⟨h₁, _, hr, hu, by simp [Heap.countsAt]⟩

/-- The lists below a child count as before the update of the node itself. -/
theorem countsAt_child (hT : TrieLists h (.node data child)) (hi : child i = some t)
    (hu : Updated now members data.toList h h₁) (hl : t.HasList l) :
    h₁.countsAt now (h.keptAt now members data.toList) l ↔ h.countsAt now members l := by
  rw [Heap.countsAt, Heap.countsAt, hu.kept_eq (hT.live (hl.of_child hi)) (hT.notMem_own hi hl)]

/-! ## The loop over the children -/

section Loop

variable {shrink : Fin 95 → Heap → Except Fault (Heap × UInt64 × TrieCell)} {is : List (Fin 95)}
  {cells cells' : Fin 95 → TrieCell} {n n' : UInt64}

/-- The loop stops when it has counted. -/
theorem shrinkChildren_done (hn : n ≠ 0) :
    shrinkChildren shrink is h n cells = .ok (h, n, cells) := by
  cases is with
  | nil => rfl
  | cons i is => rw [shrinkChildren, if_pos hn]

/-- The loop leaves the other children alone. -/
theorem shrinkChildren_frame (hi : i ∉ is)
    (hr : shrinkChildren shrink is h n cells = .ok (h', n', cells')) : cells' i = cells i := by
  induction is generalizing h n cells with
  | nil =>
    cases hr
    rfl
  | cons j is ih =>
    obtain ⟨hij, hi⟩ := not_or.mp (List.mem_cons.not.mp hi)
    rw [shrinkChildren] at hr
    split_ifs at hr
    · cases hr
      rfl
    · exact ih hi hr
    · obtain ⟨⟨h₁, n₁, c⟩, -, hr⟩ := bind_eq_ok.mp hr
      exact (ih hi hr).trans (Function.update_of_ne hij ..)

theorem shrinkChildren_none (hnone : is.find? (fun i => !(cells i).isNull) = none) :
    shrinkChildren shrink is h 0 cells = .ok (h, 0, cells) := by
  induction is with
  | nil => rfl
  | cons i is ih =>
    rw [List.find?_cons] at hnone
    split at hnone
    · cases hnone
    · rename_i hi
      rw [shrinkChildren, if_neg (by simp), if_pos (by simpa using hi)]
      exact ih hnone

variable (shrink) in
/-- **The first call** of the loop is that for the first child. -/
theorem shrinkChildren_first (hd : is.Nodup)
    (hfirst : is.find? (fun i => !(cells i).isNull) = some i) :
    ∃ rest, i ∉ rest ∧ shrinkChildren shrink is h 0 cells = (shrink i h >>= fun (h, n, c) =>
      shrinkChildren shrink rest h n (Function.update cells i c)) := by
  induction is with
  | nil => cases hfirst
  | cons j is ih =>
    obtain ⟨hj, hd⟩ := List.nodup_cons.mp hd
    rw [List.find?_cons] at hfirst
    split at hfirst
    · rename_i hnull
      cases hfirst
      refine ⟨is, hj, ?_⟩
      rw [shrinkChildren, if_neg (by simp), if_neg (by simpa using hnull)]
      simp only [UInt64.zero_add]
    · rename_i hnull
      rw [shrinkChildren, if_neg (by simp), if_pos (by simpa using hnull)]
      exact ih hd hfirst

theorem firstChild_eq (child : Fin 95 → Option TrieNode) :
    (List.finRange 95).find? (fun i => !(childCell (child i)).isNull) = firstChild child := by
  rw [firstChild]
  congr 1
  ext1 i
  rw [childCell_isNull, Option.not_isNone]

end Loop

/-! ## Shrinking -/

/-- **A shrink that frees nothing** updates the lists along first children, up to the first one that
counts. -/
theorem trieNodeShrink_counted (hL : h.Lists members) (hT : TrieLists h t)
    (hc : t.Counted counts ls)
    (hcounts : ∀ l, t.HasList l → (counts l ↔ h.countsAt now members l)) :
    ∃ h' n, trieNodeShrink now t.cell h = .ok (h', n, t.cell) ∧ n ≠ 0 ∧
      Updated now members ls h h' := by
  induction hc generalizing h members with
  | @own l child hl =>
    obtain ⟨h₁, n, hr, hu, hn⟩ := ownUpdate hL hT now
    have hn0 : n ≠ 0 := hn.mpr ⟨l, rfl, (hcounts l .own).mp hl⟩
    refine ⟨h₁, n, ?_, hn0, hu⟩
    rw [TrieNode.cell, trieNodeShrink, hr, ok_bind]
    simp only [shrinkChildren_done hn0, ok_bind, if_neg hn0]
    rfl
  | @child data child i t ls hdata hi ht hc ih =>
    obtain ⟨h₁, n, hr, hu, hn⟩ := ownUpdate hL hT now
    have hn0 : n = 0 := by
      by_contra hne
      obtain ⟨l, hl, hl'⟩ := hn.mp hne
      obtain rfl := hl
      exact hdata l rfl ((hcounts l .own).mpr hl')
    obtain ⟨h', n', hr', hn', hu'⟩ := ih hu.lists ((hT.of_child ht).updated hu) fun l hl => by
      rw [hcounts l (hl.of_child ht), countsAt_child hT ht hu hl]
    refine ⟨h', n', ?_, hn', hu.trans hu' (fun l hl => ?_) fun l hl => ?_⟩
    · obtain ⟨rest, -, hloop⟩ := shrinkChildren_first (h := h₁)
        (fun i => trieNodeShrink now (childCell (child i))) (List.nodup_finRange 95)
        ((firstChild_eq child).trans hi)
      -- the call leaves the pointer to the child as it was
      have hself : Function.update (fun i => childCell (child i)) i t.cell =
          fun i => childCell (child i) := by
        rw [Function.update_eq_self_iff, ht, childCell]
      have hcall : trieNodeShrink now (childCell (child i)) h₁ = .ok (h', n', t.cell) := by
        rw [ht, childCell, hr']
      rw [TrieNode.cell, trieNodeShrink, hr, ok_bind, hn0]
      simp only [hloop, hcall, ok_bind, shrinkChildren_done hn', hself, if_neg hn']
      rfl
    · exact hT.live ((hc.hasList hl).of_child ht)
    · exact hT.notMem_own ht (hc.hasList hl)

theorem trieNodeShrink_ne_null {c : TrieCell} {n : UInt64} :
    trieNodeShrink now c h ≠ .ok (h', n, .null) := by
  intro hr
  cases c with
  | null => cases hr
  | freed => cases hr
  | node data child =>
    obtain ⟨⟨h₁, n₁⟩, -, hr⟩ := bind_eq_ok.mp hr
    obtain ⟨⟨h₂, n₂, cells⟩, -, hr⟩ := bind_eq_ok.mp hr
    dsimp only at hr
    split_ifs at hr
    · obtain ⟨h₃, -, hr⟩ := bind_eq_ok.mp hr
      cases hr
    · cases hr

/-- **The first call** of a shrink that leaves no freed child: the node itself has not counted, so
that it is not freed only when its first child is not. -/
theorem trieNodeShrink_first {n : UInt64}
    (hown : data.elim (.ok (h, 0)) (fun l => listUpdate h l now) = .ok (h₁, 0))
    (hr : trieNodeShrink now (TrieNode.node data child).cell h = .ok (h', n, t'.cell)) :
    ∃ i t h₂ n₂ u, firstChild child = some i ∧ child i = some t ∧
      trieNodeShrink now t.cell h₁ = .ok (h₂, n₂, TrieNode.cell u) := by
  rw [TrieNode.cell, trieNodeShrink, hown, ok_bind] at hr
  obtain ⟨⟨h₂, n₂, cells⟩, hloop, hr⟩ := bind_eq_ok.mp hr
  obtain ⟨data', child'⟩ := t'
  obtain ⟨hn₂, rfl⟩ : n₂ ≠ 0 ∧ cells = fun i => childCell (child' i) := by
    dsimp only at hr
    split_ifs at hr with hzero
    · obtain ⟨h₃, -, hr⟩ := bind_eq_ok.mp hr
      cases hr
    · cases hr
      exact ⟨hzero, rfl⟩
  cases hi : firstChild child with
  | none =>
    rw [shrinkChildren_none ((firstChild_eq child).trans hi), Except.ok.injEq] at hloop
    exact absurd (congrArg (·.2.1) hloop).symm hn₂
  | some i =>
    obtain ⟨t, ht⟩ := firstChild_isSome hi
    obtain ⟨rest, hrest, hfirst⟩ := shrinkChildren_first (h := h₁)
      (fun i => trieNodeShrink now (childCell (child i))) (List.nodup_finRange 95)
      ((firstChild_eq child).trans hi)
    rw [hfirst] at hloop
    obtain ⟨⟨h₃, n₃, c⟩, hcall, hloop⟩ := bind_eq_ok.mp hloop
    -- the later calls leave the pointer alone
    have hci := shrinkChildren_frame hrest hloop
    rw [Function.update_self] at hci
    rw [ht, childCell, ← hci] at hcall
    cases hi' : child' i with
    | none =>
      rw [hi'] at hcall
      exact absurd hcall trieNodeShrink_ne_null
    | some u =>
      rw [hi'] at hcall
      exact ⟨i, t, h₃, n₃, u, rfl, ht, hcall⟩

/-- **A shrink that leaves no freed child** has met a list that counts, along first children. -/
theorem counted_of_trieNodeShrink {n : UInt64} (hL : h.Lists members) (hT : TrieLists h t)
    (hr : trieNodeShrink now t.cell h = .ok (h', n, t'.cell)) :
    ∃ ls, t.Counted (h.countsAt now members) ls := by
  induction t using TrieNode.childInduction generalizing h h' members n t' with
  | node data child ih =>
    obtain ⟨h₁, n₁, hown, hu, hn₁⟩ := ownUpdate hL hT now
    by_cases hn0 : n₁ = 0
    · have hdata : ∀ l ∈ data, ¬ h.countsAt now members l := fun l hl hl' =>
        hn₁.mpr ⟨l, hl, hl'⟩ hn0
      subst hn0
      obtain ⟨i, t, h₂, n₂, u, hi, ht, hcall⟩ := trieNodeShrink_first hown hr
      obtain ⟨ls, hls⟩ := ih i t ht hu.lists ((hT.of_child ht).updated hu) hcall
      exact ⟨_, .child hdata hi ht (hls.congr fun l hl => countsAt_child hT ht hu hl)⟩
    · obtain ⟨l, hl, hl'⟩ := hn₁.mp hn0
      obtain rfl := hl
      exact ⟨[l], .own hl'⟩

/-! ## Exact shrinks -/

/-- The list `l` has an unexpired node. -/
def Heap.HasUnexpired (h : Heap) (now : ℤ) (l : ℕ) : Prop :=
  ∃ s ids, h.Rep l s ids ∧ ids.filter (!h.expiredAt now ·) ≠ []

/-- The unexpired nodes of the list `l` number other than zero, as a `size_t`. -/
def Heap.Counts (h : Heap) (now : ℤ) (l : ℕ) : Prop :=
  ∃ s ids, h.Rep l s ids ∧ UInt64.ofNat (ids.filter (!h.expiredAt now ·)).length ≠ 0

/-- **A shrink is exact**: it returns, the root is live and leads to no freed node; a key that has
unexpired nodes is found with exactly these; and every other node than the root has an unexpired
node, in its own list or in that of a descendant. -/
def TrieShrinksExactly (h : Heap) (t : TrieNode) (now : ℤ) : Prop :=
  ∃ h' t', trieShrink h t now = .ok (h', t'.cell) ∧
    (∀ k ids, IsTrieKey k → h.Finds (trieFind t k) ids → ids.filter (!h.expiredAt now ·) ≠ [] →
      h'.Finds (trieFind t' k) (ids.filter (!h.expiredAt now ·))) ∧
    ∀ u : TrieNode, u.Below t' → ∃ l, u.HasList l ∧ h'.HasUnexpired now l

/-- **There is nothing to prune**: every other node than the root has an unexpired node, and along
first children there is a list that counts, up to which stand all lists that have both unexpired and
expired nodes. -/
def PrunesNothing (h : Heap) (t : TrieNode) (now : ℤ) : Prop :=
  (∀ u : TrieNode, u.Below t → ∃ l, u.HasList l ∧ h.HasUnexpired now l) ∧
    ∃ ls, t.Counted (h.Counts now) ls ∧ ∀ l s ids, t.HasList l → l ∉ ls → h.Rep l s ids →
      ids.filter (!h.expiredAt now ·) ≠ [] → ids.filter (!h.expiredAt now ·) = ids

section

variable {m : CString → List ℕ} {k : CString} {h₀ : Heap}

/-- A path to a list is a key, from its last octet on. -/
theorem exists_key {path : List UInt8} (hl : trieFindFrom path t = .ok (some l)) :
    ∃ k, t.Has k l ∧ k.octets.reverse = path := by
  have hzero : 0 ∉ path.reverse := by
    intro hmem
    have hoctet := (trieFindFrom_octets hl 0 (List.mem_reverse.mp hmem)).1
    simp at hoctet
  refine ⟨⟨path.reverse, hzero⟩, ?_, List.reverse_reverse path⟩
  rwa [TrieNode.Has, trieFind, List.reverse_reverse]

/-- **The lists of a table** stand at one path each. -/
theorem Table.trieLists (hT : Table t.Has m h) : TrieLists h t where
  live hl := by
    obtain ⟨path, hpath⟩ := hl
    obtain ⟨k, hk, -⟩ := exists_key hpath
    exact hT.live hk
  distinct hl hl' := by
    obtain ⟨k, hk, rfl⟩ := exists_key hl
    obtain ⟨k', hk', rfl⟩ := exists_key hl'
    rw [hT.inj hk hk']

theorem Heap.Lists.counts_iff (hL : h.Lists members) (hl : (h.list l).isSome) :
    h.Counts now l ↔ h.countsAt now members l := by
  obtain ⟨s, hr⟩ := hL.rep hl
  constructor
  · rintro ⟨s', ids, hr', hids⟩
    obtain ⟨-, rfl⟩ := hr.unique hr'
    exact hids
  · exact fun hids => ⟨s, _, hr, hids⟩

theorem Heap.Lists.hasUnexpired_iff (hL : h.Lists members) (hl : (h.list l).isSome) :
    h.HasUnexpired now l ↔ h.kept now members l ≠ [] := by
  obtain ⟨s, hr⟩ := hL.rep hl
  constructor
  · rintro ⟨s', ids, hr', hids⟩
    obtain ⟨-, rfl⟩ := hr.unique hr'
    exact hids
  · exact fun hids => ⟨s, _, hr, hids⟩

/-- A second look at the unexpired nodes finds the same. -/
theorem Updated.kept_self (hu : Updated now members ls h h') (hl : (h.list l).isSome) :
    h'.kept now (h.keptAt now members ls) l = h.kept now members l := by
  by_cases hls : l ∈ ls
  · obtain ⟨s, hrep⟩ := hu.lists.rep ((hu.live l).trans hl)
    have hmem : h.keptAt now members ls l = h.kept now members l := if_pos hls
    rw [hmem] at hrep
    rw [Heap.kept, hmem, hrep.filter_expiredAt hu.info now]
    exact List.filter_eq_self.mpr fun x hx => (List.mem_filter.mp hx).2
  · exact hu.kept_eq hl hls

/-- An update leaves the lists with an unexpired node. -/
theorem Updated.hasUnexpired_iff (hL : h.Lists members) (hu : Updated now members ls h h')
    (hl : (h.list l).isSome) : h'.HasUnexpired now l ↔ h.HasUnexpired now l := by
  rw [hL.hasUnexpired_iff hl, hu.lists.hasUnexpired_iff ((hu.live l).trans hl), hu.kept_self hl]

/-- **A shrink that leaves no freed node** has updated the lists along first children. -/
theorem trieShrink_counted (hL : h.Lists members) (hT : TrieLists h t)
    (hr : trieShrink h t now = .ok (h', t'.cell)) :
    t' = t ∧ ∃ ls, t.Counted (h.Counts now) ls ∧ Updated now members ls h h' := by
  obtain ⟨⟨h₁, n, root⟩, hshrink, hr⟩ := bind_eq_ok.mp hr
  cases hr
  obtain ⟨ls, hc⟩ := counted_of_trieNodeShrink hL hT hshrink
  obtain ⟨h₂, n', hshrink', -, hu⟩ := trieNodeShrink_counted hL hT hc fun l _ =>
    (Iff.rfl : h.countsAt now members l ↔ h.countsAt now members l)
  obtain ⟨rfl, hr⟩ := Prod.mk.inj (Except.ok.inj (hshrink.symm.trans hshrink'))
  exact ⟨TrieNode.cell_injective (Prod.mk.inj hr).2, ls,
    hc.congr fun l hl => (hL.counts_iff (hT.live hl)).symm, hu⟩

theorem trieShrink_of_counted (hL : h.Lists members) (hT : TrieLists h t)
    (hc : t.Counted (h.Counts now) ls) :
    ∃ h', trieShrink h t now = .ok (h', t.cell) ∧ Updated now members ls h h' := by
  obtain ⟨h', n, hr, -, hu⟩ := trieNodeShrink_counted hL hT hc fun l hl =>
    hL.counts_iff (hT.live hl)
  exact ⟨h', by rw [trieShrink, hr, ok_bind]; rfl, hu⟩

/-- A shrink that is exact has met nothing to prune. -/
theorem TrieShrinksExactly.prunesNothing (hs : TrieShrinksExactly h t now)
    (hT : Table t.Has m h) : PrunesNothing h t now := by
  obtain ⟨members, hL, hm⟩ := hT.lists
  have hlists := hT.trieLists
  obtain ⟨h', t', hr, hfinds, hbelow⟩ := hs
  obtain ⟨rfl, ls, hc, hu⟩ := trieShrink_counted hL hlists hr
  refine ⟨fun u hu' => ?_, ls, hc, fun l s ids hl hls hrep hids => ?_⟩
  · obtain ⟨l, hl, hunexp⟩ := hbelow u hu'
    exact ⟨l, hl, (hu.hasUnexpired_iff hL (hlists.live (hu'.hasList hl))).mp hunexp⟩
  · -- a list that is not updated is found with all its nodes
    obtain ⟨path, hpath⟩ := hl
    obtain ⟨k, hk, -⟩ := exists_key hpath
    have hkey : IsTrieKey k := trieFind_octets hk
    obtain ⟨s₁, hrep₁⟩ := hT.rep hk
    obtain ⟨-, rfl⟩ := hrep.unique hrep₁
    obtain ⟨s', hrep'⟩ := hu.lists.rep ((hu.live l).trans (hT.live hk))
    rw [Heap.keptAt, if_neg hls, hm hk] at hrep'
    rcases hfinds k _ hkey (hT.trieFinds hkey) hids with ⟨l', s₂, hl', hrep₂, -⟩ | ⟨-, hnil⟩
    · cases hk.symm.trans hl'
      exact (hrep₂.unique hrep').2
    · exact absurd hnil hids

/-- A shrink that has nothing to prune is exact. -/
theorem PrunesNothing.trieShrinksExactly (hP : PrunesNothing h t now) (hT : Table t.Has m h) :
    TrieShrinksExactly h t now := by
  obtain ⟨members, hL, hm⟩ := hT.lists
  have hlists := hT.trieLists
  obtain ⟨hbelow, ls, hc, hmixed⟩ := hP
  obtain ⟨h', hr, hu⟩ := trieShrink_of_counted hL hlists hc
  refine ⟨h', t, hr, fun k ids hkey hf hids => ?_, fun u hu' => ?_⟩
  · rcases hf with ⟨l, s, hl, hrep, -⟩ | ⟨-, rfl⟩
    · have hmem : members l = ids := by
        obtain ⟨s', hrep'⟩ := hT.rep hl
        rw [hm hl, (hrep.unique hrep').2]
      obtain ⟨s', hrep'⟩ := hu.lists.rep ((hu.live l).trans (hT.live hl))
      refine .inl ⟨l, s', hl, ?_, hids⟩
      -- the list of the key is updated, or has no expired node
      by_cases hls : l ∈ ls
      · rwa [Heap.keptAt, if_pos hls, Heap.kept, hmem] at hrep'
      · rw [Heap.keptAt, if_neg hls, hmem] at hrep'
        rwa [hmixed l s ids ⟨_, hl⟩ hls hrep hids]
    · exact absurd rfl hids
  · obtain ⟨l, hl, hunexp⟩ := hbelow u hu'
    exact ⟨l, hl, (hu.hasUnexpired_iff hL (hlists.live (hu'.hasList hl))).mpr hunexp⟩

/-- **A shrink is exact** exactly when it has nothing to prune: a node without unexpired nodes stays
when it is not visited, and leaves a pointer to freed memory behind when it is; and expired nodes
stay in the lists that are not visited. -/
theorem trieShrinksExactly_iff (hL₀ : h₀.Lists members) (hrun : TrieRun h₀ h t m) (now : ℤ) :
    TrieShrinksExactly h t now ↔ PrunesNothing h t now := by
  have hT := hrun.table hL₀
  constructor
  · intro hs
    exact hs.prunesNothing hT
  · intro hP
    exact hP.trieShrinksExactly hT

end

/-! ## A dead node in front of a live one -/

/-- The pointer to the child leads to a freed node. -/
def TrieCell.freedAt : TrieCell → Fin 95 → Bool
  | .node _ child, i =>
    match child i with
    | .freed => true
    | _ => false
  | _, _ => false

theorem TrieNode.cell_freedAt (t : TrieNode) (i : Fin 95) : t.cell.freedAt i = false := by
  obtain ⟨data, child⟩ := t
  have hne := childCell_ne_freed (child i)
  rw [TrieNode.cell, TrieCell.freedAt]
  split
  · contradiction
  · rfl

/-- The key `1`. -/
def deadKey : CString := ⟨ascii "1", by decide⟩

/-- The key `2`. -/
def liveKey : CString := ⟨ascii "2", by decide⟩

/-- Two inserts. The node of the first key, whose child is visited first, expires first. -/
def coveredInserts : Except Fault (Heap × TrieNode) := do
  let (h, p) := listNodeCtorWithInfo Heap.empty sampleRecord .answer 0 1
  let (h, t) ← trieInsert h trieNodeCtor deadKey p
  let (h, p) := listNodeCtorWithInfo h sampleRecord .answer 0 180
  trieInsert h t liveKey p

theorem coveredInserts_run : ∃ h t m, coveredInserts = .ok (h, t) ∧ TrieRun Heap.empty h t m ∧
    ∃ h' root, trieShrink h t 100 = .ok (h', root) ∧ root.freedAt 16 = true := by
  have hshrink : ((coveredInserts >>= fun r => trieShrink r.1 r.2 100).map fun r =>
    r.2.freedAt 16) = .ok true := rfl
  obtain ⟨⟨h', root⟩, hr, hfreed⟩ := map_eq_ok.mp hshrink
  obtain ⟨⟨h, t⟩, hr, hshrink⟩ := bind_eq_ok.mp hr
  obtain ⟨⟨h₁, t₁⟩, hr₁, hr₂⟩ := bind_eq_ok.mp hr
  -- each of the two nodes is fresh when it is inserted
  have hrun₁ := (TrieRun.start.nodeCtor sampleRecord .answer 0 1).insert (k := deadKey)
    (by unfold IsTrieKey; decide) ((TrieRun.start.table .empty).inNoList_ctor _ _ _ _) hr₁
  have hrun₂ := (hrun₁.nodeCtor sampleRecord .answer 0 180).insert (k := liveKey)
    (by unfold IsTrieKey; decide) ((hrun₁.table .empty).inNoList_ctor _ _ _ _) hr₂
  exact ⟨h, t, _, hr, hrun₂, h', root, hshrink, hfreed⟩

theorem not_prunesNothing_covered :
    ∃ h t, coveredInserts = .ok (h, t) ∧ ¬ PrunesNothing h t 100 := by
  obtain ⟨h, t, m, hr, hrun, h', root, hshrink, hfreed⟩ := coveredInserts_run
  refine ⟨h, t, hr, fun hP => ?_⟩
  obtain ⟨h₁, t', hok, -⟩ := (trieShrinksExactly_iff .empty hrun 100).mpr hP
  cases hshrink.symm.trans hok
  rw [t'.cell_freedAt] at hfreed
  cases hfreed

/-- **A dead node in front of a live one**: the first is freed, and the root still leads to it. -/
theorem not_trieShrinksExactly_covered : ∃ h t m, coveredInserts = .ok (h, t) ∧
    TrieRun Heap.empty h t m ∧ ¬ TrieShrinksExactly h t 100 := by
  obtain ⟨h, t, m, hr, hrun, h', root, hshrink, hfreed⟩ := coveredInserts_run
  refine ⟨h, t, m, hr, hrun, ?_⟩
  rintro ⟨h₁, t', hok, -⟩
  cases hshrink.symm.trans hok
  rw [t'.cell_freedAt] at hfreed
  cases hfreed

end Adrift
