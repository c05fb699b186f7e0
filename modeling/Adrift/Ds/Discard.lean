import Adrift.Ds.ListTable

/-!
# Discarding lists

The destructors of a trie and of a hash map discard one list after another: the one frees the
nodes of a list with its cell, the other the cell alone. No discard looks at another list, so that
a sequence of them succeeds exactly when no two meet in a cell or in a node.

## Main definitions

* `Discard`: a list to be freed, with its nodes or without
* `Discard.run`: what is done to free it
* `Discard.Finds h d ids`: the list is live, and `ids` are the nodes to be freed

## Main results

* `Discard.run_eq_ok`: what one discard does
* `discards_iff`: a sequence of discards succeeds exactly when no two of them meet
* `discards_list`, `discards_node`: what it leaves
-/

namespace Adrift

open Outcome

/-- A list to be freed: `whole` with its nodes, and its cell alone otherwise. -/
structure Discard where
  cell : ℕ
  whole : Bool

/-- `list_dtor`, or a `free` of the list. -/
def Discard.run (h : Heap) (d : Discard) : Except Fault Heap :=
  if d.whole then listDtor h (some d.cell) else do
    let _ ← h.getList d.cell
    return h.freeList d.cell

/-- **The discard finds its list**, and the nodes `ids` to be freed. -/
structure Discard.Finds (h : Heap) (d : Discard) (ids : List ℕ) : Prop where
  live : (h.list d.cell).isSome
  nodes : if d.whole then h.Chain d.cell ids else ids = []

variable {h h' : Heap} {d d' : Discard} {ds : List Discard} {ids ids' : List ℕ} {l x : ℕ}
  {nodes : Discard → List ℕ}

/-- **The loop of `list_dtor`** frees the nodes it meets, which are live and lead to the end. -/
theorem Heap.freeFrom_path {fuel : ℕ} {o : Option ℕ} (hr : freeFrom fuel h o = .ok h') :
    ∃ ids, LinkPath h.next o ids none ∧ (∀ i ∈ ids, (h.node i).isSome) ∧ h' = h.freeNodes ids := by
  induction fuel generalizing h o with
  | zero =>
    cases o with
    | none => exact ⟨[], rfl, by simp, (Except.ok.inj hr).symm⟩
    | some p => cases hr
  | succ fuel ih =>
    cases o with
    | none => exact ⟨[], rfl, by simp, (Except.ok.inj hr).symm⟩
    | some p =>
      obtain ⟨n, hn, hr⟩ := bind_eq_ok.mp hr
      have hn := Heap.getNode_eq_ok.mp hn
      obtain ⟨ids, hp, hlive, rfl⟩ := ih hr
      -- the nodes behind are live without the first one, and so are not that one
      have hne : ∀ i ∈ ids, i ≠ p := by
        rintro i hi rfl
        have := hlive i hi
        simp [freeNode] at this
      have hnode : ∀ i ∈ ids, (h.freeNode p).node i = h.node i := fun i hi =>
        Function.update_of_ne (hne i hi) ..
      refine ⟨p :: ids, ⟨rfl, ?_⟩, ?_, rfl⟩
      · rw [next_of_node hn]
        exact hp.congr fun i hi => by rw [Heap.next, Heap.next, hnode i hi]
      · refine List.forall_mem_cons.mpr ⟨by rw [hn, Option.isSome_some], fun i hi => ?_⟩
        rw [← hnode i hi]
        exact hlive i hi

theorem Heap.listDtor_eq_ok : listDtor h (some l) = .ok h' ↔
    ∃ ids, h.Chain l ids ∧ h' = h.dtorHeap l ids := by
  constructor
  · intro hr
    obtain ⟨list, hlist, hr⟩ := bind_eq_ok.mp hr
    obtain ⟨h₁, hfree, hr⟩ := bind_eq_ok.mp hr
    obtain ⟨ids, hp, hlive, rfl⟩ := freeFrom_path hfree
    cases hr
    exact ⟨ids, ⟨list, Heap.getList_eq_ok.mp hlist, hp, hlive⟩, rfl⟩
  · rintro ⟨ids, ⟨list, hlist, hp, hlive⟩, rfl⟩
    have hfree := freeFrom_eq_ok hp hlive (length_le_of_live hp.nodup hlive)
    simp only [listDtor, Heap.getList_eq_ok.mpr hlist, ok_bind, hfree]
    rfl

namespace Discard

theorem Finds.unique (hf : d.Finds h ids) (hf' : d.Finds h ids') : ids = ids' := by
  obtain ⟨-, hn⟩ := hf
  obtain ⟨-, hn'⟩ := hf'
  split_ifs at hn hn'
  · exact hn.unique hn'
  · rw [hn, hn']

/-- **What a discard does**: it frees what it finds. -/
theorem run_eq_ok : d.run h = .ok h' ↔ ∃ ids, d.Finds h ids ∧ h' = h.dtorHeap d.cell ids := by
  rw [run]
  split_ifs with hw
  · rw [Heap.listDtor_eq_ok]
    refine exists_congr fun ids => and_congr ⟨fun hc => ⟨?_, by rwa [if_pos hw]⟩,
      fun hf => ?_⟩ Iff.rfl
    · obtain ⟨list, hlist, -⟩ := hc
      rw [hlist, Option.isSome_some]
    · have := hf.nodes
      rwa [if_pos hw] at this
  · rw [bind_eq_ok]
    constructor
    · rintro ⟨list, hlist, hr⟩
      refine ⟨[], ⟨?_, by rw [if_neg hw]⟩, (Except.ok.inj hr).symm⟩
      rw [Heap.getList_eq_ok.mp hlist, Option.isSome_some]
    · rintro ⟨ids, ⟨hlive, hn⟩, rfl⟩
      rw [if_neg hw] at hn
      subst hn
      obtain ⟨list, hlist⟩ := Option.isSome_iff_exists.mp hlive
      exact ⟨list, Heap.getList_eq_ok.mpr hlist, rfl⟩

/-- **What is found after another list was freed** was there before, and does not meet it. -/
theorem finds_dtorHeap_iff : d.Finds (h.dtorHeap l ids') ids ↔
    d.Finds h ids ∧ d.cell ≠ l ∧ ids.Disjoint ids' := by
  have hlist : ∀ {k}, k ≠ l → (h.dtorHeap l ids').list k = h.list k := fun hk => by
    rw [Heap.dtorHeap_list, Function.update_of_ne hk]
  have hnode : ∀ {i}, i ∉ ids' → (h.dtorHeap l ids').node i = h.node i := fun hi => by
    rw [Heap.dtorHeap_node, if_neg hi]
  have hchain : ids.Disjoint ids' → d.cell ≠ l →
      ((h.dtorHeap l ids').Chain d.cell ids ↔ h.Chain d.cell ids) := by
    intro hdisj hk
    have hn : ∀ i ∈ ids, (h.dtorHeap l ids').node i = h.node i := fun i hi => hnode (hdisj hi)
    refine exists_congr fun list => and_congr (by rw [hlist hk]) (and_congr ?_ ?_)
    · exact ⟨fun hp => hp.congr fun i hi => by rw [Heap.next, Heap.next, hn i hi],
        fun hp => hp.congr fun i hi => by rw [Heap.next, Heap.next, hn i hi]⟩
    · exact forall₂_congr fun i hi => by rw [hn i hi]
  constructor
  · rintro ⟨hlive, hn⟩
    have hk : d.cell ≠ l := by
      intro e
      rw [e, Heap.dtorHeap_list, Function.update_self] at hlive
      cases hlive
    have hdisj : ids.Disjoint ids' := by
      intro i hi hi'
      split_ifs at hn
      · obtain ⟨-, -, -, hlive⟩ := hn
        have := hlive i hi
        rw [Heap.dtorHeap_node, if_pos hi'] at this
        cases this
      · rw [hn] at hi
        cases hi
    rw [hchain hdisj hk] at hn
    exact ⟨⟨hlist hk ▸ hlive, hn⟩, hk, hdisj⟩
  · rintro ⟨⟨hlive, hn⟩, hk, hdisj⟩
    exact ⟨by rwa [hlist hk], by rwa [hchain hdisj hk]⟩

end Discard

/-- **Every discard of a sequence finds its list** at the start already. -/
theorem exists_finds (hr : ds.foldlM Discard.run h = .ok h') (hd : d ∈ ds) :
    ∃ ids, d.Finds h ids := by
  induction ds generalizing h with
  | nil => cases hd
  | cons e ds ih =>
    rw [List.foldlM_cons] at hr
    obtain ⟨h₁, h₁r, hr⟩ := bind_eq_ok.mp hr
    obtain ⟨ids, hf, rfl⟩ := Discard.run_eq_ok.mp h₁r
    rcases List.mem_cons.mp hd with rfl | hd
    · exact ⟨ids, hf⟩
    · exact (ih hr hd).imp fun _ hf' => (Discard.finds_dtorHeap_iff.mp hf').1

/-- What a sequence of discards will free, it finds after another list was freed too. -/
theorem finds_of_run (hr : ds.foldlM Discard.run (h.dtorHeap l ids) = .ok h')
    (hf : ∀ d ∈ ds, d.Finds h (nodes d)) : ∀ d ∈ ds, d.Finds (h.dtorHeap l ids) (nodes d) := by
  intro d hd
  obtain ⟨ids', hfi⟩ := exists_finds hr hd
  obtain rfl := (hf d hd).unique (Discard.finds_dtorHeap_iff.mp hfi).1
  exact hfi

/-- **A sequence of discards succeeds** exactly when no two of them meet in a cell or a node. -/
theorem discards_iff (hf : ∀ d ∈ ds, d.Finds h (nodes d)) :
    (∃ h', ds.foldlM Discard.run h = .ok h') ↔
      ds.Pairwise fun d d' => d'.cell ≠ d.cell ∧ (nodes d').Disjoint (nodes d) := by
  induction ds generalizing h with
  | nil => exact iff_of_true ⟨h, rfl⟩ .nil
  | cons d ds ih =>
    have hfd := hf d List.mem_cons_self
    have hf := fun d' hd' => hf d' (List.mem_cons_of_mem d hd')
    rw [List.pairwise_cons, List.foldlM_cons]
    constructor
    · rintro ⟨h', hr⟩
      obtain ⟨h₁, h₁r, hr⟩ := bind_eq_ok.mp hr
      obtain ⟨ids, hfd', rfl⟩ := Discard.run_eq_ok.mp h₁r
      obtain rfl := hfd.unique hfd'
      -- the others are found afterwards, and so do not meet the first one
      have hfind := finds_of_run hr hf
      exact ⟨fun d' hd' => (Discard.finds_dtorHeap_iff.mp (hfind d' hd')).2,
        (ih hfind).mp ⟨h', hr⟩⟩
    · rintro ⟨hsep, hp⟩
      have hfind : ∀ d' ∈ ds, d'.Finds (h.dtorHeap d.cell (nodes d)) (nodes d') := fun d' hd' =>
        Discard.finds_dtorHeap_iff.mpr ⟨hf d' hd', hsep d' hd'⟩
      obtain ⟨h', hr⟩ := (ih hfind).mpr hp
      exact ⟨h', bind_eq_ok.mpr ⟨_, Discard.run_eq_ok.mpr ⟨_, hfd, rfl⟩, hr⟩⟩

/-- **The lists that are left** are those that were not discarded. -/
theorem discards_list (hr : ds.foldlM Discard.run h = .ok h') :
    (h'.list l).isSome ↔ (h.list l).isSome ∧ ∀ d ∈ ds, d.cell ≠ l := by
  induction ds generalizing h with
  | nil =>
    cases hr
    simp
  | cons d ds ih =>
    rw [List.foldlM_cons] at hr
    obtain ⟨h₁, h₁r, hr⟩ := bind_eq_ok.mp hr
    obtain ⟨ids, -, rfl⟩ := Discard.run_eq_ok.mp h₁r
    rw [ih hr, Heap.dtorHeap_list, List.forall_mem_cons]
    by_cases hl : d.cell = l
    · simp [hl]
    · simp [hl, Function.update_of_ne (Ne.symm hl)]

/-- **The nodes that are left** are those of no discarded list. -/
theorem discards_node (hr : ds.foldlM Discard.run h = .ok h')
    (hf : ∀ d ∈ ds, d.Finds h (nodes d)) :
    (h'.node x).isSome ↔ (h.node x).isSome ∧ ∀ d ∈ ds, x ∉ nodes d := by
  induction ds generalizing h with
  | nil =>
    cases hr
    simp
  | cons d ds ih =>
    have hfd := hf d List.mem_cons_self
    rw [List.foldlM_cons] at hr
    obtain ⟨h₁, h₁r, hr⟩ := bind_eq_ok.mp hr
    obtain ⟨ids, hfd', rfl⟩ := Discard.run_eq_ok.mp h₁r
    obtain rfl := hfd.unique hfd'
    have hfind := finds_of_run hr fun d' hd' => hf d' (List.mem_cons_of_mem d hd')
    rw [ih hr hfind, Heap.dtorHeap_node, List.forall_mem_cons]
    by_cases hx : x ∈ nodes d
    · simp [hx]
    · simp [hx]

end Adrift
