import Adrift.Ds.RecordList
import Mathlib.Data.List.Perm.Subperm
import Mathlib.Data.Set.Basic

/-!
# The invariant of the linked lists

What holds of the nodes and lists of a heap whatever was pushed and erased: every list has a head
node of its own, links lead to live records and end, and a node is linked from one place only,
unless it was pushed onto several lists. A heap is seen through three functions: the successor,
the predecessor and the information of a node, that is, the node without its links.

## Main definitions

* `Heap.prev`, `Heap.info`: the predecessor and the information of a live node
* `Heap.Chain h l ids`: the nodes of the list `l` are `ids`
* `Heap.Inv S h`: the invariant, `S` being the nodes pushed onto several lists

## Main results

* `nodesFrom_eq_ok`, `listNodes_eq_ok`: a loop over a list meets its chain
* `Heap.Inv.chain`: every list has a chain
* `Heap.Inv.disjoint`: the chains of two lists meet in a shared node first
* `Heap.Inv.alloc`, `Heap.Inv.ctor`, `Heap.Inv.push`: allocations and pushes keep the invariant
-/

namespace Adrift

open Outcome

/-- A node without its links. -/
def ListNode.unlinked (n : ListNode) : ListNode := { n with prev := none, next := none }

namespace Heap

/-- The predecessor of a live node. -/
def prev (h : Heap) (p : ℕ) : Option ℕ := (h.node p).bind (·.prev)

/-- What a live node holds besides its links. -/
def info (h : Heap) (p : ℕ) : Option ListNode := (h.node p).map (·.unlinked)

variable {h h' : Heap} {p q l t : ℕ} {o : Option ℕ} {n m : ListNode}

theorem info_isSome : (h.info p).isSome = (h.node p).isSome := Option.isSome_map ..

theorem exists_info (hp : (h.node p).isSome) : ∃ m, h.info p = some m :=
  Option.isSome_iff_exists.mp (info_isSome.trans hp)

/-- Nodes that are live in the end keep their records over two changes when they do over each. -/
theorem info_trans {h₁ : Heap} (hinfo : ∀ p, (h₁.node p).isSome → h₁.info p = h.info p)
    (hinfo' : ∀ p, (h'.node p).isSome → h'.info p = h₁.info p) (p : ℕ)
    (hp : (h'.node p).isSome) : h'.info p = h.info p := by
  have hp₁ : (h₁.node p).isSome := by
    rw [← info_isSome, ← hinfo' p hp, info_isSome, hp]
  rw [hinfo' p hp, hinfo p hp₁]

theorem info_of_node (hn : h.node p = some n) : h.info p = some n.unlinked := by
  rw [info, hn, Option.map_some]

theorem next_of_node (hn : h.node p = some n) : h.next p = n.next := by
  rw [next, hn, Option.bind_some]

theorem prev_of_node (hn : h.node p = some n) : h.prev p = n.prev := by
  rw [prev, hn, Option.bind_some]

theorem info_eq_some : h.info p = some m ↔ ∃ n, h.node p = some n ∧ n.unlinked = m :=
  Option.map_eq_some_iff

theorem isSome_of_next (hn : h.next p = some q) : (h.node p).isSome := by
  rw [next] at hn
  cases hp : h.node p with
  | none => simp [hp] at hn
  | some n => rfl

theorem isSome_of_info (hn : h.info p = some n) : (h.node p).isSome := by
  rw [← info_isSome, hn, Option.isSome_some]

theorem lt_of_isSome (hp : (h.node p).isSome) : p < h.nextNode := by
  by_contra hlt
  simp [h.node_fresh p (by omega)] at hp

/-- Two heaps with the same successors, predecessors and information at a cell agree there. -/
theorem node_congr (hi : h'.info p = h.info p) (hn : h'.next p = h.next p)
    (hp : h'.prev p = h.prev p) : h'.node p = h.node p := by
  simp only [info, next, prev] at hi hn hp
  cases h₁ : h'.node p with
  | none => cases h₂ : h.node p <;> simp_all
  | some n =>
    cases h₂ : h.node p with
    | none => simp_all
    | some m =>
      obtain ⟨⟩ := n
      obtain ⟨⟩ := m
      simp_all [ListNode.unlinked]

/-! ## Chains -/

/-- The nodes of the list `l`, from its head on. -/
def Chain (h : Heap) (l : ℕ) (ids : List ℕ) : Prop :=
  ∃ list, h.list l = some list ∧ LinkPath h.next list.head ids none ∧ ∀ i ∈ ids, (h.node i).isSome

/-- The nodes at given pointers. -/
def nodesAt (h : Heap) (ids : List ℕ) : List (ℕ × ListNode) :=
  ids.filterMap fun i => (h.node i).map (i, ·)

theorem nodesAt_fst {ids : List ℕ} (hi : ∀ i ∈ ids, (h.node i).isSome) :
    (h.nodesAt ids).map Prod.fst = ids := by
  induction ids with
  | nil => rfl
  | cons i ids ih =>
    obtain ⟨n, hn⟩ := Option.isSome_iff_exists.mp (hi i List.mem_cons_self)
    have ih := ih fun i hi' => hi i (List.mem_cons_of_mem _ hi')
    simp only [nodesAt] at ih ⊢
    rw [List.filterMap_cons_some (by rw [hn, Option.map_some]), List.map_cons, ih]

theorem mem_nodesAt {ids : List ℕ} : (p, n) ∈ h.nodesAt ids ↔ p ∈ ids ∧ h.node p = some n := by
  simp only [nodesAt, List.mem_filterMap, Option.map_eq_some_iff, Prod.mk.injEq]
  exact ⟨fun ⟨i, hi, m, hm, hip, hmn⟩ => ⟨hip ▸ hi, hip ▸ hmn ▸ hm⟩,
    fun ⟨hp, hn⟩ => ⟨p, hp, n, hn, rfl, rfl⟩⟩

theorem nodesAt_congr {ids : List ℕ} (hn : ∀ i ∈ ids, h'.node i = h.node i) :
    h'.nodesAt ids = h.nodesAt ids :=
  List.filterMap_congr fun i hi => by rw [hn i hi]

/-- **A loop meets the chain from its start**, when the bound on its iterations allows. -/
theorem nodesFrom_eq_ok {fuel : ℕ} {p : Option ℕ} {xs : List (ℕ × ListNode)} :
    nodesFrom h fuel p = .ok xs ↔ LinkPath h.next p (xs.map Prod.fst) none ∧ xs.length ≤ fuel ∧
      ∀ x ∈ xs, h.node x.1 = some x.2 := by
  induction fuel generalizing p xs with
  | zero =>
    cases p with
    | none => cases xs <;> simp [nodesFrom]
    | some p => cases xs <;> simp [nodesFrom]
  | succ fuel ih =>
    rcases p with _ | p
    · cases xs <;> simp [nodesFrom]
    · simp only [nodesFrom, bind_eq_ok, getNode_eq_ok, ih, pure_eq_ok, Except.ok.injEq]
      constructor
      · rintro ⟨n, hn, xs, ⟨hp, hf, hx⟩, rfl⟩
        exact ⟨⟨rfl, next_of_node hn ▸ hp⟩, by simpa using hf, List.forall_mem_cons.mpr ⟨hn, hx⟩⟩
      · rintro ⟨hp, hf, hx⟩
        rcases xs with _ | ⟨⟨p', n⟩, xs⟩
        · cases hp
        · obtain ⟨hpp, hp⟩ := hp
          obtain rfl : p = p' := Option.some.inj hpp
          obtain ⟨hn, hx⟩ := List.forall_mem_cons.mp hx
          exact ⟨n, hn, xs, ⟨next_of_node hn ▸ hp, by simpa using hf, hx⟩, rfl⟩

theorem length_le_of_live {ids : List ℕ} (hd : ids.Nodup) (hi : ∀ i ∈ ids, (h.node i).isSome) :
    ids.length ≤ h.nextNode := by
  have hs : ids ⊆ List.range h.nextNode :=
    fun i hi' => List.mem_range.mpr (lt_of_isSome (hi i hi'))
  simpa using (List.subperm_of_subset hd hs).length_le

/-- **The loop over a list meets its chain**. -/
theorem listNodes_eq_ok {xs : List (ℕ × ListNode)} :
    listNodes h l = .ok xs ↔ ∃ ids, h.Chain l ids ∧ xs = h.nodesAt ids := by
  simp only [listNodes, bind_eq_ok, getList_eq_ok, nodesFrom_eq_ok]
  constructor
  · rintro ⟨list, hl, hp, -, hx⟩
    refine ⟨xs.map Prod.fst, ⟨list, hl, hp, fun i hi => ?_⟩, ?_⟩
    · obtain ⟨x, hx', rfl⟩ := List.mem_map.mp hi
      rw [hx x hx', Option.isSome_some]
    · clear hp
      induction xs with
      | nil => rfl
      | cons x xs ih =>
        have ih := ih fun y hy => hx y (List.mem_cons_of_mem _ hy)
        simp only [nodesAt] at ih ⊢
        rw [List.map_cons, List.filterMap_cons_some (by rw [hx x List.mem_cons_self]; rfl), ← ih]
  · rintro ⟨ids, ⟨list, hl, hp, hi⟩, rfl⟩
    refine ⟨list, hl, (nodesAt_fst hi).symm ▸ hp, ?_, fun x hx => (mem_nodesAt.mp hx).2⟩
    rw [← List.length_map Prod.fst, nodesAt_fst hi]
    exact length_le_of_live hp.nodup hi

theorem Chain.unique {ids ids' : List ℕ} (hc : h.Chain l ids) (hc' : h.Chain l ids') :
    ids = ids' := by
  obtain ⟨list, hl, hp, -⟩ := hc
  obtain ⟨list', hl', hp', -⟩ := hc'
  obtain rfl := Option.some.inj (hl.symm.trans hl')
  exact hp.unique hp'

/-! ## The invariant -/

/-- **The invariant of the lists**. The nodes of `S` may be linked from several places. -/
structure Inv (S : Set ℕ) (h : Heap) : Prop where
  /-- A list starts with a node without a record. -/
  head : ∀ {l list}, h.list l = some list →
    ∃ s n, list.head = some s ∧ h.info s = some n ∧ n.data = none
  /-- Lists have different head nodes. -/
  head_inj : ∀ {l l' list list'}, h.list l = some list → h.list l' = some list' →
    list.head = list'.head → l = l'
  /-- Head nodes never expire. -/
  ttl : ∀ {p n}, h.info p = some n → n.data = none → n.ttl = 0
  /-- Links lead to live nodes with a record. -/
  next : ∀ {p q}, h.next p = some q → ∃ n, h.info q = some n ∧ n.data.isSome
  /-- Links end. -/
  ends : ∀ {p}, (h.node p).isSome → ∃ ids, LinkPath h.next (some p) ids none
  /-- A node that is not shared is linked from its predecessor only. -/
  pred : ∀ {p q}, h.next p = some q → q ∉ S → h.prev q = some p
  /-- Shared nodes never expire. -/
  shared : ∀ {p n}, p ∈ S → h.info p = some n → n.ttl = 0
  shared_lt : ∀ {p}, p ∈ S → p < h.nextNode
  tail_lt : ∀ {l list t}, h.list l = some list → list.tail = some t → t < h.nextNode

namespace Inv

variable {S : Set ℕ}

theorem empty : Inv ∅ Heap.empty where
  head hl := by cases hl
  head_inj hl := by cases hl
  ttl hp := by cases hp
  next hp := by cases hp
  ends hp := by cases hp
  pred hp := by cases hp
  shared hp := hp.elim
  shared_lt hp := hp.elim
  tail_lt hl := by cases hl

theorem isSome_of_next (hI : Inv S h) (hn : h.next p = some q) : (h.node q).isSome := by
  obtain ⟨m, hm, -⟩ := hI.next hn
  exact isSome_of_info hm

theorem live_of_path (hI : Inv S h) {p : Option ℕ} {ids : List ℕ} {q : Option ℕ}
    (hp : LinkPath h.next p ids q) (hl : ∀ i, p = some i → (h.node i).isSome) :
    ∀ i ∈ ids, (h.node i).isSome :=
  hp.forall_mem (fun i _ => hl i) fun _ _ _ _ _ => hI.isSome_of_next

/-- **Every list has a chain**, which starts with its head node. -/
theorem chain (hI : Inv S h) {list : RecordList} (hl : h.list l = some list) :
    ∃ s ids, list.head = some s ∧ h.Chain l (s :: ids) := by
  obtain ⟨s, n, hs, hn, -⟩ := hI.head hl
  have hlive : (h.node s).isSome := isSome_of_info hn
  obtain ⟨ids, hp⟩ := hI.ends hlive
  rcases ids with _ | ⟨i, ids⟩
  · cases hp
  obtain rfl : s = i := Option.some.inj hp.1
  refine ⟨s, ids, hs, list, hl, hs ▸ hp, hI.live_of_path hp fun i hi => ?_⟩
  rw [← Option.some.inj hi]
  exact hlive

/-- The nodes of a chain behind its head node have a record. -/
theorem data_of_mem (hI : Inv S h) {s i : ℕ} {ids : List ℕ} (hc : h.Chain l (s :: ids))
    (hi : i ∈ ids) (hn : h.node i = some n) : n.data.isSome := by
  obtain ⟨list, hl, ⟨-, hp⟩, -⟩ := hc
  have := hp.forall_mem (P := fun i => ∃ m, h.info i = some m ∧ m.data.isSome)
    (fun _ _ hx => hI.next hx) (fun _ _ _ _ _ hy => hI.next hy) i hi
  obtain ⟨m, hm, hd⟩ := this
  rw [info_of_node hn] at hm
  rwa [← Option.some.inj hm] at hd

/-- **The chains of two lists meet in a shared node first**: without shared nodes in one of
them, they are disjoint. -/
theorem disjoint (hI : Inv S h) {l l' : ℕ} {ids ids' : List ℕ} (hc : h.Chain l ids)
    (hc' : h.Chain l' ids') (hS : ∀ i ∈ ids, i ∉ S) (hne : l ≠ l') : ids.Disjoint ids' := by
  obtain ⟨list, hl, hp, -⟩ := hc
  obtain ⟨list', hl', hp', -⟩ := hc'
  have hhead : ∀ {l list w x}, h.list l = some list → h.next w = some x → list.head ≠ some x := by
    intro l list w x hl hwx hx
    obtain ⟨s, n, hs, hn, hd⟩ := hI.head hl
    obtain ⟨m, hm, hmd⟩ := hI.next hwx
    obtain rfl : s = x := Option.some.inj (hs.symm.trans hx)
    rw [← Option.some.inj (hn.symm.trans hm), hd] at hmd
    cases hmd
  -- a common node has a common predecessor, back to a common head node
  refine hp.forall_mem (P := (· ∉ ids')) (fun x _ hx hx' => ?_) fun w _ x hxS hw hwx hx' => ?_
  · rcases hp'.pred_of_mem hx' with he | ⟨w', -, hw'⟩
    · exact hne (hI.head_inj hl hl' (hx.trans he.symm))
    · exact hhead hl hw' hx
  · rcases hp'.pred_of_mem hx' with he | ⟨w', hw'mem, hw'⟩
    · exact hhead hl' hwx he
    · have := (hI.pred hwx (hS x hxS)).symm.trans (hI.pred hw' (hS x hxS))
      exact hw (Option.some.inj this ▸ hw'mem)

end Inv

/-! ## Allocations -/

theorem node_nextNode : h.node h.nextNode = none := h.node_fresh _ le_rfl

theorem allocNode_node : (h.allocNode n).node = Function.update h.node h.nextNode (some n) := rfl

theorem next_nextNode : h.next h.nextNode = none := by rw [next, node_nextNode, Option.bind_none]

theorem allocNode_next (hn : n.next = none) : (h.allocNode n).next = h.next := by
  funext p
  by_cases hp : p = h.nextNode
  · rw [hp, next, allocNode_node, Function.update_self, Option.bind_some, hn, next_nextNode]
  · rw [next, allocNode_node, Function.update_of_ne hp, next]

theorem allocNode_prev (hp : p ≠ h.nextNode) : (h.allocNode n).prev p = h.prev p := by
  rw [prev, allocNode_node, Function.update_of_ne hp, prev]

theorem allocNode_info :
    (h.allocNode n).info = Function.update h.info h.nextNode (some n.unlinked) := by
  funext p
  by_cases hp : p = h.nextNode
  · rw [hp, info, allocNode_node, Function.update_self, Function.update_self, Option.map_some]
  · rw [info, allocNode_node, Function.update_of_ne hp, Function.update_of_ne hp, info]

theorem ne_nextNode_of_info (hn : h.info p = some n) : p ≠ h.nextNode := by
  rintro rfl
  rw [info, node_nextNode] at hn
  cases hn

/-- A fresh list without nodes. -/
def ctorHeap (h : Heap) : Heap := (listCtor h).1

@[simp] theorem ctorHeap_next : h.ctorHeap.next = h.next := allocNode_next rfl

@[simp] theorem ctorHeap_list : h.ctorHeap.list =
    Function.update h.list h.nextList (some ⟨some h.nextNode, some h.nextNode, 0⟩) := rfl

/-- A list afterwards is the fresh one, or was there before. -/
theorem ctorHeap_list_eq_some {list : RecordList} (hl : h.ctorHeap.list l = some list) :
    l = h.nextList ∧ list = ⟨some h.nextNode, some h.nextNode, 0⟩ ∨ h.list l = some list := by
  rw [ctorHeap_list] at hl
  by_cases he : l = h.nextList
  · rw [he, Function.update_self] at hl
    exact .inl ⟨he, (Option.some.inj hl).symm⟩
  · rw [Function.update_of_ne he] at hl
    exact .inr hl

theorem ctorHeap_info : h.ctorHeap.info =
    Function.update h.info h.nextNode (some listNodeCtor.unlinked) := allocNode_info

@[simp] theorem ctorHeap_prev : h.ctorHeap.prev = h.prev := by
  funext x
  by_cases hx : x = h.nextNode
  · have hn : h.ctorHeap.node h.nextNode = some listNodeCtor := Function.update_self ..
    rw [hx, prev, prev, node_nextNode, hn]
    rfl
  · exact allocNode_prev hx

theorem ctorHeap_isSome (hp : (h.node p).isSome) : (h.ctorHeap.node p).isSome := by
  rw [← info_isSome, ctorHeap_info, Function.update_of_ne (lt_of_isSome hp).ne, info_isSome, hp]

namespace Inv

variable {S : Set ℕ}

/-- Allocating a record keeps the invariant. -/
theorem alloc (hI : Inv S h) (hn : n.next = none) (hd : n.data.isSome) :
    Inv S (h.allocNode n) where
  head hl := by
    obtain ⟨s, m, hs, hm, hmd⟩ := hI.head hl
    refine ⟨s, m, hs, ?_, hmd⟩
    rw [allocNode_info, Function.update_of_ne (ne_nextNode_of_info hm), hm]
  head_inj := hI.head_inj
  ttl {p m} hp hmd := by
    by_cases he : p = h.nextNode
    · rw [allocNode_info, he, Function.update_self] at hp
      rw [← Option.some.inj hp] at hmd
      rw [show n.unlinked.data = n.data from rfl] at hmd
      simp [hmd] at hd
    · rw [allocNode_info, Function.update_of_ne he] at hp
      exact hI.ttl hp hmd
  next hpq := by
    rw [allocNode_next hn] at hpq
    obtain ⟨m, hm, hmd⟩ := hI.next hpq
    exact ⟨m, by rw [allocNode_info, Function.update_of_ne (ne_nextNode_of_info hm), hm], hmd⟩
  ends {p} hp := by
    rw [allocNode_next hn]
    by_cases he : p = h.nextNode
    · exact ⟨[p], rfl, he ▸ next_nextNode⟩
    · rw [allocNode_node, Function.update_of_ne he] at hp
      exact hI.ends hp
  pred {p q} hpq hq := by
    rw [allocNode_next hn] at hpq
    obtain ⟨m, hm, -⟩ := hI.next hpq
    rw [allocNode_prev (ne_nextNode_of_info hm)]
    exact hI.pred hpq hq
  shared {p m} hp hm := by
    rw [allocNode_info, Function.update_of_ne (hI.shared_lt hp).ne] at hm
    exact hI.shared hp hm
  shared_lt hp := Nat.lt_succ_of_lt (hI.shared_lt hp)
  tail_lt hl ht := Nat.lt_succ_of_lt (hI.tail_lt hl ht)

/-- A fresh list keeps the invariant. -/
theorem ctor (hI : Inv S h) : Inv S h.ctorHeap where
  head hl := by
    rw [ctorHeap_info]
    obtain ⟨-, rfl⟩ | hl := ctorHeap_list_eq_some hl
    · exact ⟨h.nextNode, _, rfl, Function.update_self .., rfl⟩
    · obtain ⟨s, m, hs, hm, hmd⟩ := hI.head hl
      exact ⟨s, m, hs, by rw [Function.update_of_ne (ne_nextNode_of_info hm), hm], hmd⟩
  head_inj {l l' list list'} hl hl' heq := by
    -- the head node of the fresh list is fresh
    have old : ∀ {l list}, h.list l = some list → list.head ≠ some h.nextNode := by
      intro l list hl hh
      obtain ⟨s, m, hs, hm, -⟩ := hI.head hl
      exact ne_nextNode_of_info hm (Option.some.inj (hs.symm.trans hh))
    obtain ⟨rfl, rfl⟩ | hl := ctorHeap_list_eq_some hl <;>
      obtain ⟨rfl, rfl⟩ | hl' := ctorHeap_list_eq_some hl'
    · rfl
    · exact absurd heq.symm (old hl')
    · exact absurd heq (old hl)
    · exact hI.head_inj hl hl' heq
  ttl {p m} hp hmd := by
    rw [ctorHeap_info] at hp
    by_cases he : p = h.nextNode
    · rw [he, Function.update_self] at hp
      rw [← Option.some.inj hp]
      rfl
    · rw [Function.update_of_ne he] at hp
      exact hI.ttl hp hmd
  next hpq := by
    rw [ctorHeap_next] at hpq
    obtain ⟨m, hm, hmd⟩ := hI.next hpq
    exact ⟨m, by rw [ctorHeap_info, Function.update_of_ne (ne_nextNode_of_info hm), hm], hmd⟩
  ends {p} hp := by
    rw [ctorHeap_next]
    by_cases he : p = h.nextNode
    · exact ⟨[p], rfl, he ▸ next_nextNode⟩
    · rw [← info_isSome, ctorHeap_info, Function.update_of_ne he, info_isSome] at hp
      exact hI.ends hp
  pred {p q} hpq hq := by
    rw [ctorHeap_next] at hpq
    obtain ⟨m, hm, -⟩ := hI.next hpq
    exact (allocNode_prev (ne_nextNode_of_info hm)).trans (hI.pred hpq hq)
  shared {p m} hp hm := by
    rw [ctorHeap_info, Function.update_of_ne (hI.shared_lt hp).ne] at hm
    exact hI.shared hp hm
  shared_lt hp := Nat.lt_succ_of_lt (hI.shared_lt hp)
  tail_lt hl ht := by
    obtain ⟨-, rfl⟩ | hl := ctorHeap_list_eq_some hl
    · rw [← Option.some.inj ht]
      exact Nat.lt_succ_self _
    · exact Nat.lt_succ_of_lt (hI.tail_lt hl ht)

end Inv

/-! ## Pushes -/

theorem modifyNode_node {f : ListNode → ListNode} :
    (h.modifyNode p f).node = Function.update h.node p ((h.node p).map f) := rfl

/-- A field that a change keeps is as it was, everywhere. -/
theorem modifyNode_bind {α : Type} {f : ListNode → ListNode} {field : ListNode → Option α}
    (hf : ∀ n, field (f n) = field n) (x : ℕ) :
    ((h.modifyNode p f).node x).bind field = (h.node x).bind field := by
  rw [modifyNode_node]
  by_cases hx : x = p
  · subst hx
    rw [Function.update_self]
    cases h.node x with
    | none => rfl
    | some n => exact hf n
  · rw [Function.update_of_ne hx]

/-- A field that a change sets is as it was at the other nodes. -/
theorem modifyNode_bind_set {α : Type} {f : ListNode → ListNode} {field : ListNode → Option α}
    {v : Option α} (hp : (h.node p).isSome) (hf : ∀ n, field (f n) = v) :
    (fun x => ((h.modifyNode p f).node x).bind field) =
      Function.update (fun x => (h.node x).bind field) p v := by
  obtain ⟨n, hn⟩ := Option.isSome_iff_exists.mp hp
  funext x
  rw [modifyNode_node]
  by_cases hx : x = p
  · rw [hx, Function.update_self, Function.update_self, hn]
    exact hf n
  · rw [Function.update_of_ne hx, Function.update_of_ne hx]

theorem setNext_info : (h.modifyNode p ({ · with next := o })).info = h.info := by
  funext x
  rw [info, info, Option.map_eq_bind, Option.map_eq_bind]
  apply modifyNode_bind
  exact fun _ => rfl

theorem setNext_prev : (h.modifyNode p ({ · with next := o })).prev = h.prev :=
  funext (modifyNode_bind fun _ => rfl)

theorem setNext_next (hp : (h.node p).isSome) :
    (h.modifyNode p ({ · with next := o })).next = Function.update h.next p o :=
  modifyNode_bind_set hp fun _ => rfl

theorem setPrev_info : (h.modifyNode p ({ · with prev := o })).info = h.info := by
  funext x
  rw [info, info, Option.map_eq_bind, Option.map_eq_bind]
  apply modifyNode_bind
  exact fun _ => rfl

theorem setPrev_next : (h.modifyNode p ({ · with prev := o })).next = h.next :=
  funext (modifyNode_bind fun _ => rfl)

theorem setPrev_prev (hp : (h.node p).isSome) :
    (h.modifyNode p ({ · with prev := o })).prev = Function.update h.prev p o :=
  modifyNode_bind_set hp fun _ => rfl

@[simp] theorem pushedHeap_info : (pushedHeap h l t p).info = h.info :=
  setPrev_info.trans setNext_info

theorem pushedHeap_next (ht : (h.node t).isSome) :
    (pushedHeap h l t p).next = Function.update h.next t (some p) :=
  setPrev_next.trans (setNext_next ht)

theorem pushedHeap_prev (hp : (h.node p).isSome) :
    (pushedHeap h l t p).prev = Function.update h.prev p (some t) := by
  have := setPrev_prev (h := h.modifyNode t ({ · with next := some p })) (p := p) (o := some t)
    (by rwa [← info_isSome, setNext_info, info_isSome])
  rwa [setNext_prev] at this

theorem pushedHeap_list : (pushedHeap h l t p).list = Function.update h.list l
    ((h.list l).map fun list => { list with tail := some p, size := list.size + 1 }) := rfl

/-- A push changes the tail and the size of one list. -/
theorem pushedHeap_list_eq_some {k : ℕ} {list' : RecordList}
    (hl : (pushedHeap h l t p).list k = some list') : ∃ list, h.list k = some list ∧
      list'.head = list.head ∧ (list'.tail = list.tail ∨ k = l ∧ list'.tail = some p) := by
  rw [pushedHeap_list] at hl
  by_cases hk : k = l
  · subst hk
    rw [Function.update_self, Option.map_eq_some_iff] at hl
    obtain ⟨list, hl, rfl⟩ := hl
    exact ⟨list, hl, rfl, .inr ⟨rfl, rfl⟩⟩
  · rw [Function.update_of_ne hk] at hl
    exact ⟨list', hl, rfl, .inl rfl⟩

theorem pushedHeap_isSome {x : ℕ} :
    ((pushedHeap h l t p).node x).isSome = (h.node x).isSome := by
  rw [← info_isSome, pushedHeap_info, info_isSome]

/-- A changed successor is the new one or an old one. -/
theorem update_eq_some {f : ℕ → Option ℕ} {x y : ℕ} {v : Option ℕ}
    (hf : Function.update f p v x = some y) : x = p ∧ v = some y ∨ x ≠ p ∧ f x = some y := by
  by_cases hx : x = p
  · subst hx
    rw [Function.update_self] at hf
    exact .inl ⟨rfl, hf⟩
  · rw [Function.update_of_ne hx] at hf
    exact .inr ⟨hx, hf⟩

/-- A path through the tail continues with the pushed node. -/
theorem path_push {o : Option ℕ} {ids : List ℕ} (ht : (h.node t).isSome) (hn : h.next p = none)
    (hne : t ≠ p) (hp : LinkPath h.next o ids none) :
    ∃ ids', LinkPath (pushedHeap h l t p).next o ids' none := by
  rw [pushedHeap_next ht]
  by_cases hmem : t ∈ ids
  · -- a path through the tail is cut there and goes on to the new node
    obtain ⟨as, bs, rfl⟩ := List.append_of_mem hmem
    refine ⟨as ++ [t] ++ [p], LinkPath.append_iff.mpr ⟨some p, ?_, rfl, ?_⟩⟩
    · have ha := (LinkPath.append_cons_iff.mp hp).1
      have hd := (List.nodup_append.mp hp.nodup).2.2
      refine LinkPath.concat_iff.mpr ⟨ha.congr fun x hx => ?_, Function.update_self ..⟩
      exact Function.update_of_ne (hd x hx t List.mem_cons_self) ..
    · rw [Function.update_of_ne hne.symm, hn]
      rfl
  · refine ⟨ids, hp.congr fun x hx => Function.update_of_ne ?_ ..⟩
    rintro rfl
    exact hmem hx

/-- **A push keeps the invariant** when the pushed node is linked from nowhere, or shared. -/
theorem Inv.push {S : Set ℕ} (hI : Inv S h) (ht : (h.node t).isSome)
    (hp : h.info p = some n) (hd : n.data.isSome) (hn : h.next p = none) (hne : t ≠ p)
    (hS : p ∈ S ∨ ∀ x, h.next x ≠ some p) : Inv S (pushedHeap h l t p) := by
  have hlive : (h.node p).isSome := isSome_of_info hp
  have hlist := fun {k list} (hl : (pushedHeap h l t p).list k = some list) =>
    pushedHeap_list_eq_some hl
  refine ⟨fun hl => ?_, fun hl hl' he => ?_, fun hp hd => ?_, fun hpq => ?_, fun hp => ?_,
    fun {x y} hxy hS' => ?_, fun hp hn => ?_, fun hp => hI.shared_lt hp, fun hl ht => ?_⟩
  · obtain ⟨list, hl, hh, -⟩ := hlist hl
    rw [hh, pushedHeap_info]
    exact hI.head hl
  · obtain ⟨list, hl, hh, -⟩ := hlist hl
    obtain ⟨list', hl', hh', -⟩ := hlist hl'
    exact hI.head_inj hl hl' (hh ▸ hh' ▸ he)
  · rw [pushedHeap_info] at hp
    exact hI.ttl hp hd
  · -- the pushed node may be linked to, for it has a record
    rw [pushedHeap_next ht] at hpq
    rw [pushedHeap_info]
    rcases update_eq_some hpq with ⟨-, hpq⟩ | ⟨-, hpq⟩
    · exact ⟨n, Option.some.inj hpq ▸ hp, hd⟩
    · exact hI.next hpq
  · rw [pushedHeap_isSome] at hp
    obtain ⟨ids, hids⟩ := hI.ends hp
    exact path_push ht hn hne hids
  · rw [pushedHeap_next ht] at hxy
    rw [pushedHeap_prev hlive]
    rcases update_eq_some hxy with ⟨rfl, hpy⟩ | ⟨-, hold⟩
    · rw [← Option.some.inj hpy, Function.update_self]
    · -- an old link does not lead to the node that is pushed, unless that node is shared
      have hyp : y ≠ p := by
        rintro rfl
        exact hS.elim hS' fun hS => hS x hold
      rw [Function.update_of_ne hyp]
      exact hI.pred hold hS'
  · rw [pushedHeap_info] at hn
    exact hI.shared hp hn
  · -- the new tail is the node pushed
    obtain ⟨list, hl, -, ht' | ⟨-, ht'⟩⟩ := hlist hl
    · exact hI.tail_lt hl (ht' ▸ ht)
    · rw [ht'] at ht
      rw [← Option.some.inj ht]
      exact lt_of_isSome (h := h) hlive

theorem Chain.ctor {ids : List ℕ} (hc : h.Chain l ids) : h.ctorHeap.Chain l ids := by
  obtain ⟨list, hl, hp, hlive⟩ := hc
  have hne : l ≠ h.nextList := by
    rintro rfl
    rw [h.list_fresh _ le_rfl] at hl
    cases hl
  refine ⟨list, by rw [ctorHeap_list, Function.update_of_ne hne, hl], ?_, fun i hi => ?_⟩
  · rwa [ctorHeap_next]
  · exact ctorHeap_isSome (hlive i hi)

theorem ctorHeap_chain (h : Heap) : h.ctorHeap.Chain h.nextList [h.nextNode] := by
  refine ⟨_, Function.update_self .., ⟨rfl, ?_⟩, fun i hi => ?_⟩
  · rw [ctorHeap_next, next_nextNode]
    rfl
  · rw [List.mem_singleton.mp hi, ← info_isSome, ctorHeap_info, Function.update_self,
      Option.isSome_some]

theorem Chain.alloc {ids : List ℕ} (hc : h.Chain l ids) (hn : n.next = none) :
    (h.allocNode n).Chain l ids := by
  obtain ⟨list, hl, hp, hlive⟩ := hc
  refine ⟨list, hl, by rwa [allocNode_next hn], fun i hi => ?_⟩
  rw [allocNode_node, Function.update_of_ne (lt_of_isSome (hlive i hi)).ne]
  exact hlive i hi

theorem exists_list_push {k : ℕ} {list : RecordList} (hl : h.list k = some list) :
    ∃ list', (pushedHeap h l t p).list k = some list' ∧ list'.head = list.head := by
  rw [pushedHeap_list]
  by_cases hk : k = l
  · subst hk
    rw [Function.update_self, hl, Option.map_some]
    exact ⟨_, rfl, rfl⟩
  · exact ⟨list, by rw [Function.update_of_ne hk, hl], rfl⟩

/-- A push behind a node that is not in a chain leaves the chain. -/
theorem Chain.push_of_notMem {k : ℕ} {ids : List ℕ} (hc : h.Chain k ids)
    (ht : (h.node t).isSome) (hti : t ∉ ids) : (pushedHeap h l t p).Chain k ids := by
  obtain ⟨list, hl, hp, hlive⟩ := hc
  obtain ⟨list', hl', hh⟩ := exists_list_push (l := l) (t := t) (p := p) hl
  refine ⟨list', hl', hh ▸ hp.congr fun x hx => ?_, fun i hi => ?_⟩
  · have hxt : x ≠ t := fun e => hti (e ▸ hx)
    rw [pushedHeap_next ht, Function.update_of_ne hxt]
  · rw [pushedHeap_isSome]
    exact hlive i hi

/-- A push behind a node of a chain cuts off the rest of the chain. -/
theorem Chain.push_mem {k : ℕ} {ids rest : List ℕ} (hc : h.Chain k (ids ++ t :: rest))
    (hp : (h.node p).isSome) (hn : h.next p = none) (hne : t ≠ p) :
    (pushedHeap h l t p).Chain k (ids ++ [t, p]) := by
  obtain ⟨list, hl, hpath, hlive⟩ := hc
  obtain ⟨list', hl', hh⟩ := exists_list_push (l := l) (t := t) (p := p) hl
  have ht := hlive t (by simp)
  have hd := (List.nodup_append.mp hpath.nodup).2.2
  refine ⟨list', hl', hh ▸ LinkPath.append_cons_iff.mpr ⟨?_, ?_⟩, fun i hi => ?_⟩
  · -- up to the cut the links are as they were
    apply (LinkPath.append_cons_iff.mp hpath).1.congr
    intro x hx
    rw [pushedHeap_next ht, Function.update_of_ne (hd x hx t (by simp))]
  · rw [pushedHeap_next ht, Function.update_self]
    refine ⟨rfl, ?_⟩
    rw [Function.update_of_ne hne.symm, hn]
    rfl
  · rw [pushedHeap_isSome]
    rw [List.append_cons, List.mem_append, List.mem_singleton] at hi
    rcases hi with hi | rfl
    · refine hlive i ?_
      rw [List.append_cons]
      exact List.mem_append_left _ hi
    · exact hp

/-- A push behind the last node of a chain extends the chain. -/
theorem Chain.push_last {k : ℕ} {ids : List ℕ} (hc : h.Chain k (ids ++ [t]))
    (hp : (h.node p).isSome) (hn : h.next p = none) (hne : t ≠ p) :
    (pushedHeap h l t p).Chain k (ids ++ [t, p]) :=
  hc.push_mem hp hn hne

/-! ## Fresh nodes -/

/-- **A fresh node**: a record linked from nowhere and to nowhere. -/
structure Unlinked (h : Heap) (p : ℕ) : Prop where
  data : ∃ n, h.info p = some n ∧ n.data.isSome
  next : h.next p = none
  pred : ∀ x, h.next x ≠ some p
  tail : ∀ {k list}, h.list k = some list → list.tail ≠ some p

theorem Unlinked.isSome (hp : h.Unlinked p) : (h.node p).isSome := by
  obtain ⟨n, hn, -⟩ := hp.data
  exact isSome_of_info hn

/-- A fresh node is in no chain. -/
theorem Unlinked.notMem {S : Set ℕ} (hp : h.Unlinked p) (hI : Inv S h) {ids : List ℕ}
    (hc : h.Chain l ids) : p ∉ ids := by
  obtain ⟨list, hl, hpath, -⟩ := hc
  intro hmem
  -- the first node of a chain has no record, and the others are linked from the one before
  rcases hpath.pred_of_mem hmem with hhead | ⟨w, -, hw⟩
  · obtain ⟨s, n, hs, hn, hd⟩ := hI.head hl
    obtain ⟨m, hm, hmd⟩ := hp.data
    obtain rfl : s = p := Option.some.inj (hs.symm.trans hhead)
    rw [← Option.some.inj (hn.symm.trans hm), hd] at hmd
    cases hmd
  · exact hp.pred w hw

/-- A record just allocated is fresh. -/
theorem Inv.unlinked_alloc {S : Set ℕ} (hI : Inv S h) (hn : n.next = none)
    (hd : n.data.isSome) : (h.allocNode n).Unlinked h.nextNode where
  data := ⟨n.unlinked, by rw [allocNode_info, Function.update_self], hd⟩
  next := by rw [allocNode_next hn, next_nextNode]
  pred x hx := by
    rw [allocNode_next hn] at hx
    obtain ⟨m, hm, -⟩ := hI.next hx
    exact ne_nextNode_of_info hm rfl
  tail hl ht := (hI.tail_lt hl ht).ne rfl

theorem Unlinked.ctor (hp : h.Unlinked p) : h.ctorHeap.Unlinked p where
  data := by
    obtain ⟨n, hn, hd⟩ := hp.data
    exact ⟨n, by rw [ctorHeap_info, Function.update_of_ne (ne_nextNode_of_info hn), hn], hd⟩
  next := by rw [ctorHeap_next, hp.next]
  pred x := by
    rw [ctorHeap_next]
    exact hp.pred x
  tail hl := by
    obtain ⟨-, rfl⟩ | hl := ctorHeap_list_eq_some hl
    · exact fun e => (lt_of_isSome hp.isSome).ne (Option.some.inj e).symm
    · exact hp.tail hl

theorem Unlinked.alloc (hp : h.Unlinked p) (hn : n.next = none) : (h.allocNode n).Unlinked p where
  data := by
    obtain ⟨m, hm, hd⟩ := hp.data
    exact ⟨m, by rw [allocNode_info, Function.update_of_ne (ne_nextNode_of_info hm), hm], hd⟩
  next := by rw [allocNode_next hn, hp.next]
  pred x := by
    rw [allocNode_next hn]
    exact hp.pred x
  tail hl := hp.tail hl

/-- Pushing another node leaves a node fresh. -/
theorem Unlinked.push (hq : h.Unlinked q) (hqp : q ≠ p) (ht : (h.node t).isSome) (htq : t ≠ q) :
    (pushedHeap h l t p).Unlinked q where
  data := by
    rw [pushedHeap_info]
    exact hq.data
  next := by rw [pushedHeap_next ht, Function.update_of_ne htq.symm, hq.next]
  pred x hx := by
    rw [pushedHeap_next ht] at hx
    rcases update_eq_some hx with ⟨-, hx⟩ | ⟨-, hx⟩
    · exact hqp (Option.some.inj hx).symm
    · exact hq.pred x hx
  tail hl ht' := by
    obtain ⟨list, hl, -, htail | ⟨-, htail⟩⟩ := pushedHeap_list_eq_some hl
    · exact hq.tail hl (htail ▸ ht')
    · exact hqp (Option.some.inj (ht'.symm.trans htail))

/-! ## Tails -/

/-- The tail of the list `l` is live. -/
def TailLive (h : Heap) (l : ℕ) : Prop :=
  ∃ list t, h.list l = some list ∧ list.tail = some t ∧ (h.node t).isSome

/-- **A push succeeds** onto a list with a live tail. -/
theorem TailLive.push_ok (hl : h.TailLive l) (hp : (h.node p).isSome) :
    ∃ h', listPushBack h l p = .ok h' := by
  obtain ⟨list, t, hl, ht, htl⟩ := hl
  exact ⟨_, listPushBack_eq_ok.mpr ⟨list, t, hl, ht, htl, hp, rfl⟩⟩

theorem ctorHeap_tailLive (h : Heap) : h.ctorHeap.TailLive h.nextList :=
  ⟨_, _, Function.update_self .., rfl, by
    rw [← info_isSome, ctorHeap_info, Function.update_self, Option.isSome_some]⟩

theorem TailLive.alloc (hl : h.TailLive l) : (h.allocNode n).TailLive l := by
  obtain ⟨list, t, hlist, ht, hlive⟩ := hl
  refine ⟨list, t, hlist, ht, ?_⟩
  rwa [allocNode_node, Function.update_of_ne (lt_of_isSome hlive).ne]

/-- **The tail of the list `l` ends its chain**. -/
def TailLast (h : Heap) (l : ℕ) : Prop :=
  ∃ list ids t, h.list l = some list ∧ list.tail = some t ∧ h.Chain l (ids ++ [t])

theorem TailLast.tailLive (hl : h.TailLast l) : h.TailLive l := by
  obtain ⟨list, ids, t, hl, ht, hc⟩ := hl
  obtain ⟨-, -, -, hlive⟩ := hc
  exact ⟨list, t, hl, ht, hlive t (by simp)⟩

end Heap

end Adrift
