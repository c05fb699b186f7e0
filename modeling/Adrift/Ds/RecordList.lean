import Adrift.Protocol.Codec
import Adrift.Lib.LinkPath
import Mathlib.Logic.Function.Basic

/-!
# Record lists

`ds/list.h`: doubly linked lists of resource records with a head node. The nodes carry their own
links, so one node can be pushed onto several lists; nodes and lists are cells of a heap, named
by numbers that are never reused, and an access to a cell that is not live faults. A `time_t` is
an integer.

## Main definitions

* `ListNode`, `RecordList`, `Heap`: the cells and the heap
* `listPushBack`, `listErase`, `listUpdate`: the operations of a list
* `listNodes`: the nodes a loop from the head meets

## Main results

* `listPushBack_eq_ok`: a push succeeds when the tail and the node are live
-/

namespace Adrift

open Outcome

/-- `ListNode`: `data` and `type` are both null in a head node, and both set in the others. -/
structure ListNode where
  data : Option DnsResourceRecord
  recordTime : ℤ
  ttl : ℤ
  type : Option RrType
  prev : Option ℕ
  next : Option ℕ
  /-- A node has a section when it has a record. -/
  typed : data.isSome = type.isSome

/-- `List`. -/
structure RecordList where
  head : Option ℕ
  tail : Option ℕ
  size : UInt64

/-- The allocated nodes and lists, and the next fresh pointers. -/
structure Heap where
  node : ℕ → Option ListNode
  list : ℕ → Option RecordList
  nextNode : ℕ
  nextList : ℕ
  /-- Nothing is allocated from the next node pointer on. -/
  node_fresh : ∀ p, nextNode ≤ p → node p = none
  /-- Nothing is allocated from the next list pointer on. -/
  list_fresh : ∀ l, nextList ≤ l → list l = none

namespace Heap

/-- The heap before any allocation. -/
def empty : Heap := ⟨fun _ => none, fun _ => none, 0, 0, fun _ _ => rfl, fun _ _ => rfl⟩

/-- A fresh node. -/
def allocNode (h : Heap) (n : ListNode) : Heap where
  node := Function.update h.node h.nextNode (some n)
  list := h.list
  nextNode := h.nextNode + 1
  nextList := h.nextList
  node_fresh p hp := by
    rw [Function.update_of_ne (by omega)]
    exact h.node_fresh p (by omega)
  list_fresh := h.list_fresh

/-- A fresh list. -/
def allocList (h : Heap) (list : RecordList) : Heap where
  node := h.node
  list := Function.update h.list h.nextList (some list)
  nextNode := h.nextNode
  nextList := h.nextList + 1
  node_fresh := h.node_fresh
  list_fresh l hl := by
    rw [Function.update_of_ne (by omega)]
    exact h.list_fresh l (by omega)

/-- The node `p` freed. -/
def freeNode (h : Heap) (p : ℕ) : Heap where
  node := Function.update h.node p none
  list := h.list
  nextNode := h.nextNode
  nextList := h.nextList
  node_fresh q hq := by
    by_cases he : q = p
    · rw [he, Function.update_self]
    · rw [Function.update_of_ne he, h.node_fresh q hq]
  list_fresh := h.list_fresh

/-- The list `l` freed, without its nodes. -/
def freeList (h : Heap) (l : ℕ) : Heap where
  node := h.node
  list := Function.update h.list l none
  nextNode := h.nextNode
  nextList := h.nextList
  node_fresh := h.node_fresh
  list_fresh k hk := by
    by_cases he : k = l
    · rw [he, Function.update_self]
    · rw [Function.update_of_ne he, h.list_fresh k hk]

/-- The node `p` changed by `f`, where it is live. -/
def modifyNode (h : Heap) (p : ℕ) (f : ListNode → ListNode) : Heap where
  node := Function.update h.node p ((h.node p).map f)
  list := h.list
  nextNode := h.nextNode
  nextList := h.nextList
  node_fresh q hq := by
    by_cases he : q = p
    · rw [he, Function.update_self, ← he, h.node_fresh q hq, Option.map_none]
    · rw [Function.update_of_ne he, h.node_fresh q hq]
  list_fresh := h.list_fresh

/-- The list `l` changed by `f`, where it is live. -/
def modifyList (h : Heap) (l : ℕ) (f : RecordList → RecordList) : Heap where
  node := h.node
  list := Function.update h.list l ((h.list l).map f)
  nextNode := h.nextNode
  nextList := h.nextList
  node_fresh := h.node_fresh
  list_fresh k hk := by
    by_cases he : k = l
    · rw [he, Function.update_self, ← he, h.list_fresh k hk, Option.map_none]
    · rw [Function.update_of_ne he, h.list_fresh k hk]

/-- `*p` for a node. -/
def getNode (h : Heap) (p : ℕ) : Except Fault ListNode :=
  match h.node p with
  | some n => .ok n
  | none => .error .useAfterFree

/-- `*l` for a list. -/
def getList (h : Heap) (l : ℕ) : Except Fault RecordList :=
  match h.list l with
  | some list => .ok list
  | none => .error .useAfterFree

/-- `p->next = q`. -/
def setNext (h : Heap) (p : ℕ) (q : Option ℕ) : Except Fault Heap :=
  (fun _ => h.modifyNode p ({ · with next := q })) <$> h.getNode p

/-- `p->prev = q`. -/
def setPrev (h : Heap) (p : ℕ) (q : Option ℕ) : Except Fault Heap :=
  (fun _ => h.modifyNode p ({ · with prev := q })) <$> h.getNode p

/-- The successor of a live node. -/
def next (h : Heap) (p : ℕ) : Option ℕ := (h.node p).bind (·.next)

end Heap

/-! ## The operations -/

/-- A node of `list_node_ctor` for `NULL`. -/
def listNodeCtor : ListNode := ⟨none, 0, 0, none, none, none, rfl⟩

/-- The node of `list_node_ctor_with_info`. -/
def ListNode.ofInfo (data : DnsResourceRecord) (rrType : RrType) (recordTime ttl : ℤ) :
    ListNode :=
  ⟨some data, recordTime, ttl, some rrType, none, none, rfl⟩

/-- `list_node_ctor_with_info`: the heap, and the node allocated in it. -/
def listNodeCtorWithInfo (h : Heap) (data : DnsResourceRecord) (rrType : RrType)
    (recordTime ttl : ℤ) : Heap × ℕ :=
  (h.allocNode (.ofInfo data rrType recordTime ttl), h.nextNode)

/-- `list_ctor`: the heap, and the list allocated in it. -/
def listCtor (h : Heap) : Heap × ℕ :=
  ((h.allocNode listNodeCtor).allocList ⟨some h.nextNode, some h.nextNode, 0⟩, h.nextList)

/-- The loop of `list_dtor`, with a bound on its iterations. -/
def freeFrom : ℕ → Heap → Option ℕ → Except Fault Heap
  | _, h, none => .ok h
  | 0, _, some _ => .error .endless
  | fuel + 1, h, some p => do
    let node ← h.getNode p
    freeFrom fuel (h.freeNode p) node.next

/-- `list_dtor` of a list that may be null. -/
def listDtor (h : Heap) (l : Option ℕ) : Except Fault Heap :=
  match l with
  | none => .ok h
  | some l => do
    let list ← h.getList l
    let h ← freeFrom h.nextNode h list.head
    return h.freeList l

/-- `list_push_back`. -/
def listPushBack (h : Heap) (l : ℕ) (p : ℕ) : Except Fault Heap := do
  let list ← h.getList l
  match list.tail with
  | none => throw .nullPointer
  | some t =>
    let h ← h.setNext t (some p)
    let h ← h.setPrev p list.tail
    return h.modifyList l fun list => { list with tail := some p, size := list.size + 1 }

/-- `p->next = q` where `p` may be null, and then nothing happens. -/
def Heap.relinkNext (h : Heap) (p q : Option ℕ) : Except Fault Heap :=
  match p with
  | none => .ok h
  | some p => h.setNext p q

/-- `p->prev = q` where `p` may be null, and then nothing happens. -/
def Heap.relinkPrev (h : Heap) (p q : Option ℕ) : Except Fault Heap :=
  match p with
  | none => .ok h
  | some p => h.setPrev p q

/-- `list_erase` of a node that is not null. -/
def listErase (h : Heap) (l : ℕ) (p : ℕ) : Except Fault Heap := do
  let node ← h.getNode p
  let h ← h.relinkNext node.prev node.next
  let h ← h.relinkPrev node.next node.prev
  return (h.modifyList l fun list =>
    { head := if list.head = some p then node.next else list.head
      tail := if list.tail = some p then node.prev else list.tail
      size := list.size - 1 }).freeNode p

/-- The test of `list_update`: the node is past its lifetime by more than ten seconds. -/
def ListNode.expired (now : ℤ) (n : ListNode) : Bool :=
  n.ttl ≠ 0 ∧ 10 < now - (n.recordTime + n.ttl)

/-- The loop of `list_update`, with a bound on its iterations. -/
def listUpdateFrom (now : ℤ) (l : ℕ) :
    ℕ → Heap → Option ℕ → UInt64 → Except Fault (Heap × UInt64)
  | _, h, none, size => .ok (h, size)
  | 0, _, some _, _ => .error .endless
  | fuel + 1, h, some p, size => do
    let node ← h.getNode p
    if node.expired now then
      -- the node is freed, its successor was read before
      let h ← listErase h l p
      listUpdateFrom now l fuel h node.next size
    else
      listUpdateFrom now l fuel h node.next (size + 1)

/-- `list_update`: the heap, and the number of nodes kept without the head node. -/
def listUpdate (h : Heap) (l : ℕ) (now : ℤ) : Except Fault (Heap × UInt64) := do
  let list ← h.getList l
  if list.head = none then return (h, 0)
  let (h, size) ← listUpdateFrom now l h.nextNode h list.head 0
  return (h, size - 1)

/-- The nodes met by a loop from `p` along `next`, with a bound on its iterations. -/
def nodesFrom (h : Heap) : ℕ → Option ℕ → Except Fault (List (ℕ × ListNode))
  | _, none => .ok []
  | 0, some _ => .error .endless
  | fuel + 1, some p => do
    let node ← h.getNode p
    let nodes ← nodesFrom h fuel node.next
    return (p, node) :: nodes

/-- The nodes met by the loop `for (p = list->head; p != NULL; p = p->next)`. -/
def listNodes (h : Heap) (l : ℕ) : Except Fault (List (ℕ × ListNode)) := do
  let list ← h.getList l
  nodesFrom h h.nextNode list.head

/-! ## What the operations do -/

theorem Heap.getNode_eq_ok {h : Heap} {p : ℕ} {n : ListNode} :
    h.getNode p = .ok n ↔ h.node p = some n := by
  unfold Heap.getNode
  split <;> simp_all

theorem Heap.getList_eq_ok {h : Heap} {l : ℕ} {list : RecordList} :
    h.getList l = .ok list ↔ h.list l = some list := by
  unfold Heap.getList
  split <;> simp_all

theorem Heap.setNext_eq_ok {h h' : Heap} {p : ℕ} {q : Option ℕ} :
    h.setNext p q = .ok h' ↔
      (h.node p).isSome ∧ h' = h.modifyNode p ({ · with next := q }) := by
  simp only [Heap.setNext, map_eq_ok, Heap.getNode_eq_ok, Option.isSome_iff_exists]
  exact ⟨fun ⟨n, hn, e⟩ => ⟨⟨n, hn⟩, e.symm⟩, fun ⟨⟨n, hn⟩, e⟩ => ⟨n, hn, e.symm⟩⟩

theorem Heap.setPrev_eq_ok {h h' : Heap} {p : ℕ} {q : Option ℕ} :
    h.setPrev p q = .ok h' ↔
      (h.node p).isSome ∧ h' = h.modifyNode p ({ · with prev := q }) := by
  simp only [Heap.setPrev, map_eq_ok, Heap.getNode_eq_ok, Option.isSome_iff_exists]
  exact ⟨fun ⟨n, hn, e⟩ => ⟨⟨n, hn⟩, e.symm⟩, fun ⟨⟨n, hn⟩, e⟩ => ⟨n, hn, e.symm⟩⟩

/-- The heap after a push of `p` behind the tail `t` of `l`. -/
def pushedHeap (h : Heap) (l t p : ℕ) : Heap :=
  ((h.modifyNode t ({ · with next := some p })).modifyNode p ({ · with prev := some t })).modifyList
    l fun list => { list with tail := some p, size := list.size + 1 }

/-- **A push succeeds** when the tail and the node are live. -/
theorem listPushBack_eq_ok {h h' : Heap} {l p : ℕ} :
    listPushBack h l p = .ok h' ↔ ∃ list t, h.list l = some list ∧ list.tail = some t ∧
      (h.node t).isSome ∧ (h.node p).isSome ∧ h' = pushedHeap h l t p := by
  unfold listPushBack
  simp only [bind_eq_ok, Heap.getList_eq_ok]
  constructor
  · rintro ⟨list, hl, hp⟩
    refine ⟨list, ?_⟩
    rcases ht : list.tail with _ | t <;> rw [ht] at hp
    · simp at hp
    · simp only [bind_eq_ok, Heap.setNext_eq_ok, Heap.setPrev_eq_ok] at hp
      obtain ⟨_, ⟨htl, rfl⟩, _, ⟨hpl, rfl⟩, he⟩ := hp
      refine ⟨t, hl, rfl, htl, ?_, (Except.ok.inj he).symm⟩
      by_cases e : p = t
      · exact e ▸ htl
      · simpa [Heap.modifyNode, Function.update_of_ne e] using hpl
  · rintro ⟨list, t, hl, ht, htl, hpl, rfl⟩
    refine ⟨list, hl, ?_⟩
    rw [ht]
    simp only [bind_eq_ok, Heap.setNext_eq_ok, Heap.setPrev_eq_ok]
    refine ⟨_, ⟨htl, rfl⟩, _, ⟨?_, rfl⟩, rfl⟩
    by_cases e : p = t
    · simpa [Heap.modifyNode, e] using htl
    · simpa [Heap.modifyNode, Function.update_of_ne e] using hpl

/-- A push indexes no child. -/
theorem listPushBack_ne_childOutOfRange (h : Heap) (l p : ℕ) :
    listPushBack h l p ≠ .error .childOutOfRange := by
  have hget : ∀ (h : Heap) (x : ℕ), h.getNode x ≠ .error .childOutOfRange := by
    intro h x
    unfold Heap.getNode
    split <;> simp
  unfold listPushBack Heap.getList
  cases h.list l with
  | none => simp
  | some list =>
    rw [ok_bind]
    cases list.tail with
    | none => simp
    | some t => simp [Heap.setNext, Heap.setPrev, bind_eq_error, hget]

/-- An address record. -/
def sampleRecord : DnsResourceRecord := ⟨⟨[], by decide⟩, 1, 1, 180, 4, [192, 0, 2, 1], rfl⟩

end Adrift
