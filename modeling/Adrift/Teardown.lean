import Adrift.Ds.Discard
import Adrift.Ds.TrieShrink
import Adrift.Protocol.Blacklist
import Adrift.Protocol.Coherence
import Adrift.Protocol.Independence
import Mathlib.Data.List.Pairwise

/-!
# The end of the program

`exit_handler` destroys the caches one after the other: of the lists in a hash map it frees the
cells, and of those in a trie the nodes too. The lists of a blocked domain share a node, so that the
second of them is met with that node freed when they stand in tries.

## Main definitions

* `hashMapDtor`, `trieDtor`, `cacheDtor`, `exitHandler`: the operations
* `HashMap.values`, `TrieNode.lists`: the lists, in the order they are freed
* `Cache.discards c`: what `exit_handler` discards
* `Cache.TrieKeys c`: the tries hold short keys that pass the guard

## Main results

* `exitHandler_eq`: the program exits after a sequence of discards
* `exitHandler_iff`: after any run it exits without a fault exactly when the hosts file blocks no
  domain of a trie
* `exitHandler_leaves`: it leaves no list, and of the nodes those of the hash maps and of no list
-/

namespace Adrift

open Outcome

/-! ## The operations -/

/-- `hash_map_dtor`. -/
def hashMapDtor (h : Heap) (m : HashMap) : Except Fault Heap :=
  (List.range m.capacity).foldlM (fun h i => hashMapEntryDtor h (m.table i)) h

/-- `trie_dtor`. -/
def trieDtor (h : Heap) (trie : TrieNode) : Except Fault Heap := trieNodeDtor trie.cell h

/-- `cache_dtor`. -/
def cacheDtor (c : Cache) (h : Heap) (cacheType : CacheType) : Except Fault Heap := do
  let h ← hashMapDtor h (c.hashMap cacheType)
  trieDtor h (c.trie cacheType)

/-- `SIGHUP`. -/
def sigHup : ℤ := 1

/-- `SIGINT`. -/
def sigInt : ℤ := 2

/-- `SIGTERM`. -/
def sigTerm : ℤ := 15

/-- `!sig || sig == SIGHUP || sig == SIGINT || sig == SIGTERM`. -/
def IsExitSignal (sig : ℤ) : Prop := sig = 0 ∨ sig = sigHup ∨ sig = sigInt ∨ sig = sigTerm

instance : DecidablePred IsExitSignal := fun sig => by
  unfold IsExitSignal
  infer_instance

/-- `exit_handler`: the heap that the program exits with, or nothing where it goes on. -/
def exitHandler (c : Cache) (sig : ℤ) : Except Fault (Option Heap) :=
  if IsExitSignal sig then do
    let h ← cacheDtor c c.heap .ipv4
    let h ← cacheDtor c h .ipv6
    let h ← cacheDtor c h .cname
    return some h
  else return none

/-! ## The order of the lists -/

/-- The lists of a hash map, in the order `hash_map_dtor` frees them: each chain from its end. -/
def HashMap.values (m : HashMap) : List ℕ :=
  (List.range m.capacity).flatMap fun i => (m.table i).reverse.map (·.value)

mutual

/-- The lists of a trie, in the order `trie_node_dtor` frees them. -/
def TrieNode.lists : TrieNode → List ℕ
  | .node data child => data.toList ++ (List.finRange 95).flatMap fun i => childLists (child i)

/-- The lists of a child. -/
def childLists : Option TrieNode → List ℕ
  | none => []
  | some t => t.lists

end

/-- What `cache_dtor` discards. -/
def Cache.discardsOf (c : Cache) (t : CacheType) : List Discard :=
  (c.hashMap t).values.map (⟨·, false⟩) ++ (c.trie t).lists.map (⟨·, true⟩)

/-- **What `exit_handler` discards**. -/
def Cache.discards (c : Cache) : List Discard :=
  [.ipv4, .ipv6, .cname].flatMap c.discardsOf

variable {m : HashMap} {t : TrieNode} {h : Heap} {l : ℕ}

theorem hashMapEntryDtor_eq (h : Heap) (chain : List HashMapEntry) : hashMapEntryDtor h chain =
    ((chain.reverse.map (·.value)).map (⟨·, false⟩)).foldlM Discard.run h := by
  induction chain with
  | nil => rfl
  | cons entry chain ih =>
    rw [hashMapEntryDtor, ih, List.reverse_cons, List.map_append, List.map_append,
      List.foldlM_append]
    refine bind_congr fun h => ?_
    simp only [List.map_cons, List.map_nil, List.foldlM_cons, List.foldlM_nil, Discard.run]
    cases h.getList entry.value <;> rfl

theorem hashMapDtor_eq (h : Heap) (m : HashMap) :
    hashMapDtor h m = (m.values.map (⟨·, false⟩)).foldlM Discard.run h := by
  rw [hashMapDtor, HashMap.values, List.map_flatMap, foldlM_flatMap]
  simp only [hashMapEntryDtor_eq]

theorem trieNodeDtor_eq (h : Heap) (t : TrieNode) :
    trieNodeDtor t.cell h = (t.lists.map (⟨·, true⟩)).foldlM Discard.run h := by
  induction t using TrieNode.childInduction generalizing h with
  | node data child ih =>
    have hchild : ∀ (h : Heap) i, trieNodeDtor (childCell (child i)) h =
        ((childLists (child i)).map (⟨·, true⟩)).foldlM Discard.run h := by
      intro h i
      cases hi : child i with
      | none => rfl
      | some t => exact ih i t hi h
    rw [TrieNode.cell, trieNodeDtor, TrieNode.lists, List.map_append, List.foldlM_append,
      List.map_flatMap]
    have hdata : listDtor h data = (data.toList.map (⟨·, true⟩)).foldlM Discard.run h := by
      cases data with
      | none => rfl
      | some l => exact (bind_pure (listDtor h (some l))).symm
    rw [hdata]
    refine bind_congr fun h => ?_
    rw [foldlM_flatMap]
    simp only [hchild]

/-- **`exit_handler` exits after a sequence of discards**. -/
theorem exitHandler_eq (c : Cache) {sig : ℤ} (hsig : IsExitSignal sig) :
    exitHandler c sig = some <$> c.discards.foldlM Discard.run c.heap := by
  have hdtor : ∀ h t, cacheDtor c h t = (c.discardsOf t).foldlM Discard.run h := by
    intro h t
    rw [cacheDtor, hashMapDtor_eq, Cache.discardsOf, List.foldlM_append]
    exact bind_congr fun h => trieNodeDtor_eq h _
  rw [exitHandler, if_pos hsig, Cache.discards, foldlM_flatMap]
  simp only [hdtor, List.foldlM_cons, List.foldlM_nil, map_bind]
  refine bind_congr fun h₁ => bind_congr fun h₂ => ?_
  cases (c.discardsOf .cname).foldlM Discard.run h₂ <;> rfl

/-! ## The lists are discarded once -/

theorem HashMap.Inv.mem_values (hm : m.Inv) : l ∈ m.values ↔ ∃ k, m.Has k l := by
  simp only [HashMap.values, List.mem_flatMap, List.mem_range, List.mem_map, List.mem_reverse]
  constructor
  · rintro ⟨i, -, e, he, rfl⟩
    obtain ⟨k, hk⟩ := hm.holds i e he
    exact ⟨k, hm.has_of_mem he hk⟩
  · rintro ⟨k, e, he, -, rfl⟩
    exact ⟨_, Nat.mod_lt _ hm.capacity, e, he, rfl⟩

/-- The entries of a hash map have lists of their own. -/
theorem HashMap.Inv.nodup_values (hm : m.Inv)
    (hinj : ∀ {k k' l}, m.Has k l → m.Has k' l → k = k') : m.values.Nodup := by
  -- entries with one list hold one key
  have hkey : ∀ {i j e e'}, e ∈ m.table i → e' ∈ m.table j → e.value = e'.value →
      e.key = e'.key ∧ i = j := by
    intro i j e e' he he' hv
    obtain ⟨k, hk⟩ := hm.holds i e he
    obtain ⟨k', hk'⟩ := hm.holds j e' he'
    obtain rfl := hinj (hm.has_of_mem he hk) (hv ▸ hm.has_of_mem he' hk')
    exact ⟨hk.key.trans hk'.key.symm, by
      rw [← hm.bucket i e he, ← hm.bucket j e' he', hk.hash, hk'.hash]⟩
  refine List.nodup_flatMap.mpr ⟨fun i _ => ?_, List.nodup_range.imp fun hij => ?_⟩
  · rw [List.map_reverse, List.nodup_reverse]
    refine (hm.distinct i).of_map.map_on fun e he e' he' hv => ?_
    exact List.inj_on_of_nodup_map (hm.distinct i) he he' (hkey he he' hv).1
  · intro l hl hl'
    obtain ⟨e, he, rfl⟩ := List.mem_map.mp hl
    obtain ⟨e', he', hv⟩ := List.mem_map.mp hl'
    exact hij (hkey (List.mem_reverse.mp he) (List.mem_reverse.mp he') hv.symm).2

theorem mem_childLists {o : Option TrieNode} :
    l ∈ childLists o ↔ ∃ t, o = some t ∧ l ∈ t.lists := by
  cases o with
  | none => exact iff_of_false List.not_mem_nil fun ⟨_, h, _⟩ => nomatch h
  | some t => exact ⟨fun hl => ⟨t, rfl, hl⟩, fun ⟨_, h, hl⟩ => Option.some.inj h ▸ hl⟩

theorem TrieNode.mem_lists : l ∈ t.lists ↔ t.HasList l := by
  induction t using TrieNode.childInduction with
  | node data child ih =>
    simp only [TrieNode.lists, List.mem_append, List.mem_flatMap, List.mem_finRange, true_and,
      mem_childLists]
    constructor
    · rintro (hl | ⟨i, t, hi, hl⟩)
      · obtain rfl := Option.mem_toList.mp hl
        exact .own
      · exact ((ih i t hi).mp hl).of_child hi
    · rintro ⟨_ | ⟨c, path⟩, hpath⟩
      · exact .inl (Option.mem_toList.mpr (Except.ok.inj hpath))
      · -- the first octet of the path leads to the child
        rw [trieFindFrom] at hpath
        obtain ⟨i, -, hpath⟩ := bind_eq_ok.mp hpath
        cases hi : child i with
        | none => simp [hi] at hpath
        | some t =>
          rw [hi] at hpath
          exact .inr ⟨i, t, hi, (ih i t hi).mpr ⟨path, hpath⟩⟩

/-- The nodes of a trie have lists of their own. -/
theorem TrieLists.nodup_lists (hT : TrieLists h t) : t.lists.Nodup := by
  induction t using TrieNode.childInduction with
  | node data child ih =>
    rw [TrieNode.lists, List.nodup_append']
    refine ⟨?_, List.nodup_flatMap.mpr ⟨fun i _ => ?_, ?_⟩, ?_⟩
    · cases data <;> simp
    · cases hi : child i with
      | none => exact List.nodup_nil
      | some t => exact ih i t hi (hT.of_child hi)
    · refine (List.nodup_finRange 95).imp fun {i j} hij l hl hl' => hij ?_
      -- a list of two children stands at two paths
      obtain ⟨t, hi, hl⟩ := mem_childLists.mp hl
      obtain ⟨u, hj, hl'⟩ := mem_childLists.mp hl'
      obtain ⟨path, hpath⟩ := TrieNode.mem_lists.mp hl
      obtain ⟨path', hpath'⟩ := TrieNode.mem_lists.mp hl'
      obtain ⟨c, hc⟩ := exists_childIndex i
      obtain ⟨c', hc'⟩ := exists_childIndex j
      have heq := hT.distinct ((trieFindFrom_child hc hi path).mpr hpath)
        ((trieFindFrom_child hc' hj path').mpr hpath')
      rw [(List.cons.inj heq).1] at hc
      exact Except.ok.inj (hc.symm.trans hc')
    · intro l hl hl'
      obtain ⟨i, -, hl'⟩ := List.mem_flatMap.mp hl'
      obtain ⟨t, hi, hl'⟩ := mem_childLists.mp hl'
      exact hT.notMem_own hi (TrieNode.mem_lists.mp hl') hl

/-! ## The keys of the tries -/

variable {c c₀ c' : Cache} {S : Set ℕ} {k d : CString} {p : ℕ} {log : List Logged}
  {file : List UInt8} {cls : ℕ → Option CacheType × CString} {es : List (InAddr × CString)}

/-- **The tries hold short keys** that pass the guard. -/
def Cache.TrieKeys (c : Cache) : Prop :=
  ∀ t k l, (c.trie t).Has k l → invalidKey k = false ∧ streamLength k ≤ 16

theorem Cache.TrieKeys.insert {t : CacheType} (hK : c.TrieKeys)
    (hr : cacheInsert c t k p = .ok c') : c'.TrieKeys := by
  unfold cacheInsert at hr
  split_ifs at hr with hv hlen
  · cases hr
    exact hK
  · obtain ⟨⟨h, trie⟩, hins, hr⟩ := bind_eq_ok.mp hr
    cases hr
    obtain ⟨l, hhas, -⟩ := trieInsert_cases hins
    intro t' k' l' hl
    by_cases ht : t' = t
    · subst ht
      simp only [Function.update_self, hhas] at hl
      rcases hl with ⟨hl, -⟩ | ⟨rfl, -⟩
      · exact hK t' k' l' hl
      · exact ⟨Bool.eq_false_iff.mpr hv, hlen⟩
    · simp only [Function.update_of_ne ht] at hl
      exact hK t' k' l' hl
  · obtain ⟨⟨h, hashMap⟩, -, hr⟩ := bind_eq_ok.mp hr
    cases hr
    exact hK

theorem Cache.TrieKeys.withHeap (hK : c.TrieKeys) (h : Heap) : (c.withHeap h).TrieKeys :=
  fun t k l hl => hK t k l hl

theorem Cache.init_trieKeys : Cache.init.TrieKeys :=
  fun _ k l hl => absurd hl (trieNodeCtor_has k l)

theorem readHostsFile_trieKeys (hload : readHostsFile Cache.init file = .ok c) : c.TrieKeys := by
  rw [readHostsFile_eq] at hload
  refine foldlM_invariant (P := Cache.TrieKeys) (fun c e _ c' hK hr => ?_) Cache.init_trieKeys hload
  obtain ⟨c₁, h₁, hr⟩ := insertHostsEntry_eq_ok.mp hr
  have hK₁ := (hK.withHeap _).insert h₁
  split_ifs at hr with hz
  · obtain ⟨c₂, h₂, h₃⟩ := hr
    exact (hK₁.insert h₂).insert h₃
  · rwa [hr]

theorem Cache.Run.trieKeys (hrun : c₀.Run log c) (hK : c₀.TrieKeys) : c.TrieKeys := by
  refine hrun.invariant (P := Cache.TrieKeys) hK ?_ fun hK _ _ => hK.withHeap _
  intro now qname rrType rr c c' p hK hr
  obtain ⟨rfl, ⟨-, rfl⟩ | ⟨t, -, hins⟩⟩ := cacheRecord_cases hr
  · exact hK.withHeap _
  · exact (hK.withHeap _).insert hins

/-- What a trie holds, the cache holds. -/
theorem Cache.TrieKeys.has {t : CacheType} (hK : c.TrieKeys) (hl : (c.trie t).Has k l) :
    c.Has t k l := by
  obtain ⟨hv, hlen⟩ := hK t k l hl
  rwa [Cache.has_short hv hlen]

theorem Cache.IndexInv.trieLists (hI : c.IndexInv) (hK : c.TrieKeys) (t : CacheType) :
    TrieLists c.heap (c.trie t) where
  live hl := by
    obtain ⟨path, hpath⟩ := hl
    obtain ⟨k, hk, -⟩ := exists_key hpath
    exact hI.live (hK.has hk)
  distinct hl hl' := by
    obtain ⟨k, hk, rfl⟩ := exists_key hl
    obtain ⟨k', hk', rfl⟩ := exists_key hl'
    rw [(hI.inj (hK.has hk) (hK.has hk')).2]

/-! ## What is discarded -/

theorem mem_discardsOf (hI : c.IndexInv) (hK : c.TrieKeys) {t : CacheType} {e : Discard} :
    e ∈ c.discardsOf t ↔ ∃ k, c.Has t k e.cell ∧ (e.whole ↔ streamLength k ≤ 16) := by
  obtain ⟨l, whole⟩ := e
  rw [Cache.discardsOf, List.mem_append, List.mem_map, List.mem_map]
  constructor
  · rintro (⟨l, hl, ⟨⟩⟩ | ⟨l, hl, ⟨⟩⟩)
    · obtain ⟨k, hk⟩ := (hI.hashMap t).mem_values.mp hl
      obtain ⟨hv, hlen⟩ := hI.long hk
      exact ⟨k, by rwa [Cache.has_long hv (not_le.mpr hlen)],
        iff_of_false Bool.false_ne_true (not_le.mpr hlen)⟩
    · obtain ⟨path, hpath⟩ := TrieNode.mem_lists.mp hl
      obtain ⟨k, hk, -⟩ := exists_key hpath
      exact ⟨k, hK.has hk, iff_of_true rfl (hK t k l hk).2⟩
  · rintro ⟨k, hl, hw⟩
    obtain ⟨hv, -⟩ := id hl
    by_cases hlen : streamLength k ≤ 16
    · rw [Cache.has_short hv hlen] at hl
      exact .inr ⟨l, TrieNode.mem_lists.mpr ⟨_, hl⟩, by rw [show whole = true from hw.mpr hlen]⟩
    · rw [Cache.has_long hv hlen] at hl
      refine .inl ⟨l, (hI.hashMap t).mem_values.mpr ⟨k, hl⟩, ?_⟩
      rw [show whole = false from Bool.eq_false_iff.mpr fun h => hlen (hw.mp h)]

/-- **The lists of the cache are discarded**, those of short keys with their nodes. -/
theorem mem_discards (hI : c.IndexInv) (hK : c.TrieKeys) {e : Discard} :
    e ∈ c.discards ↔ ∃ t k, c.Has t k e.cell ∧ (e.whole ↔ streamLength k ≤ 16) := by
  rw [Cache.discards, List.mem_flatMap]
  constructor
  · rintro ⟨t, -, he⟩
    exact ⟨t, (mem_discardsOf hI hK).mp he⟩
  · rintro ⟨t, h⟩
    exact ⟨t, by cases t <;> decide, (mem_discardsOf hI hK).mpr h⟩

theorem nodup_discards (hI : c.IndexInv) (hK : c.TrieKeys) : c.discards.Nodup := by
  rw [Cache.discards, List.nodup_flatMap]
  constructor
  · intro t _
    rw [Cache.discardsOf, List.nodup_append']
    refine ⟨?_, ?_, ?_⟩
    · have hinj : ∀ {k k' l}, (c.hashMap t).Has k l → (c.hashMap t).Has k' l → k = k' := by
        intro k k' l hk hk'
        obtain ⟨hv, hlen⟩ := hI.long hk
        obtain ⟨hv', hlen'⟩ := hI.long hk'
        exact (hI.inj (by rwa [Cache.has_long hv (not_le.mpr hlen)])
          (by rwa [Cache.has_long hv' (not_le.mpr hlen')])).2
      exact ((hI.hashMap t).nodup_values hinj).map fun _ _ h => (Discard.mk.inj h).1
    · exact (hI.trieLists hK t).nodup_lists.map fun _ _ h => (Discard.mk.inj h).1
    · intro e he he'
      obtain ⟨l, -, rfl⟩ := List.mem_map.mp he
      obtain ⟨l', -, h⟩ := List.mem_map.mp he'
      cases h
  · have htypes : [CacheType.ipv4, .ipv6, .cname].Nodup := by decide
    refine htypes.imp fun {t t'} htt e he he' => htt ?_
    obtain ⟨k, hl, -⟩ := (mem_discardsOf hI hK).mp he
    obtain ⟨k', hl', -⟩ := (mem_discardsOf hI hK).mp he'
    exact (hI.inj hl hl').1

/-- Every discard finds its list. -/
theorem finds_of_mem_discards (hI : c.Inv S) (hK : c.TrieKeys) {e : Discard} (he : e ∈ c.discards) :
    ∃ ids, e.Finds c.heap ids := by
  obtain ⟨t, k, hl, -⟩ := (mem_discards hI.index hK).mp he
  obtain ⟨s, ids, hc⟩ := hI.chain hl
  have hlive := hI.index.live hl
  by_cases hw : e.whole
  · exact ⟨s :: ids, hlive, by rwa [if_pos hw]⟩
  · exact ⟨[], hlive, by rw [if_neg hw]⟩

/-- The zero node of a blocked domain is on the list of every type. -/
theorem Blocks.mem_chain {z : ℕ} {front : CacheType → List ℕ} (hB : Blocks c d z front)
    (hI : c.Inv S) (t : CacheType) : ∃ l ids, c.Has t d l ∧ c.heap.Chain l ids ∧ z ∈ ids := by
  obtain ⟨n, hn, -⟩ := hB.zero
  obtain ⟨l, list, hl, hlist, hfront⟩ := hB.list t
  obtain ⟨s, ids, hc⟩ := hI.chain hl
  obtain ⟨list', hlist', hpath, -⟩ := id hc
  obtain rfl := Option.some.inj (hlist.symm.trans hlist')
  obtain ⟨v, hv⟩ := hI.heap.ends (Heap.isSome_of_info hn)
  refine ⟨l, s :: ids, hl, hc, ?_⟩
  rw [hpath.unique (LinkPath.append_iff.mpr ⟨_, hfront, hv⟩)]
  exact List.mem_append_right _ (List.mem_of_mem_head? hv.eq_head?.symm)

/-- What the teardown needs of the cache after a load and a run. -/
theorem Cache.Run.teardown (hrun : c₀.Run log c) (hload : readHostsFile Cache.init file = .ok c₀) :
    (∃ S, c.Inv S) ∧ c.TrieKeys ∧ (∃ cls, ClassInv (classOf (hostsEntries file)) cls c) ∧
      ∀ d, IsBlocked file d → ∃ z front, Blocks c d z front := by
  obtain ⟨S, cls, hL⟩ := (readHostsFile_loaded hload).load
  obtain ⟨cls', hC, -⟩ := hrun.classes hL.inv hL.cls
  exact ⟨⟨S, hrun.inv hL.inv⟩, hrun.trieKeys (readHostsFile_trieKeys hload), ⟨cls', hC⟩,
    fun d hd => (hrun.blocks hL.inv ((readHostsFile_zeroed hload hd).blocks hL)).2⟩

/-- **Two discards meet** exactly when the hosts file blocks a domain that stands in a trie. -/
theorem discards_separate (hI : c.Inv S) (hK : c.TrieKeys)
    (hC : ClassInv (classOf (hostsEntries file)) cls c)
    (hB : ∀ d, IsBlocked file d → ∃ z front, Blocks c d z front) {nodes : Discard → List ℕ}
    (hf : ∀ e ∈ c.discards, e.Finds c.heap (nodes e)) :
    (c.discards.Pairwise fun e e' => e'.cell ≠ e.cell ∧ (nodes e').Disjoint (nodes e)) ↔
      ∀ d, IsBlocked file d → 16 < streamLength d := by
  constructor
  · intro hp d hd
    by_contra hlen
    rw [not_lt] at hlen
    obtain ⟨z, front, hB⟩ := hB d hd
    -- the lists of two types have the zero node
    have hlist : ∀ t, ∃ l, c.Has t d l ∧ (⟨l, true⟩ : Discard) ∈ c.discards ∧
        z ∈ nodes ⟨l, true⟩ := by
      intro t
      obtain ⟨l, ids, hl, hc, hz⟩ := hB.mem_chain hI t
      have he : (⟨l, true⟩ : Discard) ∈ c.discards :=
        (mem_discards hI.index hK).mpr ⟨t, d, hl, iff_of_true rfl hlen⟩
      have hn := (hf _ he).nodes
      rw [if_pos rfl] at hn
      exact ⟨l, hl, he, hn.unique hc ▸ hz⟩
    obtain ⟨l, hl, he, hz⟩ := hlist .ipv4
    obtain ⟨l', hl', he', hz'⟩ := hlist .ipv6
    have hne : (⟨l, true⟩ : Discard) ≠ ⟨l', true⟩ := by
      intro h
      obtain rfl := (Discard.mk.inj h).1
      cases (hI.index.inj hl hl').1
    have : Std.Symm fun e e' : Discard => e'.cell ≠ e.cell ∧ (nodes e').Disjoint (nodes e) :=
      ⟨fun _ _ h => ⟨h.1.symm, List.disjoint_symm h.2⟩⟩
    exact (hp.forall he he' hne).2 hz' hz
  · intro hlong
    refine (nodup_discards hI.index hK).pairwise_of_forall_ne fun e he e' he' hne => ?_
    obtain ⟨t, k, hl, hw⟩ := (mem_discards hI.index hK).mp he
    obtain ⟨t', k', hl', hw'⟩ := (mem_discards hI.index hK).mp he'
    have hcell : e'.cell ≠ e.cell := by
      intro h
      obtain ⟨rfl, rfl⟩ := hI.index.inj hl (h ▸ hl')
      obtain ⟨l, whole⟩ := e
      obtain ⟨l', whole'⟩ := e'
      exact hne (congr (congrArg Discard.mk h.symm) (Bool.eq_iff_iff.mpr (hw.trans hw'.symm)))
    refine ⟨hcell, fun x hx' hx => ?_⟩
    have hn := (hf e he).nodes
    have hn' := (hf e' he').nodes
    split_ifs at hn hn' with hwhole hwhole'
    · -- a node of both is in both their classes
      have hcls : classOf (hostsEntries file) t' k' = classOf (hostsEntries file) t k :=
        (hC.mem_chain hl' hn' x hx').symm.trans (hC.mem_chain hl hn x hx)
      obtain ⟨ht, rfl⟩ := Prod.mk.inj hcls
      by_cases hz : (zeroAddr, k') ∈ hostsEntries file
      · exact absurd (hw.mp hwhole) (not_le.mpr (hlong k' ⟨hz, hl.1⟩))
      · rw [if_neg hz, if_neg hz] at ht
        obtain rfl := Option.some.inj ht
        exact hcell (hI.index.has_unique hl' hl)
    · rw [hn'] at hx'
      cases hx'
    · rw [hn] at hx
      cases hx
    · rw [hn] at hx
      cases hx

/-! ## The exit -/

variable {admits : Server → ℤ → List UInt8 → Prop} {s₀ s : Server} {sig : ℤ}

theorem Cache.Run.exits_iff (hrun : c₀.Run log c) (hload : readHostsFile Cache.init file = .ok c₀)
    (hsig : IsExitSignal sig) : (∃ h, exitHandler c sig = .ok (some h)) ↔
      ∀ d, IsBlocked file d → 16 < streamLength d := by
  obtain ⟨⟨S, hI⟩, hK, ⟨cls, hC⟩, hB⟩ := hrun.teardown hload
  choose! nodes hf using fun e he => finds_of_mem_discards hI hK (e := e) he
  rw [← discards_separate hI hK hC hB hf, ← discards_iff hf, exitHandler_eq _ hsig]
  refine exists_congr fun h => ?_
  rw [map_eq_ok]
  exact ⟨fun ⟨h', hr, e⟩ => Option.some.inj e ▸ hr, fun hr => ⟨h, hr, rfl⟩⟩

/-- **The program exits without a fault**, after any run, exactly when the hosts file blocks no
domain whose lists stand in the tries. -/
theorem exitHandler_iff (hload : readHostsFile Cache.init file = .ok s₀.cache)
    (hrun : s₀.Run admits s) (hsig : IsExitSignal sig) :
    (∃ h, exitHandler s.cache sig = .ok (some h)) ↔
      ∀ d, IsBlocked file d → 16 < streamLength d := by
  obtain ⟨log, hrun⟩ := hrun.cache
  exact hrun.exits_iff hload hsig

theorem exitHandler_iff_blocked : ∃ c₀, readHostsFile Cache.init blockedFile = .ok c₀ ∧
    ¬ ∃ h, exitHandler c₀ 0 = .ok (some h) := by
  obtain ⟨c₀, hload⟩ := @readHostsFile_ok blockedFile (by decide)
  refine ⟨c₀, hload, fun hexit => ?_⟩
  have hd : IsBlocked blockedFile (.ofBlock (ascii "a.b.")) := by
    unfold IsBlocked
    decide
  have hrun : (Server.init c₀).Run (fun _ _ _ => True) (.init c₀) := .start
  exact absurd ((exitHandler_iff hload hrun (.inl rfl)).mp hexit _ hd) (by decide)

/-- **What the exit leaves** is no list, and the nodes of no short key. -/
theorem exitHandler_leaves {h : Heap} (hload : readHostsFile Cache.init file = .ok s₀.cache)
    (hrun : s₀.Run admits s) (hexit : exitHandler s.cache sig = .ok (some h)) :
    (∀ l, h.list l = none) ∧ ∀ x, (h.node x).isSome ↔ (s.cache.heap.node x).isSome ∧
      ∀ t k l ids, s.cache.Has t k l → streamLength k ≤ 16 → s.cache.heap.Chain l ids →
        x ∉ ids := by
  have hsig : IsExitSignal sig := by
    by_contra hsig
    rw [exitHandler, if_neg hsig] at hexit
    cases hexit
  obtain ⟨log, hrun⟩ := hrun.cache
  obtain ⟨⟨S, hI⟩, hK, -⟩ := hrun.teardown hload
  choose! nodes hf using fun e he => finds_of_mem_discards hI hK (e := e) he
  rw [exitHandler_eq _ hsig] at hexit
  obtain ⟨h', hr, he⟩ := map_eq_ok.mp hexit
  obtain rfl := Option.some.inj he
  constructor
  · intro l
    rw [← Option.not_isSome_iff_eq_none, discards_list hr]
    rintro ⟨hlive, hno⟩
    obtain ⟨t, k, hl⟩ := hI.index.indexed hlive
    exact hno ⟨l, decide (streamLength k ≤ 16)⟩
      ((mem_discards hI.index hK).mpr ⟨t, k, hl, decide_eq_true_iff⟩) rfl
  · intro x
    rw [discards_node hr hf]
    refine and_congr Iff.rfl ⟨fun hno t k l ids hl hlen hc hx => ?_, fun hno e he hx => ?_⟩
    · have he : (⟨l, true⟩ : Discard) ∈ s.cache.discards :=
        (mem_discards hI.index hK).mpr ⟨t, k, hl, iff_of_true rfl hlen⟩
      have hn := (hf _ he).nodes
      rw [if_pos rfl] at hn
      exact hno _ he (hn.unique hc ▸ hx)
    · obtain ⟨t, k, hl, hw⟩ := (mem_discards hI.index hK).mp he
      have hn := (hf e he).nodes
      split_ifs at hn with hwhole
      · exact hno t k e.cell _ hl (hw.mp hwhole) hn hx
      · rw [hn] at hx
        cases hx

theorem exitHandler_leaves_address : ∃ c₀ h, readHostsFile Cache.init addressFile = .ok c₀ ∧
    exitHandler c₀ 0 = .ok (some h) ∧ ∀ l, h.list l = none := by
  obtain ⟨c₀, hload⟩ := @readHostsFile_ok addressFile (by decide)
  have hnone : ∀ e ∈ hostsEntries addressFile, e.1 ≠ zeroAddr := by decide
  have hsig : IsExitSignal 0 := .inl rfl
  obtain ⟨h, hexit⟩ := (Cache.Run.start.exits_iff hload hsig).mpr
    fun d hd => absurd rfl (hnone _ hd.1)
  have hrun : (Server.init c₀).Run (fun _ _ _ => True) (.init c₀) := .start
  exact ⟨c₀, h, hload, hexit, (exitHandler_leaves hload hrun hexit).1⟩

end Adrift
