import Adrift.Ds.HashMap
import Adrift.Ds.ListPush
import Adrift.Ds.Trie

/-!
# The cache

`protocol/cache.c`: one trie and one hash map for each cache type, keys of at most 16 octets in
the trie and longer ones in the hash map.

## Main definitions

* `Cache`: the tries, the hash maps and the heap of their lists
* `cacheInsert`, `cacheFind`: the operations
* `Cache.Has c t k l`: the cache holds the list `l` under the type `t` and the key `k`
* `Cache.IndexInv`: different types and keys have different lists
* `KeySafe`, `Cache.LookupSafe`: the keys no operation, or no lookup, faults on

## Main results

* `cacheFind_spec`, `cacheFind_eq_some_iff`: a lookup finds what the cache holds
* `cacheInsert_cases`, `cacheInsert_ok`: an insert pushes onto the list of its type and key, and
  leaves the others alone
* `walk_inRange_iff`: the keys whose walk through the trie stays inside the children
-/

namespace Adrift

open Outcome

/-- `CacheType`. -/
inductive CacheType
  | ipv4 | ipv6 | cname
  deriving DecidableEq, Repr

/-- The globals of `cache.c`, with the heap their lists live in. -/
structure Cache where
  heap : Heap
  trie : CacheType → TrieNode
  hashMap : CacheType → HashMap

/-- The caches after `cache_ctor` for every cache type. -/
def Cache.init : Cache := ⟨.empty, fun _ => trieNodeCtor, fun _ => hashMapCtor⟩

/-- The guard of `cache_insert` and `cache_find`: a loop over the key that tests its first octet
in every iteration. -/
def invalidKey (key : CString) : Bool :=
  key.octets.any fun _ =>
    (key.octets.headD 0).toNat < 33 ∨ 94 < ((key.octets.headD 0).toNat : ℤ) - 33

/-- `cache_insert`. -/
def cacheInsert (c : Cache) (cacheType : CacheType) (key : CString) (node : ℕ) :
    Except Fault Cache :=
  if invalidKey key then .ok c
  else if streamLength key ≤ 16 then do
    let (heap, trie) ← trieInsert c.heap (c.trie cacheType) key node
    return { c with heap, trie := Function.update c.trie cacheType trie }
  else do
    let (heap, hashMap) ← hashMapInsert c.heap (c.hashMap cacheType) key node
    return { c with heap, hashMap := Function.update c.hashMap cacheType hashMap }

/-- `cache_find`. -/
def cacheFind (c : Cache) (cacheType : CacheType) (key : CString) :
    Except Fault (Option ℕ) :=
  if invalidKey key then .ok none
  else if streamLength key ≤ 16 then trieFind (c.trie cacheType) key
  else hashMapFind (c.hashMap cacheType) key

/-! ## What the cache holds -/

/-- The cache with another heap. -/
def Cache.withHeap (c : Cache) (heap : Heap) : Cache := { c with heap }

@[simp] theorem Cache.withHeap_heap (c : Cache) (heap : Heap) : (c.withHeap heap).heap = heap := rfl

/-- The list `l` stands under the type `t` and the key `k`. -/
def Cache.Has (c : Cache) (t : CacheType) (k : CString) (l : ℕ) : Prop :=
  invalidKey k = false ∧
    if streamLength k ≤ 16 then (c.trie t).Has k l else (c.hashMap t).Has k l

theorem Cache.has_short {c : Cache} {t : CacheType} {k : CString} (hv : invalidKey k = false)
    (hlen : streamLength k ≤ 16) : c.Has t k = (c.trie t).Has k := by
  funext l
  simp [Cache.Has, hv, hlen]

theorem Cache.has_long {c : Cache} {t : CacheType} {k : CString} (hv : invalidKey k = false)
    (hlen : ¬ streamLength k ≤ 16) : c.Has t k = (c.hashMap t).Has k := by
  funext l
  simp [Cache.Has, hv, hlen]

/-- **The keys no operation faults on**: keys that the guard drops, short keys of indexable
octets, and long keys that fit into the key field with their terminator. -/
def KeySafe (k : CString) : Prop :=
  invalidKey k = true ∨
    if streamLength k ≤ 16 then ∀ c ∈ k.octets, IsTrieOctet c else streamLength k < ipv6AddrBufSize

instance : DecidablePred KeySafe := fun k => by
  unfold KeySafe
  infer_instance

/-- **The lookups that do not fault**: under keys that the guard drops, short keys of indexable
octets, and long keys that can be compared with the keys in the hash map. -/
def Cache.LookupSafe (c : Cache) (t : CacheType) (k : CString) : Prop :=
  invalidKey k = true ∨
    if streamLength k ≤ 16 then ∀ c ∈ k.octets, IsTrieOctet c else (c.hashMap t).Comparable k

theorem KeySafe.lookupSafe {k : CString} (hk : KeySafe k) (c : Cache) (t : CacheType) :
    c.LookupSafe t k := by
  unfold KeySafe at hk
  unfold Cache.LookupSafe
  split_ifs at hk ⊢
  · exact hk
  · exact hk.imp id fun hk _ _ _ => .inl hk

/-- **The invariant of the index**: every list it holds is live, and stands under one type and
one key. -/
structure Cache.IndexInv (c : Cache) : Prop where
  hashMap : ∀ t, (c.hashMap t).Inv
  /-- The hash maps hold long keys that pass the guard. -/
  long : ∀ {t k l}, (c.hashMap t).Has k l → invalidKey k = false ∧ 16 < streamLength k
  live : ∀ {t k l}, c.Has t k l → (c.heap.list l).isSome
  indexed : ∀ {l}, (c.heap.list l).isSome → ∃ t k, c.Has t k l
  inj : ∀ {t k t' k' l}, c.Has t k l → c.Has t' k' l → t = t' ∧ k = k'

/-- A change of the heap that keeps its lists keeps the invariant of the index. -/
theorem Cache.IndexInv.withHeap {c : Cache} (hI : c.IndexInv) {heap : Heap}
    (hl : ∀ l, (heap.list l).isSome = (c.heap.list l).isSome) : (c.withHeap heap).IndexInv where
  hashMap := hI.hashMap
  long h := hI.long h
  live h := (hl _).trans (hI.live h)
  indexed h := hI.indexed ((hl _).symm.trans h)
  inj h h' := hI.inj h h'

theorem Cache.init_has (t : CacheType) (k : CString) (l : ℕ) : ¬ Cache.init.Has t k l := by
  rintro ⟨-, h⟩
  split_ifs at h
  · exact trieNodeCtor_has k l h
  · exact hashMapCtor_has k l h

theorem Cache.IndexInv.has_unique {c : Cache} (hI : c.IndexInv) {t : CacheType} {k : CString}
    {l l' : ℕ} (h : c.Has t k l) (h' : c.Has t k l') : l = l' := by
  obtain ⟨-, h⟩ := h
  obtain ⟨-, h'⟩ := h'
  split_ifs at h h'
  · exact Option.some.inj (Except.ok.inj (h.symm.trans h'))
  · exact (hI.hashMap t).has_unique h h'

/-- **A lookup finds what the cache holds**. -/
theorem cacheFind_spec {c : Cache} (hI : c.IndexInv) {t : CacheType} {k : CString}
    (hk : c.LookupSafe t k) : ∃ r, cacheFind c t k = .ok r ∧ ∀ l, r = some l ↔ c.Has t k l := by
  unfold cacheFind Cache.Has
  cases hv : invalidKey k with
  | true => exact ⟨none, rfl, fun l => by simp⟩
  | false =>
    simp only [Cache.LookupSafe, hv, Bool.false_eq_true, false_or] at hk
    simp only [Bool.false_eq_true, if_false, true_and]
    split_ifs at hk ⊢
    · exact trieFind_spec _ hk
    · exact hashMapFind_spec (hI.hashMap t) hk

/-- What a lookup finds stands under the key, and the key leaves room for its terminator. -/
theorem cacheFind_eq_some {c : Cache} (hI : c.IndexInv) {t : CacheType} {k : CString} {l : ℕ}
    (hf : cacheFind c t k = .ok (some l)) : c.Has t k l ∧ KeySafe k := by
  unfold cacheFind at hf
  unfold Cache.Has KeySafe
  split_ifs at hf with hv hlen
  · simp at hf
  · rw [if_pos hlen, if_pos hlen]
    exact ⟨⟨by simpa using hv, hf⟩, .inr (trieFind_octets hf)⟩
  · rw [if_neg hlen, if_neg hlen]
    have hk : streamLength k < ipv6AddrBufSize :=
      not_le.mp fun hk => hashMapFind_ne_some (hI.hashMap t) hk l hf
    obtain ⟨r, hr, hl⟩ := hashMapFind_spec (hI.hashMap t) (k := k) fun _ _ _ => .inl hk
    exact ⟨⟨by simpa using hv, (hl l).mp (Except.ok.inj (hr.symm.trans hf))⟩, .inr hk⟩

theorem cacheFind_eq_none {c : Cache} {t : CacheType} {k : CString}
    (hf : cacheFind c t k = .ok none) (l : ℕ) : ¬ c.Has t k l := by
  unfold cacheFind at hf
  rintro ⟨hv, h⟩
  rw [if_neg (Bool.eq_false_iff.mp hv)] at hf
  split_ifs at hf h with hlen
  · cases h.symm.trans hf
  · exact hashMapFind_eq_none hf l h

theorem cacheFind_eq_some_iff {c : Cache} (hI : c.IndexInv) {t : CacheType} {k : CString} {l : ℕ} :
    cacheFind c t k = .ok (some l) ↔ c.Has t k l ∧ KeySafe k := by
  refine ⟨cacheFind_eq_some hI, fun ⟨hl, hk⟩ => ?_⟩
  obtain ⟨r, hr, hr'⟩ := cacheFind_spec hI (hk.lookupSafe c t)
  rw [hr, (hr' l).mpr hl]

/-- A lookup is safe when the long keys in the cache are safe. -/
theorem Cache.IndexInv.lookupSafe {c : Cache} (hI : c.IndexInv) {t : CacheType} {k : CString}
    (hk : streamLength k ≤ 16 → ∀ c ∈ k.octets, IsTrieOctet c)
    (hc : ∀ {k' l}, c.Has t k' l → KeySafe k') : c.LookupSafe t k := by
  refine .inr ?_
  split_ifs with hlen
  · exact hk hlen
  · intro k' l h
    obtain ⟨hv, hlong⟩ := hI.long h
    have hlong := not_le.mpr hlong
    have := hc ⟨hv, by rwa [if_neg hlong]⟩
    simp only [KeySafe, hv, Bool.false_eq_true, false_or, if_neg hlong] at this
    exact .inr this

/-! ## Inserts -/

/-- **What an insert does**: nothing under a key that the guard drops; otherwise it pushes onto
the list of its type and key, and leaves the others alone. -/
theorem cacheInsert_cases {c c' : Cache} {t : CacheType} {k : CString} {p : ℕ} (hI : c.IndexInv)
    (hr : cacheInsert c t k p = .ok c') :
    invalidKey k = true ∧ c' = c ∨
    invalidKey k = false ∧ (∀ t, (c'.hashMap t).Inv) ∧
      (∀ t k l, (c'.hashMap t).Has k l → invalidKey k = false ∧ 16 < streamLength k) ∧
      ∃ l, PushedUnder c.heap (c.Has t k) p l c'.heap ∧
        ∀ t' k' l', c'.Has t' k' l' ↔ c.Has t' k' l' ∧ (t', k') ≠ (t, k) ∨
          t' = t ∧ k' = k ∧ l' = l := by
  unfold cacheInsert at hr
  split_ifs at hr with hv hlen
  · exact .inl ⟨hv, (Except.ok.inj hr).symm⟩
  all_goals
    have hv := Bool.eq_false_iff.mpr hv
    refine .inr ⟨hv, ?_⟩
    obtain ⟨⟨h', x⟩, hins, hr⟩ := bind_eq_ok.mp hr
    obtain rfl := Except.ok.inj hr
  · -- short keys: only the trie of the type changes
    obtain ⟨l, hhas, hpush, -⟩ := trieInsert_cases hins
    refine ⟨hI.hashMap, fun _ _ _ h => hI.long h, l, ?_, fun t' k' l' => ?_⟩
    · rw [Cache.has_short hv hlen]
      exact .of_or hpush
    · by_cases ht : t' = t
      · subst ht
        by_cases hk : streamLength k' ≤ 16
        · simp only [Cache.Has, if_pos hk, Function.update_self, hhas]
          by_cases hkk : k' = k <;> simp [hkk, hv]
        · have hkk : k' ≠ k := fun e => hk (e ▸ hlen)
          simp [Cache.Has, hk, hkk]
      · simp [Cache.Has, ht]
  · -- long keys: only the hash map of the type changes
    obtain ⟨l, hhas, hpush, hinv, -⟩ := hashMapInsert_cases (hI.hashMap t) hins
    refine ⟨fun t' => ?_, fun t' k' l' h => ?_, l, ?_, fun t' k' l' => ?_⟩
    · by_cases ht : t' = t
      · subst ht
        simpa using hinv
      · simpa [Function.update_of_ne ht] using hI.hashMap t'
    · by_cases ht : t' = t
      · subst ht
        simp only [Function.update_self, hhas] at h
        rcases h with ⟨h, -⟩ | ⟨rfl, -⟩
        · exact hI.long h
        · exact ⟨hv, not_le.mp hlen⟩
      · simp only [Function.update_of_ne ht] at h
        exact hI.long h
    · rw [Cache.has_long hv hlen]
      exact .of_or hpush
    · by_cases ht : t' = t
      · subst ht
        by_cases hk : streamLength k' ≤ 16
        · have hkk : k' ≠ k := fun e => hlen (e ▸ hk)
          simp [Cache.Has, hk, hkk]
        · simp only [Cache.Has, if_neg hk, Function.update_self, hhas]
          by_cases hkk : k' = k <;> simp [hkk, hv]
      · simp [Cache.Has, ht]

/-- Inserts keep the invariant of the index. -/
theorem cacheInsert_inv {c c' : Cache} {t : CacheType} {k : CString} {p : ℕ} (hI : c.IndexInv)
    (hr : cacheInsert c t k p = .ok c') : c'.IndexInv := by
  rcases cacheInsert_cases hI hr with ⟨-, rfl⟩ | ⟨-, hm, hlong, l, hp, hhas⟩
  · exact hI
  obtain ⟨h₀, τ, hpushed, hcase⟩ := hp.pushed
  -- the list of the key belongs to no other key
  have hl : ∀ {t' k'}, c.Has t' k' l → t' = t ∧ k' = k := by
    intro t' k' h
    rcases hcase with ⟨-, hl⟩ | ⟨-, rfl, -⟩
    · exact hI.inj h hl
    · have := hI.live h
      rw [c.heap.list_fresh _ le_rfl] at this
      cases this
  refine ⟨hm, fun h => hlong _ _ _ h, fun h => ?_, fun {l'} hl' => ?_, fun h h' => ?_⟩
  · refine (hpushed.list_isSome _).mpr ?_
    rcases (hhas _ _ _).mp h with ⟨h, -⟩ | ⟨-, -, hl⟩
    · exact .inl (hI.live h)
    · exact .inr hl
  · by_cases hll : l' = l
    · exact ⟨t, k, (hhas _ _ _).mpr (.inr ⟨rfl, rfl, hll⟩)⟩
    · obtain ⟨t', k', h⟩ := hI.indexed (((hpushed.list_isSome _).mp hl').resolve_right hll)
      refine ⟨t', k', (hhas _ _ _).mpr (.inl ⟨h, fun e => hll ?_⟩)⟩
      obtain ⟨rfl, rfl⟩ := Prod.mk.inj e
      rcases hcase with ⟨-, hl⟩ | ⟨-, -, hn⟩
      · exact hI.has_unique h hl
      · exact absurd h (hn l')
  · rcases (hhas _ _ _).mp h with ⟨h, -⟩ | ⟨rfl, rfl, rfl⟩
    · rcases (hhas _ _ _).mp h' with ⟨h', -⟩ | ⟨rfl, rfl, rfl⟩
      · exact hI.inj h h'
      · exact hl h
    · rcases (hhas _ _ _).mp h' with ⟨h', -⟩ | ⟨rfl, rfl, -⟩
      · exact (hl h').imp Eq.symm Eq.symm
      · exact ⟨rfl, rfl⟩

/-- A list that the cache holds is not the next fresh one. -/
theorem Cache.IndexInv.ne_nextList {c : Cache} (hI : c.IndexInv) {t : CacheType} {k : CString}
    {l : ℕ} (h : c.Has t k l) : l ≠ c.heap.nextList := by
  rintro rfl
  have := hI.live h
  rw [c.heap.list_fresh _ le_rfl] at this
  cases this

/-- **What an insert under a key does**: the node `p` is put behind `τ`, the tail of the list `l`
of the type and key, or the head node of a fresh list. -/
structure Inserted (c : Cache) (t : CacheType) (k : CString) (p l τ : ℕ) (c' : Cache) : Prop where
  has : ∀ t' k' l', c'.Has t' k' l' ↔
    c.Has t' k' l' ∧ (t', k') ≠ (t, k) ∨ t' = t ∧ k' = k ∧ l' = l
  pushed : ∃ h₀, Pushed c.heap h₀ l τ p c'.heap
  /-- The other lists stay. -/
  list : ∀ {l'}, l' ≠ l → c'.heap.list l' = c.heap.list l'
  /-- The list of the key. -/
  target : (∃ list, c.Has t k l ∧ c.heap.list l = some list ∧ list.tail = some τ ∧
      c'.heap.list l = some { list with tail := some p, size := list.size + 1 }) ∨
    (∀ l, ¬ c.Has t k l) ∧ l = c.heap.nextList ∧ τ = c.heap.nextNode ∧
      c'.heap.list l = some ⟨some τ, some p, 1⟩

theorem cacheInsert_inserted {c c' : Cache} {t : CacheType} {k : CString} {p : ℕ}
    (hI : c.IndexInv) (hr : cacheInsert c t k p = .ok c') :
    invalidKey k = true ∧ c' = c ∨ invalidKey k = false ∧ ∃ l τ, Inserted c t k p l τ c' := by
  rcases cacheInsert_cases hI hr with h | ⟨hv, -, -, l, hp, hhas⟩
  · exact .inl h
  obtain ⟨h₀, τ, hpushed, hcase⟩ := hp.pushed
  obtain ⟨list, hlist, hτ⟩ := hpushed.tail
  refine .inr ⟨hv, l, τ, hhas, ⟨h₀, hpushed⟩, fun {l'} hne => ?_, ?_⟩
  · rw [hpushed.heap, Heap.pushedHeap_list, Function.update_of_ne hne]
    rcases hpushed.base with rfl | ⟨rfl, rfl, -⟩
    · rfl
    · rw [Heap.ctorHeap_list, Function.update_of_ne hne]
  · have hself : c'.heap.list l = some { list with tail := some p, size := list.size + 1 } := by
      rw [hpushed.heap, Heap.pushedHeap_list, Function.update_self, hlist, Option.map_some]
    rcases hcase with ⟨rfl, hl⟩ | ⟨rfl, rfl, hn⟩
    · exact .inl ⟨list, hl, hlist, hτ, hself⟩
    · rw [Heap.ctorHeap_list, Function.update_self] at hlist
      obtain rfl := Option.some.inj hlist
      exact .inr ⟨hn, rfl, (Option.some.inj hτ).symm, Option.some.inj hτ ▸ hself⟩

namespace Inserted

variable {c c' : Cache} {S : Set ℕ} {t : CacheType} {k : CString} {p l τ : ℕ}

theorem next (hi : Inserted c t k p l τ c') :
    c'.heap.next = Function.update c.heap.next τ (some p) := by
  obtain ⟨h₀, hp⟩ := hi.pushed
  exact hp.next

theorem info (hi : Inserted c t k p l τ c') {x : ℕ} {m : ListNode} (hm : c.heap.info x = some m) :
    c'.heap.info x = some m := by
  obtain ⟨h₀, hp⟩ := hi.pushed
  exact hp.info hm

theorem isSome (hi : Inserted c t k p l τ c') {x : ℕ} (hx : (c.heap.node x).isSome) :
    (c'.heap.node x).isSome := by
  obtain ⟨n, hn⟩ := Heap.exists_info hx
  exact Heap.isSome_of_info (hi.info hn)

/-- The lists of the other types and keys are other lists. -/
theorem ne (hi : Inserted c t k p l τ c') (hI : c.IndexInv) {t' : CacheType} {k' : CString}
    {l' : ℕ} (h : c.Has t' k' l') (hne : (t', k') ≠ (t, k)) : l' ≠ l := by
  rintro rfl
  rcases hi.target with ⟨list, hl, -⟩ | ⟨-, rfl, -⟩
  · obtain ⟨rfl, rfl⟩ := hI.inj h hl
    exact hne rfl
  · exact hI.ne_nextList h rfl

theorem has_self (hi : Inserted c t k p l τ c') : c'.Has t k l :=
  (hi.has _ _ _).mpr (.inr ⟨rfl, rfl, rfl⟩)

theorem has_other (hi : Inserted c t k p l τ c') {t' : CacheType} {k' : CString} {l' : ℕ}
    (hne : (t', k') ≠ (t, k)) : c'.Has t' k' l' ↔ c.Has t' k' l' := by
  rw [hi.has]
  have h : ¬ (t' = t ∧ k' = k ∧ l' = l) := fun e => hne (Prod.ext e.1 e.2.1)
  simp [hne, h]

/-- The node pushed behind is an old tail, or new. -/
theorem tail_cases (hi : Inserted c t k p l τ c') :
    (∃ list, c.Has t k l ∧ c.heap.list l = some list ∧ list.tail = some τ) ∨
      τ = c.heap.nextNode := by
  rcases hi.target with ⟨list, hl, hlist, hτ, -⟩ | ⟨-, -, hτ, -⟩
  · exact .inl ⟨list, hl, hlist, hτ⟩
  · exact .inr hτ

/-- An insert keeps what the cache holds. -/
theorem has_old (hi : Inserted c t k p l τ c') (hI : c.IndexInv) {t' : CacheType} {k' : CString}
    {l' : ℕ} (h : c.Has t' k' l') : c'.Has t' k' l' := by
  by_cases he : (t', k') = (t, k)
  · obtain ⟨rfl, rfl⟩ := Prod.mk.inj he
    rcases hi.target with ⟨list, hl, -⟩ | ⟨hn, -⟩
    · exact hI.has_unique h hl ▸ hi.has_self
    · exact absurd h (hn l')
  · exact (hi.has_other he).mpr h

/-- The node is the tail of its list. -/
theorem list_self (hi : Inserted c t k p l τ c') :
    ∃ list, c'.heap.list l = some list ∧ list.tail = some p := by
  rcases hi.target with ⟨list, -, -, -, hlist⟩ | ⟨-, -, -, hlist⟩
  · exact ⟨_, hlist, rfl⟩
  · exact ⟨_, hlist, rfl⟩

/-- The list made for a push has the node pushed behind its head. -/
theorem fresh_chain (hi : Inserted c t k p l τ c') (hp : c.heap.Unlinked p)
    (hn : ∀ l, ¬ c.Has t k l) : c'.heap.Chain l [τ, p] := by
  obtain ⟨h₀, hpushed⟩ := hi.pushed
  have hp₀ := hpushed.base_unlinked hp
  rcases hi.target with ⟨list, hl, -⟩ | ⟨-, rfl, rfl, -⟩
  · exact absurd hl (hn l)
  have hbase : h₀ = c.heap.ctorHeap := by
    rcases hpushed.base with rfl | ⟨h, -⟩
    · obtain ⟨list, hlist, -⟩ := hpushed.tail
      rw [Heap.list_fresh _ _ le_rfl] at hlist
      cases hlist
    · exact h
  subst hbase
  have hc : c.heap.ctorHeap.Chain c.heap.nextList ([] ++ [c.heap.nextNode]) :=
    Heap.ctorHeap_chain _
  rw [hpushed.heap]
  exact hc.push_last hp₀.isSome hp₀.next (hpushed.ne_of_unlinked hp)

/-- A push onto a list that its tail ends puts the node behind the others. -/
theorem chain_last (hi : Inserted c t k p l τ c') (hp : c.heap.Unlinked p) (hl : c.Has t k l)
    (hT : c.heap.TailLast l) {ids : List ℕ} (hc : c.heap.Chain l ids) :
    c'.heap.Chain l (ids ++ [p]) := by
  rcases hi.target with ⟨list, -, hlist, hτ, -⟩ | ⟨hn, -⟩
  · obtain ⟨h₀, hpushed⟩ := hi.pushed
    have hp₀ := hpushed.base_unlinked hp
    obtain ⟨list₀, xs, x, hlist₀, hx, hc₀⟩ := hT
    obtain rfl := Option.some.inj (hlist.symm.trans hlist₀)
    obtain rfl := Option.some.inj (hτ.symm.trans hx)
    obtain rfl := hc.unique hc₀
    rw [hpushed.heap, List.append_assoc]
    exact (hpushed.base_chain hc).push_last hp₀.isSome hp₀.next (hpushed.ne_of_unlinked hp)
  · exact absurd hl (hn l)

/-- **The tail ends the list** of the key afterwards. -/
theorem tailLast (hi : Inserted c t k p l τ c') (hp : c.heap.Unlinked p)
    (hT : ∀ l, c.Has t k l → c.heap.TailLast l) : c'.heap.TailLast l := by
  obtain ⟨list, hlist, htail⟩ := hi.list_self
  rcases hi.target with ⟨-, hl, -⟩ | ⟨hn, -⟩
  · obtain ⟨-, ids, x, -, -, hc⟩ := id (hT l hl)
    exact ⟨list, _, p, hlist, htail, hi.chain_last hp hl (hT l hl) hc⟩
  · exact ⟨list, [τ], p, hlist, htail, hi.fresh_chain hp hn⟩

/-- **The tails stay live** under every type and key. -/
theorem tailLive (hi : Inserted c t k p l τ c') (hI' : c'.IndexInv)
    (hp : (c.heap.node p).isSome) {t' : CacheType} {k' : CString}
    (ht : ∀ l, c.Has t' k' l → c.heap.TailLive l) {l' : ℕ} (h : c'.Has t' k' l') :
    c'.heap.TailLive l' := by
  obtain ⟨h₀, hpushed⟩ := hi.pushed
  refine hpushed.tailLive hp ?_
  by_cases he : (t', k') = (t, k)
  · obtain ⟨rfl, rfl⟩ := Prod.mk.inj he
    exact .inl (hI'.has_unique h hi.has_self)
  · exact .inr (ht _ ((hi.has_other he).mp h))

end Inserted

/-- **An insert succeeds** under a safe key whose list has a live tail. -/
theorem cacheInsert_ok {c : Cache} {t : CacheType} {k : CString} {p : ℕ} (hI : c.IndexInv)
    (hk : KeySafe k) (hp : (c.heap.node p).isSome)
    (ht : ∀ l, c.Has t k l → c.heap.TailLive l) : ∃ c', cacheInsert c t k p = .ok c' := by
  unfold cacheInsert
  split_ifs with hv hlen
  · exact ⟨c, rfl⟩
  all_goals
    have hv := Bool.eq_false_iff.mpr hv
    simp only [KeySafe, hv, hlen, Bool.false_eq_true, false_or, if_true, if_false] at hk
    have hnew := c.heap.ctorHeap_tailLive.push_ok (Heap.ctorHeap_isSome hp)
  · have hold : ∀ l, (c.trie t).Has k l → ∃ h', listPushBack c.heap l p = .ok h' :=
      fun l hl => (ht l ⟨hv, by rwa [if_pos hlen]⟩).push_ok hp
    obtain ⟨h', trie', hins⟩ := trieInsert_ok hk hold hnew
    exact ⟨_, by rw [hins]; rfl⟩
  · obtain ⟨h', m', hins⟩ := hashMapInsert_ok (h := c.heap) (hI.hashMap t) hk
      (fun l hl => (ht l ⟨hv, by rwa [if_neg hlen]⟩).push_ok hp) hnew
    exact ⟨_, by rw [hins]; rfl⟩

/-- The node is pushed onto a list that the cache holds, in the heap as it is. -/
theorem Inserted.pushed_old {c c' : Cache} {t : CacheType} {k : CString} {p l l' τ : ℕ}
    (hi : Inserted c t k p l τ c') (hI : c.IndexInv) (hl : c.Has t k l') :
    Pushed c.heap c.heap l τ p c'.heap := by
  obtain ⟨h₀, hpushed⟩ := hi.pushed
  rcases hpushed.base with rfl | ⟨-, hfresh, -⟩
  · exact hpushed
  · rcases hi.target with ⟨list, hl, -⟩ | ⟨hno, -⟩
    · exact absurd hfresh (hI.ne_nextList hl)
    · exact absurd hl (hno l')

/-- **An insert under a key with a list** changes no index. -/
theorem cacheInsert_index {c c' : Cache} {t : CacheType} {k : CString} {p l : ℕ} (hI : c.IndexInv)
    (hl : c.Has t k l) (hr : cacheInsert c t k p = .ok c') :
    c'.trie = c.trie ∧ c'.hashMap = c.hashMap := by
  obtain ⟨hv, hl⟩ := hl
  unfold cacheInsert at hr
  rw [if_neg (by simp [hv])] at hr
  split_ifs at hr hl with hlen
  · obtain ⟨⟨h', trie'⟩, hins, hr⟩ := bind_eq_ok.mp hr
    obtain rfl : trie' = c.trie t := trieInsertFrom_found hl hins
    cases hr
    exact ⟨Function.update_eq_self .., rfl⟩
  · obtain ⟨⟨h', m'⟩, hins, hr⟩ := bind_eq_ok.mp hr
    rcases hashMapInsert_eq_ok (hI.hashMap t) hins with ⟨-, -, -, rfl, -⟩ | ⟨hno, -⟩
    · cases hr
      exact ⟨rfl, Function.update_eq_self ..⟩
    · exact absurd hl (hno l)

/-- **An insert under an unsafe key** leaves a list that no lookup finds: the key was not found
before, and its lookup faults afterwards. -/
theorem cacheInsert_notSafe {c c' : Cache} {t : CacheType} {k : CString} {p : ℕ} (hI : c.IndexInv)
    (hk : ¬ KeySafe k) (hr : cacheInsert c t k p = .ok c') :
    cacheFind c t k = .ok none ∧ ∃ e, cacheFind c' t k = .error e := by
  have hv : invalidKey k = false := Bool.eq_false_iff.mpr fun hv => hk (.inl hv)
  have hhas : ∃ l, c'.Has t k l := by
    rcases cacheInsert_inserted hI hr with ⟨hinv, -⟩ | ⟨-, l, τ, hi⟩
    · cases hv.symm.trans hinv
    · exact ⟨l, hi.has_self⟩
  constructor
  · unfold cacheInsert at hr
    unfold cacheFind
    rw [if_neg (by simp [hv])] at hr ⊢
    split_ifs at hr ⊢ with hlen
    · obtain ⟨⟨h', trie'⟩, hins, -⟩ := bind_eq_ok.mp hr
      obtain ⟨l, -, -, hoctets⟩ := trieInsert_cases hins
      exact absurd (.inr (by rwa [if_pos hlen])) hk
    · obtain ⟨⟨h', m'⟩, hins, -⟩ := bind_eq_ok.mp hr
      have hfull : ¬ k.octets.length < ipv6AddrBufSize := fun h =>
        hk (.inr (by rwa [if_neg hlen]))
      -- an entry that is found has a key that fits
      obtain ⟨o, hf, -⟩ := bind_eq_ok.mp hins
      cases o with
      | some e => exact absurd (findEntry_eq_some ((hI.hashMap t).holds _) hf).2.2 hfull
      | none => rw [hashMapFind, hf]; rfl
  · obtain ⟨l, hl⟩ := hhas
    cases hf : cacheFind c' t k with
    | error e => exact ⟨e, rfl⟩
    | ok o =>
      cases o with
      | none => exact absurd hl (cacheFind_eq_none hf l)
      | some l' => exact absurd (cacheFind_eq_some (cacheInsert_inv hI hr) hf).2 hk

/-- An insert keeps the tails live under every type and key. -/
theorem cacheInsert_tailLive {c c' : Cache} {t : CacheType} {k : CString} {p : ℕ} (hI : c.IndexInv)
    (hr : cacheInsert c t k p = .ok c') (hp : (c.heap.node p).isSome) {t' : CacheType}
    {k' : CString} (ht : ∀ l, c.Has t' k' l → c.heap.TailLive l) {l' : ℕ} (h : c'.Has t' k' l') :
    c'.heap.TailLive l' := by
  rcases cacheInsert_inserted hI hr with ⟨-, rfl⟩ | ⟨-, l, τ, hi⟩
  · exact ht _ h
  · exact hi.tailLive (cacheInsert_inv hI hr) hp ht h

/-! ## The guard -/

/-- The guard of a key looks at its first octet only. -/
theorem invalidKey_eq_false {k : CString} :
    invalidKey k = false ↔ ∀ o, k.octets.head? = some o → IsTrieOctet o := by
  unfold invalidKey IsTrieOctet
  cases k.octets with
  | nil => simp
  | cons c cs =>
    rw [List.any_eq_false, List.head?_cons]
    simp only [List.headD_cons, Option.some.injEq, forall_eq']
    constructor
    · intro h
      have := of_decide_eq_false (Bool.eq_false_iff.mpr (h c List.mem_cons_self))
      omega
    · intro h o _
      refine Bool.eq_false_iff.mp (decide_eq_false ?_)
      omega

/-- **The walk of a key stays inside the children** exactly when the octets that the guard does
not look at have children. -/
theorem walk_inRange_iff (c : Cache) (t : CacheType) {k : CString} (hv : invalidKey k = false)
    (hlen : streamLength k ≤ 16) :
    ((∀ p, cacheInsert c t k p ≠ .error .childOutOfRange) ∧
        cacheFind c t k ≠ .error .childOutOfRange) ↔
      ∀ o ∈ k.octets.tail, IsTrieOctet o := by
  -- the first octet of a valid key has a child
  have hoctets : (∀ o ∈ k.octets, IsTrieOctet o) ↔ ∀ o ∈ k.octets.tail, IsTrieOctet o := by
    have hhead := invalidKey_eq_false.mp hv
    cases hk : k.octets with
    | nil => simp
    | cons o os =>
      rw [List.forall_mem_cons, List.tail_cons]
      exact and_iff_right (hhead o (by rw [hk, List.head?_cons]))
  rw [← hoctets]
  unfold cacheInsert cacheFind
  simp only [hv, Bool.false_eq_true, if_false, if_pos hlen, ne_eq, bind_eq_error, trieInsert,
    trieInsertFrom_childOutOfRange]
  constructor
  · rintro ⟨h, -⟩
    simpa using h 0
  · intro h
    refine ⟨fun p hp => ?_, fun hf => ?_⟩
    · simp only [List.mem_reverse, pure_eq_ok, reduceCtorEq, and_false, exists_false, or_false]
        at hp
      obtain ⟨o, ho, hn⟩ := hp
      exact hn (h o ho)
    · obtain ⟨r, hr, -⟩ := trieFind_spec (c.trie t) h
      rw [hr] at hf
      cases hf

theorem walk_inRange_host :
    ((∀ p, cacheInsert .init .ipv4 (.ofBlock [97, 46]) p ≠ .error .childOutOfRange) ∧
        cacheFind .init .ipv4 (.ofBlock [97, 46]) ≠ .error .childOutOfRange) ↔
      ∀ o ∈ (CString.ofBlock [97, 46]).octets.tail, IsTrieOctet o :=
  walk_inRange_iff .init .ipv4 (by decide) (by decide)

/-- A space behind the first octet passes the guard, and is the index -1. -/
theorem space_leaves_children :
    parseQname [3, 97, 32, 98, 0] = .ok ([97, 32, 98, 46], []) ∧
    invalidKey (.ofBlock [97, 32, 98, 46]) = false ∧
    streamLength (.ofBlock [97, 32, 98, 46]) ≤ 16 ∧
    cacheInsert .init .ipv4 (.ofBlock [97, 32, 98, 46]) 0 = .error .childOutOfRange :=
  ⟨by decide, by decide, by decide, rfl⟩

end Adrift
