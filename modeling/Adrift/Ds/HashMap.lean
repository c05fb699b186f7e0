import Adrift.Ds.RecordList

/-!
# The hash map

`ds/hash_map.h`: buckets of entries with a fixed-size key field, chained by collision, and
relinked into a larger table when the load grows.

## Main definitions

* `HashMapEntry`, `HashMap`: the table
* `hashMapRehash`, `hashMapInsert`, `hashMapFind`, `hashMapShrink`: the operations
* `HashMap.Inv`: entries stand in the bucket of their hash, under distinct keys
* `HashMap.Has m k l`: the table holds the list `l` under the key `k`

## Main results

* `streamCompare_keyField`: comparing a key field finds its key, and faults only on a field
  without a terminator
* `hashMapRehash_has`: relinking keeps every key and its list
* `hashMapFind_spec`: a lookup finds what the table holds under a key that fits
* `hashMapInsert_cases`, `hashMapInsert_ok`: an insert pushes onto the list of the key, or onto
  the fresh list of a new entry
-/

namespace Adrift

open Outcome

/-- `IPV6_ADDR_BUF_SIZE`: the size of the key field. -/
def ipv6AddrBufSize : ℕ := 46

/-- `HASH_MAP_DEFAULT_CAPACITY`. -/
def hashMapDefaultCapacity : ℕ := 16

/-- `HASH_MAP_GROWTH_FACTOR`. -/
def hashMapGrowthFactor : ℕ := 2

/-- `HashMapEntry`, its `next` being the rest of the chain. -/
structure HashMapEntry where
  hash : UInt64
  key : List UInt8
  value : ℕ

/-- `HashMap`: the chain of every index, and the counters. -/
structure HashMap where
  table : ℕ → List HashMapEntry
  size : ℕ
  capacity : ℕ

/-- `hash_map_ctor`. -/
def hashMapCtor : HashMap := ⟨fun _ => [], 0, hashMapDefaultCapacity⟩

/-- `hash_map_entry_ctor`: the heap with the value list, and the entry. -/
def hashMapEntryCtor (h : Heap) (key : CString) : Except Fault (Heap × HashMapEntry) := do
  -- the zeros of the field terminate a key that does not fill it
  let field ← streamCopy (List.replicate ipv6AddrBufSize 0) key.octets
  let (h, value) := listCtor h
  return (h, ⟨hash key.octets, field, value⟩)

/-- `entry->hash % capacity`. -/
def bucket (hash : UInt64) (capacity : ℕ) : ℕ := hash.toNat % capacity

/-- One iteration of the inner loop of `hash_map_rehash`: the entry is pushed onto its new
chain. -/
def rehashEntry (capacity : ℕ) (table : ℕ → List HashMapEntry) (entry : HashMapEntry) :
    ℕ → List HashMapEntry :=
  Function.update table (bucket entry.hash capacity) (entry :: table (bucket entry.hash capacity))

/-- `hash_map_rehash`. -/
def hashMapRehash (m : HashMap) (capacity : ℕ) : HashMap where
  table := (List.range m.capacity).foldl
    (fun table i => (m.table i).foldl (rehashEntry capacity) table) fun _ => []
  size := m.size
  capacity := capacity

/-- The loop of `hash_map_insert` and `hash_map_find` over a chain. -/
def findEntry (hash : UInt64) (key : CString) :
    List HashMapEntry → Except Fault (Option HashMapEntry)
  | [] => .ok none
  | entry :: chain => do
    if entry.hash = hash then
      if (← streamCompare entry.key key.octets) = 0 then return some entry
    findEntry hash key chain

/-- `hash_map_insert`. The load test compares `size` with `0.75 * capacity`. -/
def hashMapInsert (h : Heap) (m : HashMap) (key : CString) (node : ℕ) :
    Except Fault (Heap × HashMap) := do
  let hash_ := hash key.octets
  let idx := bucket hash_ m.capacity
  match ← findEntry hash_ key (m.table idx) with
  | some entry =>
    let h ← listPushBack h entry.value node
    -- the table grows only with a new entry
    return (h, m)
  | none =>
    let (h, entry) ← hashMapEntryCtor h key
    let h ← listPushBack h entry.value node
    let m := { m with
      table := Function.update m.table idx (entry :: m.table idx)
      size := m.size + 1 }
    if 3 * m.capacity < 4 * m.size then
      return (h, hashMapRehash m (m.capacity * hashMapGrowthFactor))
    return (h, m)

/-- `hash_map_find`. -/
def hashMapFind (m : HashMap) (key : CString) : Except Fault (Option ℕ) := do
  let hash_ := hash key.octets
  let entry ← findEntry hash_ key (m.table (bucket hash_ m.capacity))
  return entry.map (·.value)

/-- `hash_map_entry_dtor` of the first entry of a chain: the entries behind it are freed first. The
nodes of the value lists are not freed. -/
def hashMapEntryDtor (h : Heap) : List HashMapEntry → Except Fault Heap
  | [] => .ok h
  | entry :: chain => do
    let h ← hashMapEntryDtor h chain
    let _ ← h.getList entry.value
    return h.freeList entry.value

/-- The inner loop of `hash_map_shrink`, over the rest of a chain, and the size of the table. -/
def shrinkChain (now : ℤ) :
    Heap → ℕ → List HashMapEntry → Except Fault (Heap × ℕ × List HashMapEntry)
  | h, size, [] => .ok (h, size, [])
  | h, size, entry :: chain => do
    let (h, left) ← listUpdate h entry.value now
    if left ≠ 0 then
      let (h, size, chain) ← shrinkChain now h size chain
      return (h, size, entry :: chain)
    -- the entry before is linked to the next one, which the destructor frees too
    let h ← hashMapEntryDtor h (entry :: chain)
    match chain with
    | [] => return (h, size - 1, [])
    | _ :: _ => throw .useAfterFree

/-- One iteration of the outer loop of `hash_map_shrink`. -/
def shrinkBucket (now : ℤ) (s : Heap × HashMap) (i : ℕ) : Except Fault (Heap × HashMap) := do
  let (h, m) := s
  let (h, size, chain) ← shrinkChain now h m.size (m.table i)
  return (h, { m with table := Function.update m.table i chain, size := size })

/-- `hash_map_shrink`. -/
def hashMapShrink (h : Heap) (m : HashMap) (now : ℤ) : Except Fault (Heap × HashMap) :=
  (List.range m.capacity).foldlM (shrinkBucket now) (h, m)

/-! ## Key fields -/

/-- The key field that `stream_copy` leaves for a key. -/
def keyField (k : CString) : List UInt8 :=
  k.octets ++ List.replicate (ipv6AddrBufSize - k.octets.length) 0

theorem streamCopy_replicate (n : ℕ) (src : List UInt8) :
    streamCopy (List.replicate n 0) src =
      if src.length ≤ n then .ok (src ++ List.replicate (n - src.length) 0)
      else .error .writePastKey := by
  induction src generalizing n with
  | nil => cases n <;> rfl
  | cons c src ih =>
    cases n with
    | zero => rfl
    | succ n =>
      rw [List.replicate_succ, streamCopy, ih]
      by_cases h : src.length ≤ n
      · simp [h]
      · simp [h]

/-- **The comparison of a padded key** is zero on the key itself, when the padding is not empty,
and on no other string. -/
theorem streamCompare_padded {a b : List UInt8} (ha : 0 ∉ a) (hb : 0 ∉ b) (n : ℕ) :
    streamCompare (a ++ List.replicate n 0) b = .ok 0 ↔ a = b ∧ 0 < n := by
  induction a generalizing b with
  | nil =>
    -- the first string has ended: only padding is left of the block
    cases n with
    | zero => simp [streamCompare]
    | succ n =>
      cases b with
      | nil => simp [streamCompare, List.replicate_succ]
      | cons d b =>
        simp only [List.mem_cons, not_or] at hb
        have hd : d.toNat ≠ 0 := fun e => hb.1 (UInt8.toNat_inj.mp e.symm)
        simp [streamCompare, List.replicate_succ]
        omega
  | cons c a ih =>
    simp only [List.mem_cons, not_or] at ha
    have hc : c.toNat ≠ 0 := fun e => ha.1 (UInt8.toNat_inj.mp e.symm)
    cases b with
    | nil => simp [streamCompare, hc]
    | cons d b =>
      simp only [List.mem_cons, not_or] at hb
      rw [List.cons_append, streamCompare]
      -- both go on: the octets decide, or the comparison continues behind them
      by_cases e : c = d
      · rw [if_pos ⟨Ne.symm ha.1, Ne.symm hb.1, e⟩, ih ha.2 hb.2]
        simp [e]
      · have hne : c.toNat ≠ d.toNat := fun h => e (UInt8.toNat_inj.mp h)
        rw [if_neg (by tauto)]
        simp [e]
        omega

/-- The comparison with a string shorter than the field stays in the field. -/
theorem streamCompare_ok {dst src : List UInt8} (h : src.length < dst.length) :
    ∃ v, streamCompare dst src = .ok v := by
  induction dst generalizing src with
  | nil => simp at h
  | cons d dst ih =>
    cases src with
    | nil => exact ⟨_, rfl⟩
    | cons s src =>
      rw [streamCompare]
      split_ifs
      · exact ih (by simpa using h)
      · exact ⟨_, rfl⟩

/-- The comparison with a terminated field stays in the field. -/
theorem streamCompare_padded_ok (a b : List UInt8) (n : ℕ) :
    ∃ v, streamCompare (a ++ List.replicate (n + 1) 0) b = .ok v := by
  induction a generalizing b with
  | nil =>
    cases b with
    | nil => exact ⟨_, rfl⟩
    | cons d b =>
      rw [List.nil_append, List.replicate_succ, streamCompare, if_neg (by simp)]
      exact ⟨_, rfl⟩
  | cons c a ih =>
    cases b with
    | nil => exact ⟨_, rfl⟩
    | cons d b =>
      rw [List.cons_append, streamCompare]
      split_ifs
      · exact ih b
      · exact ⟨_, rfl⟩

/-- The comparison of a full field with its own key leaves the field. -/
theorem streamCompare_self {a : List UInt8} (ha : 0 ∉ a) :
    streamCompare a a = .error .readPastKey := by
  induction a with
  | nil => rfl
  | cons c a ih =>
    simp only [List.mem_cons, not_or] at ha
    rw [streamCompare, if_pos ⟨Ne.symm ha.1, Ne.symm ha.1, rfl⟩, ih ha.2]

/-- The entry holds the key `k`. -/
structure HashMapEntry.Holds (e : HashMapEntry) (k : CString) : Prop where
  fits : k.octets.length ≤ ipv6AddrBufSize
  hash : e.hash = Adrift.hash k.octets
  key : e.key = keyField k

theorem streamCompare_keyField (k k' : CString) :
    streamCompare (keyField k) k'.octets = .ok 0 ↔
      k = k' ∧ k.octets.length < ipv6AddrBufSize := by
  rw [keyField, streamCompare_padded k.zero_notMem k'.zero_notMem, ← CString.ext_iff,
    Nat.sub_pos_iff_lt]

theorem keyField_length {k : CString} (hk : k.octets.length ≤ ipv6AddrBufSize) :
    (keyField k).length = ipv6AddrBufSize := by
  rw [keyField, List.length_append, List.length_replicate, Nat.add_sub_cancel' hk]

/-- A comparison stays in the field when the field or the key is short enough. -/
theorem streamCompare_keyField_ok {k k' : CString} (hk : k.octets.length ≤ ipv6AddrBufSize)
    (h : k'.octets.length < ipv6AddrBufSize ∨ k.octets.length < ipv6AddrBufSize) :
    ∃ v, streamCompare (keyField k) k'.octets = .ok v := by
  rcases h with h | h
  · exact streamCompare_ok (by rwa [keyField_length hk])
  · obtain ⟨n, hn⟩ : ∃ n, ipv6AddrBufSize - k.octets.length = n + 1 :=
      Nat.exists_eq_succ_of_ne_zero (Nat.sub_pos_of_lt h).ne'
    rw [keyField, hn]
    exact streamCompare_padded_ok ..

theorem keyField_injective {k k' : CString} (h : keyField k = keyField k') : k = k' := by
  have strip : ∀ {k : CString}, (keyField k).takeWhile (· ≠ 0) = k.octets := by
    intro k
    rw [keyField, List.takeWhile_append_of_pos fun c hc => by
      simpa using fun e : c = 0 => k.zero_notMem (e ▸ hc)]
    simp
  exact CString.ext (by rw [← strip (k := k), h, strip])

/-- The entry allocated for a key that fits into the field. -/
theorem hashMapEntryCtor_eq_ok {h h' : Heap} {k : CString} {e : HashMapEntry} :
    hashMapEntryCtor h k = .ok (h', e) ↔ k.octets.length ≤ ipv6AddrBufSize ∧
      h' = (listCtor h).1 ∧ e = ⟨hash k.octets, keyField k, (listCtor h).2⟩ := by
  rw [hashMapEntryCtor, streamCopy_replicate]
  by_cases hk : k.octets.length ≤ ipv6AddrBufSize
  · simp [hk, keyField, eq_comm]
  · simp [hk]

/-! ## The entries of the table -/

/-- **The invariant of a hash map**: every entry stands in the bucket of its hash and holds a
key, and the keys of a chain are distinct. -/
structure HashMap.Inv (m : HashMap) : Prop where
  capacity : 0 < m.capacity
  bucket : ∀ i, ∀ e ∈ m.table i, bucket e.hash m.capacity = i
  holds : ∀ i, ∀ e ∈ m.table i, ∃ k, e.Holds k
  distinct : ∀ i, ((m.table i).map (·.key)).Nodup

/-- The list `l` stands under the key `k`. -/
def HashMap.Has (m : HashMap) (k : CString) (l : ℕ) : Prop :=
  ∃ e ∈ m.table (Adrift.bucket (Adrift.hash k.octets) m.capacity), e.Holds k ∧ e.value = l

theorem hashMapCtor_inv : hashMapCtor.Inv where
  capacity := by decide
  bucket _ _ he := by cases he
  holds _ _ he := by cases he
  distinct _ := List.nodup_nil

theorem hashMapCtor_has (k : CString) (l : ℕ) : ¬ hashMapCtor.Has k l := by
  rintro ⟨e, he, -⟩
  cases he

theorem HashMapEntry.Holds.unique {e : HashMapEntry} {k k' : CString} (h : e.Holds k)
    (h' : e.Holds k') : k = k' :=
  keyField_injective (h.key.symm.trans h'.key)

/-- The entry of a key, wherever it stands. -/
theorem HashMap.Inv.has_of_mem {m : HashMap} (hm : m.Inv) {i : ℕ} {e : HashMapEntry}
    (he : e ∈ m.table i) {k : CString} (hk : e.Holds k) : m.Has k e.value := by
  have hi := hm.bucket i e he
  rw [hk.hash] at hi
  exact ⟨e, hi ▸ he, hk, rfl⟩

theorem HashMap.Inv.has_unique {m : HashMap} (hm : m.Inv) {k : CString} {l l' : ℕ}
    (h : m.Has k l) (h' : m.Has k l') : l = l' := by
  obtain ⟨e, he, hk, rfl⟩ := h
  obtain ⟨e', he', hk', rfl⟩ := h'
  rw [List.inj_on_of_nodup_map (hm.distinct _) he he' (hk.key.trans hk'.key.symm)]

/-! ## Relinking into a larger table -/

theorem foldl_rehashEntry (capacity : ℕ) (es : List HashMapEntry) (table : ℕ → List HashMapEntry)
    (i : ℕ) : es.foldl (rehashEntry capacity) table i =
      (es.filter fun e => bucket e.hash capacity = i).reverse ++ table i := by
  induction es generalizing table with
  | nil => rfl
  | cons e es ih =>
    rw [List.foldl_cons, ih]
    by_cases h : bucket e.hash capacity = i
    · subst h
      simp [rehashEntry]
    · simp [rehashEntry, h, Function.update_of_ne (Ne.symm h)]

theorem hashMapRehash_table (m : HashMap) (capacity i : ℕ) :
    (hashMapRehash m capacity).table i =
      (((List.range m.capacity).flatMap m.table).filter
        fun e => bucket e.hash capacity = i).reverse := by
  simp only [hashMapRehash, ← List.foldl_flatMap]
  rw [foldl_rehashEntry, List.append_nil]

/-- Relinking loses no entry and invents none. -/
theorem mem_hashMapRehash {m : HashMap} (hm : m.Inv) {capacity i : ℕ} {e : HashMapEntry} :
    e ∈ (hashMapRehash m capacity).table i ↔
      (∃ j, e ∈ m.table j) ∧ bucket e.hash capacity = i := by
  rw [hashMapRehash_table, List.mem_reverse, List.mem_filter, List.mem_flatMap]
  simp only [List.mem_range, decide_eq_true_eq]
  refine and_congr_left fun _ => ⟨fun ⟨j, _, h⟩ => ⟨j, h⟩, fun ⟨j, h⟩ => ⟨j, ?_, h⟩⟩
  rw [← hm.bucket j e h]
  exact Nat.mod_lt _ hm.capacity

/-- The keys of the whole table are distinct: equal keys have one hash, and stand in one
chain. -/
theorem HashMap.Inv.keys_nodup {m : HashMap} (hm : m.Inv) :
    (((List.range m.capacity).flatMap m.table).map (·.key)).Nodup := by
  rw [List.map_flatMap, List.nodup_flatMap]
  refine ⟨fun i _ => hm.distinct i, List.nodup_range.imp fun {i j} hij => ?_⟩
  rw [Function.onFun_apply, List.disjoint_left]
  intro key hi hj
  obtain ⟨e, he, rfl⟩ := List.mem_map.mp hi
  obtain ⟨e', he', hkey⟩ := List.mem_map.mp hj
  obtain ⟨k, hk⟩ := hm.holds i e he
  obtain ⟨k', hk'⟩ := hm.holds j e' he'
  obtain rfl : k' = k := keyField_injective (hk'.key.symm.trans (hkey.trans hk.key))
  refine hij ?_
  rw [← hm.bucket i e he, ← hm.bucket j e' he', hk.hash, hk'.hash]

theorem hashMapRehash_inv {m : HashMap} (hm : m.Inv) {capacity : ℕ} (hc : 0 < capacity) :
    (hashMapRehash m capacity).Inv where
  capacity := hc
  bucket _ _ he := ((mem_hashMapRehash hm).mp he).2
  holds _ e he := by
    obtain ⟨j, hj⟩ := ((mem_hashMapRehash hm).mp he).1
    exact hm.holds j e hj
  distinct i := by
    rw [hashMapRehash_table, List.map_reverse, List.nodup_reverse]
    exact hm.keys_nodup.sublist (List.filter_sublist.map _)

/-- **Relinking keeps every key and its list**. -/
theorem hashMapRehash_has {m : HashMap} (hm : m.Inv) (capacity : ℕ) (k : CString) (l : ℕ) :
    (hashMapRehash m capacity).Has k l ↔ m.Has k l := by
  constructor
  · rintro ⟨e, he, hk, rfl⟩
    obtain ⟨j, hj⟩ := ((mem_hashMapRehash hm).mp he).1
    exact hm.has_of_mem hj hk
  · rintro ⟨e, he, hk, rfl⟩
    exact ⟨e, (mem_hashMapRehash hm).mpr ⟨⟨_, he⟩, by rw [hk.hash]; rfl⟩, hk, rfl⟩

/-! ## Lookups -/

theorem findEntry_eq_some {key : CString} {chain : List HashMapEntry} {e : HashMapEntry}
    (hc : ∀ e ∈ chain, ∃ k, e.Holds k) (h : findEntry (hash key.octets) key chain = .ok (some e)) :
    e ∈ chain ∧ e.Holds key ∧ key.octets.length < ipv6AddrBufSize := by
  induction chain with
  | nil => simp [findEntry] at h
  | cons d chain ih =>
    have ih := fun h => (ih (fun e he => hc e (List.mem_cons_of_mem _ he)) h).imp_left
      (List.mem_cons_of_mem d)
    rw [findEntry] at h
    split_ifs at h with hd
    · obtain ⟨v, hv, h⟩ := bind_eq_ok.mp h
      split_ifs at h with h0
      · obtain rfl : d = e := by simpa using h
        obtain ⟨k, hk⟩ := hc d List.mem_cons_self
        rw [h0, hk.key, streamCompare_keyField] at hv
        exact ⟨List.mem_cons_self, hv.1 ▸ hk, hv.1 ▸ hv.2⟩
      · exact ih h
    · exact ih h

theorem findEntry_eq_none {key : CString} {chain : List HashMapEntry}
    (h : findEntry (hash key.octets) key chain = .ok none) : ∀ e ∈ chain, ¬ e.Holds key := by
  induction chain with
  | nil => simp
  | cons d chain ih =>
    rw [findEntry] at h
    rw [List.forall_mem_cons]
    split_ifs at h with hd
    · obtain ⟨v, hv, h⟩ := bind_eq_ok.mp h
      have h0 : v ≠ 0 := by
        rintro rfl
        simp at h
      rw [if_neg h0] at h
      refine ⟨fun hk => ?_, ih h⟩
      -- a full field faults, any other one compares as equal
      rcases hk.fits.lt_or_eq with hlt | heq
      · rw [hk.key, (streamCompare_keyField key key).mpr ⟨rfl, hlt⟩] at hv
        exact h0 (Except.ok.inj hv).symm
      · have : keyField key = key.octets := by simp [keyField, heq]
        rw [hk.key, this, streamCompare_self key.zero_notMem] at hv
        cases hv
    · exact ⟨fun hk => hd hk.hash, ih h⟩

/-- A lookup does not fault when the key or the keys it is compared with are shorter than the
field. -/
theorem findEntry_ok {key : CString} {chain : List HashMapEntry}
    (hc : ∀ e ∈ chain, ∃ k, e.Holds k ∧
      (key.octets.length < ipv6AddrBufSize ∨ k.octets.length < ipv6AddrBufSize)) :
    ∃ r, findEntry (hash key.octets) key chain = .ok r := by
  induction chain with
  | nil => exact ⟨none, rfl⟩
  | cons d chain ih =>
    have ih := ih fun e he => hc e (List.mem_cons_of_mem _ he)
    obtain ⟨k, hd, hk⟩ := hc d List.mem_cons_self
    obtain ⟨v, hv⟩ := streamCompare_keyField_ok hd.fits hk
    rw [← hd.key] at hv
    rw [findEntry, hv, ok_bind]
    split_ifs
    · exact ⟨some d, rfl⟩
    · exact ih
    · exact ih

/-- The keys of the table can be compared with `k`. -/
def HashMap.Comparable (m : HashMap) (k : CString) : Prop :=
  ∀ k' l, m.Has k' l →
    k.octets.length < ipv6AddrBufSize ∨ k'.octets.length < ipv6AddrBufSize

theorem HashMap.Comparable.find_ok {m : HashMap} (hm : m.Inv) {k : CString} (hk : m.Comparable k) :
    ∃ r, findEntry (Adrift.hash k.octets) k
      (m.table (Adrift.bucket (Adrift.hash k.octets) m.capacity)) = .ok r := by
  apply findEntry_ok
  intro e he
  obtain ⟨k', hk'⟩ := hm.holds _ e he
  exact ⟨k', hk', hk k' _ (hm.has_of_mem he hk')⟩

/-- **A lookup finds what the table holds**. -/
theorem hashMapFind_spec {m : HashMap} (hm : m.Inv) {k : CString} (hk : m.Comparable k) :
    ∃ r, hashMapFind m k = .ok r ∧ ∀ l, r = some l ↔ m.Has k l := by
  obtain ⟨r, hr⟩ := hk.find_ok hm
  refine ⟨r.map (·.value), by rw [hashMapFind, hr]; rfl, fun l => ?_⟩
  cases r with
  | none => exact iff_of_false (by simp) fun ⟨e, he, h, _⟩ => findEntry_eq_none hr e he h
  | some e =>
    obtain ⟨he, h, -⟩ := findEntry_eq_some (hm.holds _) hr
    simp only [Option.map_some, Option.some.injEq]
    exact ⟨fun hl => ⟨e, he, h, hl⟩, hm.has_unique ⟨e, he, h, rfl⟩⟩

theorem hashMapFind_eq_none {m : HashMap} {k : CString} (hf : hashMapFind m k = .ok none) (l : ℕ) :
    ¬ m.Has k l := by
  rintro ⟨e, he, h, -⟩
  obtain ⟨r, hr, hf⟩ := bind_eq_ok.mp hf
  cases r with
  | none => exact findEntry_eq_none hr e he h
  | some e => cases hf

/-- A lookup finds nothing under a key that does not leave room for its terminator. -/
theorem hashMapFind_ne_some {m : HashMap} (hm : m.Inv) {k : CString}
    (hk : ipv6AddrBufSize ≤ k.octets.length) (l : ℕ) : hashMapFind m k ≠ .ok (some l) := by
  intro h
  obtain ⟨r, hr, h⟩ := bind_eq_ok.mp h
  cases r with
  | none => simp at h
  | some e =>
    have := (findEntry_eq_some (hm.holds _) hr).2.2
    omega

/-! ## Inserts -/

/-- An entry put in front of the chain of its key. -/
def HashMap.push (m : HashMap) (e : HashMapEntry) : HashMap where
  table := Function.update m.table (Adrift.bucket e.hash m.capacity)
    (e :: m.table (Adrift.bucket e.hash m.capacity))
  size := m.size + 1
  capacity := m.capacity

theorem HashMap.mem_push {m : HashMap} {e d : HashMapEntry} {i : ℕ} :
    d ∈ (m.push e).table i ↔ d = e ∧ i = Adrift.bucket e.hash m.capacity ∨ d ∈ m.table i := by
  by_cases h : i = Adrift.bucket e.hash m.capacity
  · subst h
    simp [HashMap.push]
  · simp [HashMap.push, h]

theorem HashMap.push_inv {m : HashMap} (hm : m.Inv) {e : HashMapEntry} {k : CString}
    (he : e.Holds k) (hn : ∀ l, ¬ m.Has k l) : (m.push e).Inv where
  capacity := hm.capacity
  bucket i d hd := by
    rcases mem_push.mp hd with ⟨rfl, rfl⟩ | hd
    · rfl
    · exact hm.bucket i d hd
  holds i d hd := by
    rcases mem_push.mp hd with ⟨rfl, rfl⟩ | hd
    · exact ⟨k, he⟩
    · exact hm.holds i d hd
  distinct i := by
    by_cases h : i = Adrift.bucket e.hash m.capacity
    · subst h
      simp only [HashMap.push, Function.update_self, List.map_cons, List.nodup_cons, List.mem_map]
      refine ⟨?_, hm.distinct _⟩
      rintro ⟨d, hd, hkey⟩
      obtain ⟨k', hk'⟩ := hm.holds _ d hd
      obtain rfl : k' = k := keyField_injective (hk'.key.symm.trans (hkey.trans he.key))
      exact hn _ (hm.has_of_mem hd hk')
    · simp only [HashMap.push, Function.update_of_ne h]
      exact hm.distinct i

theorem HashMap.push_has {m : HashMap} {e : HashMapEntry} {k : CString} (he : e.Holds k)
    (k' : CString) (l : ℕ) : (m.push e).Has k' l ↔ m.Has k' l ∨ k' = k ∧ l = e.value := by
  constructor
  · rintro ⟨d, hd, hk', rfl⟩
    rcases mem_push.mp hd with ⟨rfl, -⟩ | hd
    · exact .inr ⟨hk'.unique he, rfl⟩
    · exact .inl ⟨d, hd, hk', rfl⟩
  · rintro (⟨d, hd, hk', rfl⟩ | ⟨rfl, rfl⟩)
    · exact ⟨d, mem_push.mpr (.inr hd), hk', rfl⟩
    · exact ⟨e, mem_push.mpr (.inl ⟨rfl, by rw [he.hash]; rfl⟩), he, rfl⟩

/-- The table after an entry is put in, relinked when its load is high. -/
def HashMap.grow (m : HashMap) : HashMap :=
  if 3 * m.capacity < 4 * m.size then hashMapRehash m (m.capacity * hashMapGrowthFactor) else m

theorem HashMap.grow_inv {m : HashMap} (hm : m.Inv) : m.grow.Inv := by
  unfold HashMap.grow
  split_ifs
  · exact hashMapRehash_inv hm (Nat.mul_pos hm.capacity (by decide))
  · exact hm

theorem HashMap.grow_has {m : HashMap} (hm : m.Inv) (k : CString) (l : ℕ) :
    m.grow.Has k l ↔ m.Has k l := by
  unfold HashMap.grow
  split_ifs
  · exact hashMapRehash_has hm _ k l
  · rfl

/-- The entry of a fresh key. -/
def freshEntry (h : Heap) (k : CString) : HashMapEntry :=
  ⟨hash k.octets, keyField k, (listCtor h).2⟩

/-- **What an insert does to the table**: nothing when the key has an entry, and otherwise a new
entry is put in front of its bucket, and the table may grow. -/
theorem hashMapInsert_eq_ok {h h' : Heap} {m m' : HashMap} {k : CString} {p : ℕ} (hm : m.Inv)
    (hr : hashMapInsert h m k p = .ok (h', m')) :
    (∃ l, m.Has k l ∧ listPushBack h l p = .ok h' ∧ m' = m ∧
        k.octets.length < ipv6AddrBufSize) ∨
      (∀ l, ¬ m.Has k l) ∧ listPushBack (listCtor h).1 (listCtor h).2 p = .ok h' ∧
        m' = (m.push (freshEntry h k)).grow ∧ (freshEntry h k).Holds k := by
  obtain ⟨r, hf, hr⟩ := bind_eq_ok.mp hr
  cases r with
  | some e =>
    obtain ⟨h₁, hp, hr⟩ := bind_eq_ok.mp hr
    obtain ⟨he, hk, hlt⟩ := findEntry_eq_some (hm.holds _) hf
    cases hr
    exact .inl ⟨e.value, ⟨e, he, hk, rfl⟩, hp, rfl, hlt⟩
  | none =>
    obtain ⟨⟨h₁, e⟩, hc, hr⟩ := bind_eq_ok.mp hr
    obtain ⟨hk, rfl, rfl⟩ := hashMapEntryCtor_eq_ok.mp hc
    obtain ⟨h₂, hp, hr⟩ := bind_eq_ok.mp hr
    have hg : (h₂, (m.push (freshEntry h k)).grow) = (h', m') :=
      Except.ok.inj <| by
        rw [← hr, HashMap.grow, apply_ite (Prod.mk h₂), apply_ite Except.ok]
        rfl
    cases hg
    exact .inr ⟨fun l ⟨e, he, hk, _⟩ => findEntry_eq_none hf e he hk, hp, rfl, hk, rfl, rfl⟩

/-- **What an insert does**: it pushes onto the list of the key, or onto a fresh one, and leaves
the other keys alone. -/
theorem hashMapInsert_cases {h h' : Heap} {m m' : HashMap} {k : CString} {p : ℕ} (hm : m.Inv)
    (hr : hashMapInsert h m k p = .ok (h', m')) :
    ∃ l, (∀ k' l', m'.Has k' l' ↔ m.Has k' l' ∧ k' ≠ k ∨ k' = k ∧ l' = l) ∧
      (m.Has k l ∧ listPushBack h l p = .ok h' ∨
        (∀ l, ¬ m.Has k l) ∧ l = (listCtor h).2 ∧
          listPushBack (listCtor h).1 l p = .ok h') ∧
      m'.Inv ∧ k.octets.length ≤ ipv6AddrBufSize := by
  rcases hashMapInsert_eq_ok hm hr with ⟨l, hl, hp, rfl, hlt⟩ | ⟨hn, hp, rfl, hholds⟩
  · refine ⟨l, fun k' l' => ?_, .inl ⟨hl, hp⟩, hm, hlt.le⟩
    by_cases hkk : k' = k
    · subst hkk
      simp only [ne_eq, not_true_eq_false, and_false, true_and, false_or]
      exact ⟨fun h => hm.has_unique h hl, fun h => h ▸ hl⟩
    · simp [hkk]
  · have hpush := HashMap.push_inv hm hholds hn
    refine ⟨_, fun k' l' => ?_, .inr ⟨hn, rfl, hp⟩, HashMap.grow_inv hpush, hholds.fits⟩
    -- growing moves entries between buckets, and keeps what is found
    rw [HashMap.grow_has hpush, HashMap.push_has hholds]
    by_cases hkk : k' = k
    · subst hkk
      simp [hn, freshEntry]
    · simp [hkk]

/-- **An insert succeeds** under a key shorter than the field when the push does. -/
theorem hashMapInsert_ok {h : Heap} {m : HashMap} {k : CString} {p : ℕ} (hm : m.Inv)
    (hk : k.octets.length < ipv6AddrBufSize)
    (hold : ∀ l, m.Has k l → ∃ h', listPushBack h l p = .ok h')
    (hnew : ∃ h', listPushBack (listCtor h).1 (listCtor h).2 p = .ok h') :
    ∃ h' m', hashMapInsert h m k p = .ok (h', m') := by
  obtain ⟨r, hf⟩ := HashMap.Comparable.find_ok hm (k := k) fun _ _ _ => .inl hk
  simp only [hashMapInsert, hf, ok_bind]
  cases r with
  | some e =>
    obtain ⟨he, hk, -⟩ := findEntry_eq_some (hm.holds _) hf
    obtain ⟨h', hp⟩ := hold e.value ⟨e, he, hk, rfl⟩
    exact ⟨h', m, by simp [hp]⟩
  | none =>
    obtain ⟨h', hp⟩ := hnew
    have hc := (hashMapEntryCtor_eq_ok (h := h)).mpr ⟨hk.le, rfl, rfl⟩
    simp only [hc, ok_bind, hp]
    split_ifs
    · exact ⟨h', _, rfl⟩
    · exact ⟨h', _, rfl⟩

end Adrift
