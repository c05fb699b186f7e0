import Adrift.Ds.HashMap
import Adrift.Ds.ListPush
import Mathlib.Algebra.Group.Nat.Defs
import Mathlib.Data.List.Perm.Basic

/-!
# Runs of the hash map

What holds of a hash map after any inserts: the entries of its chains, taken together, are one
entry for every key, and relinking them into another table only changes their order.

## Main definitions

* `HashMap.entries`: the entries of all chains
* `HashMap.Run P h₀ h m`: the heap and the hash map after inserts of nodes that satisfy `P`
* `HashMap.WellFormed`: what an insert keeps

## Main results

* `hashMapRehash_perm`: relinking keeps the entries
* `hashMapFind_rehash`: and what is found under every key
* `HashMap.Run.wellFormed`: what holds after any inserts
* `hashMap_representation`: the state after any inserts, the next insert, and relinking it
-/

namespace Adrift

open Outcome

/-- The entries of all chains, bucket by bucket. -/
def HashMap.entries (m : HashMap) : List HashMapEntry := (List.range m.capacity).flatMap m.table

variable {m m' : HashMap} {h h' : Heap} {k : CString} {e : HashMapEntry} {p l : ℕ}

theorem HashMap.Inv.mem_entries (hm : m.Inv) : e ∈ m.entries ↔ ∃ i, e ∈ m.table i := by
  simp only [HashMap.entries, List.mem_flatMap, List.mem_range]
  refine ⟨fun ⟨i, _, h⟩ => ⟨i, h⟩, fun ⟨i, h⟩ => ⟨i, ?_, h⟩⟩
  rw [← hm.bucket i e h]
  exact Nat.mod_lt _ hm.capacity

theorem HashMap.Inv.entries_nodup (hm : m.Inv) : m.entries.Nodup :=
  List.Nodup.of_map _ hm.keys_nodup

/-- A new entry comes to the others. -/
theorem HashMap.push_perm (hm : m.Inv) (hk : e.Holds k) (hn : ∀ l, ¬ m.Has k l) :
    (m.push e).entries.Perm (e :: m.entries) := by
  have hpush := HashMap.push_inv hm hk hn
  have hnew : e ∉ m.entries := by
    intro he
    obtain ⟨i, hi⟩ := hm.mem_entries.mp he
    exact hn _ (hm.has_of_mem hi hk)
  -- without duplicates the members decide
  rw [List.perm_ext_iff_of_nodup hpush.entries_nodup (List.nodup_cons.mpr ⟨hnew, hm.entries_nodup⟩)]
  intro d
  rw [hpush.mem_entries, List.mem_cons, hm.mem_entries]
  simp only [HashMap.mem_push]
  constructor
  · rintro ⟨i, ⟨hd, -⟩ | hd⟩
    · exact .inl hd
    · exact .inr ⟨i, hd⟩
  · rintro (hd | ⟨i, hd⟩)
    · exact ⟨_, .inl ⟨hd, rfl⟩⟩
    · exact ⟨i, .inr hd⟩

/-- **Relinking keeps the entries**, in another order. -/
theorem hashMapRehash_perm (hm : m.Inv) {capacity : ℕ} (hc : 0 < capacity) :
    (hashMapRehash m capacity).entries.Perm m.entries := by
  have hrehash := hashMapRehash_inv hm hc
  rw [List.perm_ext_iff_of_nodup hrehash.entries_nodup hm.entries_nodup]
  intro d
  rw [hrehash.mem_entries, hm.mem_entries]
  simp only [mem_hashMapRehash hm]
  exact ⟨fun ⟨_, h, _⟩ => h, fun h => ⟨_, h, rfl⟩⟩

/-- Two hash maps with the same lists under a key find the same. -/
theorem hashMapFind_congr (hm : m.Inv) (hm' : m'.Inv) (hk : m.Comparable k) (hk' : m'.Comparable k)
    (hhas : ∀ l, m'.Has k l ↔ m.Has k l) : hashMapFind m' k = hashMapFind m k := by
  obtain ⟨r, hr, hrl⟩ := hashMapFind_spec hm hk
  obtain ⟨r', hr', hrl'⟩ := hashMapFind_spec hm' hk'
  rw [hr, hr', Except.ok.injEq]
  ext l
  rw [hrl', hrl, hhas]

/-- **Relinking keeps what is found** under every key that can be compared with the others. -/
theorem hashMapFind_rehash (hm : m.Inv) {capacity : ℕ} (hc : 0 < capacity) (hk : m.Comparable k) :
    hashMapFind (hashMapRehash m capacity) k = hashMapFind m k := by
  have hk' : (hashMapRehash m capacity).Comparable k := by
    intro k' l h
    exact hk k' l ((hashMapRehash_has hm capacity k' l).mp h)
  apply hashMapFind_congr hm (hashMapRehash_inv hm hc) hk hk'
  exact hashMapRehash_has hm capacity k

/-! ## Runs -/

/-- **What an insert keeps**: every entry stands in the bucket of its hash, and has the hash of its
key, which leaves room for its terminator; the keys are distinct and counted; and the capacity is a
power of two, and enough for the load. -/
structure HashMap.WellFormed (m : HashMap) : Prop where
  bucket : ∀ i, ∀ e ∈ m.table i, e.hash.toNat % m.capacity = i
  holds : ∀ e ∈ m.entries, ∃ k, e.Holds k ∧ k.octets.length < ipv6AddrBufSize
  distinct : (m.entries.map (·.key)).Nodup
  size : m.size = m.entries.length
  capacity : ∃ n, m.capacity = hashMapDefaultCapacity * 2 ^ n
  load : 4 * m.size ≤ 3 * m.capacity

namespace HashMap.WellFormed

theorem capacity_pos (hw : m.WellFormed) : 0 < m.capacity := by
  obtain ⟨n, hn⟩ := hw.capacity
  rw [hn]
  exact Nat.mul_pos (by decide) (Nat.two_pow_pos n)

/-- The entries stand in the table. -/
theorem mem_range (hw : m.WellFormed) {i : ℕ} (he : e ∈ m.table i) :
    i ∈ List.range m.capacity := by
  rw [← hw.bucket i e he, List.mem_range]
  exact Nat.mod_lt _ hw.capacity_pos

theorem mem_entries (hw : m.WellFormed) {i : ℕ} (he : e ∈ m.table i) : e ∈ m.entries :=
  List.mem_flatMap.mpr ⟨i, hw.mem_range he, he⟩

theorem inv (hw : m.WellFormed) : m.Inv where
  capacity := hw.capacity_pos
  bucket := hw.bucket
  holds _ e he := (hw.holds e (hw.mem_entries he)).imp fun _ h => h.1
  distinct i := by
    by_cases hi : i ∈ List.range m.capacity
    · refine hw.distinct.sublist (List.Sublist.map _ ?_)
      exact List.sublist_flatten_of_mem (List.mem_map_of_mem hi)
    · -- behind the table there is no entry
      have hnil : m.table i = [] := by
        apply List.eq_nil_iff_forall_not_mem.mpr
        intro e he
        exact hi (hw.mem_range he)
      rw [hnil]
      exact List.nodup_nil

/-- Every key can be compared with the keys of the table. -/
theorem comparable (hw : m.WellFormed) (k : CString) : m.Comparable k := by
  rintro k' l ⟨e, he, hk', -⟩
  obtain ⟨k₀, hk₀, hlt⟩ := hw.holds e (hw.mem_entries he)
  exact .inr (hk'.unique hk₀ ▸ hlt)

theorem ctor : hashMapCtor.WellFormed where
  bucket _ _ he := by cases he
  holds e he := by
    obtain ⟨i, -, he⟩ := List.mem_flatMap.mp he
    cases he
  distinct := by decide
  size := by decide
  capacity := ⟨0, rfl⟩
  load := by decide

/-- Relinking into a table that is large enough keeps the hash map well formed. -/
theorem rehash (hm : m.Inv) (hholds : ∀ e ∈ m.entries,
      ∃ k, e.Holds k ∧ k.octets.length < ipv6AddrBufSize) (hsize : m.size = m.entries.length)
    {n : ℕ} (hload : 4 * m.size ≤ 3 * (hashMapDefaultCapacity * 2 ^ n)) :
    (hashMapRehash m (hashMapDefaultCapacity * 2 ^ n)).WellFormed := by
  have hc : 0 < hashMapDefaultCapacity * 2 ^ n := Nat.mul_pos (by decide) (Nat.two_pow_pos n)
  have hrehash := hashMapRehash_inv hm hc
  have hperm := hashMapRehash_perm hm hc
  refine ⟨hrehash.bucket, fun e he => hholds e (hperm.mem_iff.mp he), hrehash.keys_nodup, ?_,
    ⟨n, rfl⟩, hload⟩
  rw [hperm.length_eq, ← hsize]
  rfl

/-- **A new entry keeps the hash map well formed**, relinked or not. -/
theorem push_grow (hw : m.WellFormed) (hk : e.Holds k) (hlt : k.octets.length < ipv6AddrBufSize)
    (hn : ∀ l, ¬ m.Has k l) : (m.push e).grow.WellFormed := by
  have hpush := HashMap.push_inv hw.inv hk hn
  have hperm := HashMap.push_perm hw.inv hk hn
  have hholds : ∀ d ∈ (m.push e).entries,
      ∃ k, d.Holds k ∧ k.octets.length < ipv6AddrBufSize := by
    intro d hd
    rcases List.mem_cons.mp (hperm.mem_iff.mp hd) with rfl | hd
    · exact ⟨k, hk, hlt⟩
    · exact hw.holds d hd
  have hsize : (m.push e).size = (m.push e).entries.length := by
    rw [hperm.length_eq, List.length_cons, ← hw.size]
    rfl
  obtain ⟨n, hcap⟩ := hw.capacity
  have hpushed : (m.push e).capacity = hashMapDefaultCapacity * 2 ^ n := hcap
  have hcount : (m.push e).size = m.size + 1 := rfl
  unfold HashMap.grow
  split_ifs with hload
  · -- a doubled table has room for an entry more
    have hdouble : (m.push e).capacity * hashMapGrowthFactor =
        hashMapDefaultCapacity * 2 ^ (n + 1) := by
      rw [hpushed, hashMapGrowthFactor, Nat.pow_succ, Nat.mul_assoc]
    rw [hdouble]
    refine rehash hpush hholds hsize ?_
    have hmin : 1 ≤ 2 ^ n := Nat.one_le_two_pow
    have hold := hw.load
    rw [hcap, hashMapDefaultCapacity] at hold
    rw [hcount, Nat.pow_succ, hashMapDefaultCapacity]
    omega
  · exact ⟨hpush.bucket, hholds, hpush.keys_nodup, hsize, ⟨n, hpushed⟩, not_lt.mp hload⟩

end HashMap.WellFormed

/-- **Inserts into a new hash map**, from the heap `h₀`, of nodes that satisfy `P`, with fresh nodes
allocated in between. -/
inductive HashMap.Run (P : Heap → ℕ → Prop) (h₀ : Heap) : Heap → HashMap → Prop
  | start : Run P h₀ h₀ hashMapCtor
  | nodeCtor {h : Heap} {m : HashMap} (data : DnsResourceRecord) (rrType : RrType)
      (recordTime ttl : ℤ) (hrun : Run P h₀ h m) :
      Run P h₀ (listNodeCtorWithInfo h data rrType recordTime ttl).1 m
  | insert {h h' : Heap} {m m' : HashMap} {k : CString} {p : ℕ} (hrun : Run P h₀ h m)
      (hk : k.octets.length < ipv6AddrBufSize) (hp : P h p)
      (hr : hashMapInsert h m k p = .ok (h', m')) : Run P h₀ h' m'

variable {P : Heap → ℕ → Prop} {h₀ : Heap}

/-- An insert into a well-formed hash map leaves a well-formed one. -/
theorem HashMap.WellFormed.insert (hw : m.WellFormed) (hk : k.octets.length < ipv6AddrBufSize)
    (hr : hashMapInsert h m k p = .ok (h', m')) : m'.WellFormed := by
  rcases hashMapInsert_eq_ok hw.inv hr with ⟨l, -, -, rfl, -⟩ | ⟨hn, -, rfl, hholds⟩
  · exact hw
  · exact hw.push_grow hholds hk hn

/-- **A hash map is well formed** after any inserts. -/
theorem HashMap.Run.wellFormed (hrun : HashMap.Run P h₀ h m) : m.WellFormed := by
  induction hrun with
  | start => exact .ctor
  | nodeCtor _ _ _ _ _ ih => exact ih
  | insert _ hk _ hr ih => exact ih.insert hk hr

/-- The tails of the value lists stay live, where the nodes inserted are. -/
theorem HashMap.Run.tailLive (hrun : HashMap.Run P h₀ h m) (hP : ∀ h p, P h p → (h.node p).isSome)
    (hl : m.Has k l) : h.TailLive l := by
  induction hrun generalizing k l with
  | start => exact absurd hl (hashMapCtor_has k l)
  | nodeCtor _ _ _ _ _ ih => exact (ih hl).alloc
  | insert hrun hk hp hr ih =>
    obtain ⟨l', hhas, hpush, -⟩ := hashMapInsert_cases hrun.wellFormed.inv hr
    obtain ⟨h₀, t, hpushed, -⟩ := (PushedUnder.of_or hpush).pushed
    -- the list pushed onto ends in the new node, and the other tails stay
    refine hpushed.tailLive (hP _ _ hp) ?_
    rcases (hhas _ _).mp hl with ⟨hl, -⟩ | ⟨-, hl⟩
    · exact .inr (ih hl)
    · exact .inl hl

/-- An insert leaves what is found under the other keys, and the key is found. -/
theorem hashMapFind_insert (hw : m.WellFormed) (hk : k.octets.length < ipv6AddrBufSize)
    (hr : hashMapInsert h m k p = .ok (h', m')) :
    (∀ k', k' ≠ k → hashMapFind m' k' = hashMapFind m k') ∧
      ∃ l, hashMapFind m' k = .ok (some l) := by
  have hw' := hw.insert hk hr
  obtain ⟨l, hhas, -⟩ := hashMapInsert_cases hw.inv hr
  constructor
  · intro k' hne
    apply hashMapFind_congr hw.inv hw'.inv (hw.comparable k') (hw'.comparable k')
    intro l'
    rw [hhas]
    simp [hne]
  · obtain ⟨r, hf, hrl⟩ := hashMapFind_spec hw'.inv (hw'.comparable k)
    rw [hf, (hrl l).mpr ((hhas k l).mpr (.inr ⟨rfl, rfl⟩))]
    exact ⟨l, rfl⟩

/-- **The representation of a hash map** after any inserts of live nodes under keys that leave room
for their terminator: it is well formed, every such insert succeeds, and leaves what is found under
the other keys; and relinking it into any table keeps its entries, with their value lists, and what
is found under every key. -/
theorem hashMap_representation (hrun : HashMap.Run (fun h p => (h.node p).isSome) h₀ h m) :
    m.WellFormed ∧
      (∀ k p, k.octets.length < ipv6AddrBufSize → (h.node p).isSome →
        ∃ h' m', hashMapInsert h m k p = .ok (h', m') ∧
          (∀ k', k' ≠ k → hashMapFind m' k' = hashMapFind m k') ∧
            ∃ l, hashMapFind m' k = .ok (some l)) ∧
      ∀ capacity, 0 < capacity → (hashMapRehash m capacity).entries.Perm m.entries ∧
        ∀ k, hashMapFind (hashMapRehash m capacity) k = hashMapFind m k := by
  have hw := hrun.wellFormed
  refine ⟨hw, fun k p hk hp => ?_, fun capacity hc => ?_⟩
  · -- the list of the key has a live tail, and so has a fresh one
    have hold : ∀ l, m.Has k l → ∃ h', listPushBack h l p = .ok h' := fun l hl =>
      (hrun.tailLive (fun _ _ hp => hp) hl).push_ok hp
    have hnew := h.ctorHeap_tailLive.push_ok (Heap.ctorHeap_isSome hp)
    obtain ⟨h', m', hr⟩ := hashMapInsert_ok hw.inv hk hold hnew
    exact ⟨h', m', hr, hashMapFind_insert hw hk hr⟩
  · exact ⟨hashMapRehash_perm hw.inv hc, fun k => hashMapFind_rehash hw.inv hc (hw.comparable k)⟩

/-- An address, as a key. -/
def firstAddress : CString := ⟨ascii "10.0.0.1", by decide⟩

/-- An address in the chain of the other one. -/
def collidingAddress : CString := ⟨ascii "10.0.0.12", by decide⟩

/-- More keys than a new hash map has room for. -/
def sampleKeys : List CString :=
  [firstAddress, collidingAddress, ⟨ascii "a", by decide⟩, ⟨ascii "b", by decide⟩,
    ⟨ascii "c", by decide⟩, ⟨ascii "d", by decide⟩, ⟨ascii "e", by decide⟩, ⟨ascii "f", by decide⟩,
    ⟨ascii "g", by decide⟩, ⟨ascii "h", by decide⟩, ⟨ascii "i", by decide⟩, ⟨ascii "j", by decide⟩,
    ⟨ascii "k", by decide⟩]

/-- A fresh node is inserted under a key. -/
def insertFresh (s : Heap × HashMap) (k : CString) : Except Fault (Heap × HashMap) :=
  let (h, p) := listNodeCtorWithInfo s.1 sampleRecord .answer 0 180
  hashMapInsert h s.2 k p

theorem HashMap.Run.insertFresh {ks : List CString}
    (hrun : HashMap.Run (fun h p => (h.node p).isSome) h₀ h m)
    (hks : ∀ k ∈ ks, k.octets.length < ipv6AddrBufSize)
    (hr : ks.foldlM insertFresh (h, m) = .ok (h', m')) :
    HashMap.Run (fun h p => (h.node p).isSome) h₀ h' m' := by
  induction ks generalizing h m with
  | nil =>
    cases hr
    exact hrun
  | cons k ks ih =>
    obtain ⟨⟨h₁, m₁⟩, hr₁, hr⟩ := bind_eq_ok.mp hr
    have hnode : ((listNodeCtorWithInfo h sampleRecord .answer 0 180).1.node h.nextNode).isSome :=
      by simp [listNodeCtorWithInfo, Heap.allocNode_node]
    have hinsert := (hrun.nodeCtor sampleRecord .answer 0 180).insert
      (hks k List.mem_cons_self) hnode hr₁
    exact ih hinsert (fun k hk => hks k (List.mem_cons_of_mem _ hk)) hr

theorem hashMap_representation_grown : ∃ h m,
    sampleKeys.foldlM insertFresh (Heap.empty, hashMapCtor) = .ok (h, m) ∧
      (m.capacity = 32 ∧ m.size = 13) ∧
        bucket (hash firstAddress.octets) 32 = bucket (hash collidingAddress.octets) 32 ∧
        m.WellFormed ∧
        (∀ k p, k.octets.length < ipv6AddrBufSize → (h.node p).isSome →
          ∃ h' m', hashMapInsert h m k p = .ok (h', m') ∧
            (∀ k', k' ≠ k → hashMapFind m' k' = hashMapFind m k') ∧
              ∃ l, hashMapFind m' k = .ok (some l)) ∧
        ∀ capacity, 0 < capacity → (hashMapRehash m capacity).entries.Perm m.entries ∧
          ∀ k, hashMapFind (hashMapRehash m capacity) k = hashMapFind m k := by
  have hsizes : (sampleKeys.foldlM insertFresh (Heap.empty, hashMapCtor)).toOption.map
      (fun r => (r.2.capacity, r.2.size)) = some (32, 13) := rfl
  cases hr : sampleKeys.foldlM insertFresh (Heap.empty, hashMapCtor) with
  | error e =>
    rw [hr] at hsizes
    cases hsizes
  | ok r =>
    obtain ⟨h, m⟩ := r
    rw [hr] at hsizes
    obtain ⟨hcapacity, hsize⟩ := Prod.mk.inj (Option.some.inj hsizes)
    have hrun := HashMap.Run.insertFresh .start (by decide) hr
    exact ⟨h, m, rfl, ⟨hcapacity, hsize⟩, rfl, hashMap_representation hrun⟩

end Adrift
