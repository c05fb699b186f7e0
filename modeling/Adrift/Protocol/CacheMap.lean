import Adrift.Ds.ListUpdate
import Adrift.Lib.DomainName
import Adrift.Protocol.Cache

/-!
# The cache as a map

The abstract view of the cache: every type and key has a sequence of nodes. When no node is
pushed onto two lists, the heap of linked lists represents such a map, an insert appends to one
sequence, and an update filters one sequence.

## Main definitions

* `NodeMap`: the nodes of every type and key
* `Represents m c`: the cache `c` represents the map `m`
* `insertAll`, `nodesOf`: a sequence of inserts, and the nodes inserted under a type and a key
* `IsMap`: the cache answers every lookup with the nodes inserted

## Main results

* `Represents.insert`: an insert appends to the sequence of its type and key
* `Represents.update`: an update drops the expired nodes of one sequence
* `insertAll_represents`: the cache after inserts that succeed represents what was inserted
* `isMap_iff`: inserts are answered as a map when the keys of the hash map fit into their field
-/

namespace Adrift

open Outcome

/-- The nodes under every type and key. -/
abbrev NodeMap := CacheType → CString → List ℕ

/-- The map after an insert. -/
def NodeMap.insert (m : NodeMap) (t : CacheType) (k : CString) (p : ℕ) : NodeMap :=
  fun t' k' => if t' = t ∧ k' = k then m t' k' ++ [p] else m t' k'

/-- The map with one sequence filtered. -/
def NodeMap.filter (m : NodeMap) (t : CacheType) (k : CString) (keep : ℕ → Bool) : NodeMap :=
  fun t' k' => if t' = t ∧ k' = k then (m t' k').filter keep else m t' k'

/-- **The cache represents a map**: no node is in two lists, every tail ends its list, and the
list of a type and key consists of a head node and the nodes of the map. -/
structure Represents (m : NodeMap) (c : Cache) : Prop where
  index : c.IndexInv
  heap : c.heap.Inv ∅
  tail : ∀ {l}, (c.heap.list l).isSome → c.heap.TailLast l
  nodes : ∀ {t k l}, c.Has t k l → ∃ s, c.heap.Chain l (s :: m t k)
  absent : ∀ {t k}, (∀ l, ¬ c.Has t k l) → m t k = []

namespace Heap

variable {h : Heap} {l k t p : ℕ}

/-- Without shared nodes, the tail of one list is in no other. -/
theorem Inv.tail_notMem (hI : h.Inv ∅) (hl : h.TailLast l) {list : RecordList} {ids : List ℕ}
    (hlist : h.list l = some list) (ht : list.tail = some t) (hc : h.Chain k ids) (hkl : k ≠ l) :
    t ∉ ids := by
  obtain ⟨list', xs, t', hlist', ht', hc'⟩ := hl
  obtain rfl := Option.some.inj (hlist.symm.trans hlist')
  obtain rfl := Option.some.inj (ht.symm.trans ht')
  exact hI.disjoint hc' hc (fun _ _ => Set.notMem_empty _) hkl.symm (by simp)

end Heap

namespace Represents

variable {m : NodeMap} {c c' : Cache} {t : CacheType} {k : CString} {p : ℕ}

/-- The tail that a node is pushed behind is on no list of another type or key. -/
theorem tail_notMem (hR : Represents m c) {l τ : ℕ} (hi : Inserted c t k p l τ c')
    {t' : CacheType} {k' : CString} {l' : ℕ} {ids : List ℕ} (h : c.Has t' k' l')
    (hne : (t', k') ≠ (t, k)) (hc : c.heap.Chain l' ids) : τ ∉ ids := by
  intro hτ
  rcases hi.tail_cases with ⟨list, hl, hlist, htail⟩ | rfl
  · have hl₀ : c.heap.TailLast l := hR.tail (hR.index.live hl)
    exact hR.heap.tail_notMem hl₀ hlist htail hc (hi.ne hR.index h hne) hτ
  · obtain ⟨-, -, -, hlive⟩ := hc
    exact (Heap.lt_of_isSome (hlive _ hτ)).ne rfl

/-- **An insert appends to the sequence of its type and key**, and leaves the lists of the other
types and keys as they are. -/
theorem insert (hR : Represents m c) (hp : c.heap.Unlinked p) (hk : invalidKey k = false)
    (hr : cacheInsert c t k p = .ok c') :
    Represents (m.insert t k p) c' ∧
      (∃ l, ∀ t' k' l', c'.Has t' k' l' ↔
        c.Has t' k' l' ∧ (t', k') ≠ (t, k) ∨ t' = t ∧ k' = k ∧ l' = l) ∧
      (∀ {q}, c.heap.Unlinked q → q ≠ p → c'.heap.Unlinked q) ∧
      ∀ {t' k' l}, c.Has t' k' l → (t', k') ≠ (t, k) →
        c'.heap.list l = c.heap.list l ∧ ∀ {ids}, c.heap.Chain l ids → c'.heap.Chain l ids := by
  have hindex := cacheInsert_inv hR.index hr
  rcases cacheInsert_inserted hR.index hr with ⟨hv, -⟩ | ⟨-, l, τ, hi⟩
  · rw [hk] at hv
    cases hv
  obtain ⟨h₀, hpushed⟩ := hi.pushed
  -- the lists of other keys and types do not contain the tail that is extended
  have hchain : ∀ {t' k' l' ids}, c.Has t' k' l' → (t', k') ≠ (t, k) → c.heap.Chain l' ids →
      c'.heap.Chain l' ids := by
    intro t' k' l' ids h hne hc
    rw [hpushed.heap]
    exact (hpushed.base_chain hc).push_of_notMem hpushed.live (hR.tail_notMem hi h hne hc)
  -- the list of the key is extended by the node, or consists of it
  have hself : ∃ s, c'.heap.Chain l (s :: (m t k ++ [p])) := by
    rcases hi.target with ⟨list, hl, -⟩ | ⟨hn, -⟩
    · obtain ⟨s, hs⟩ := hR.nodes hl
      exact ⟨s, hi.chain_last hp hl (hR.tail (hR.index.live hl)) hs⟩
    · rw [hR.absent hn]
      exact ⟨τ, hi.fresh_chain hp hn⟩
  refine ⟨⟨hindex, hpushed.inv hR.heap hp, ?_, ?_, ?_⟩, ⟨l, hi.has⟩,
    fun hq hqp => hpushed.unlinked hq hqp,
    fun h hne => ⟨hi.list (hi.ne hR.index h hne), hchain h hne⟩⟩
  · intro l' hl'
    obtain ⟨t', k', h⟩ := hindex.indexed hl'
    by_cases he : (t', k') = (t, k)
    · obtain ⟨rfl, rfl⟩ := Prod.mk.inj he
      obtain rfl := hindex.has_unique hi.has_self h
      exact hi.tailLast hp fun l hl => hR.tail (hR.index.live hl)
    · have h := (hi.has_other he).mp h
      obtain ⟨list, ids, x, hlist, hx, hc⟩ := hR.tail (hR.index.live h)
      exact ⟨list, ids, x, (hi.list (hi.ne hR.index h he)).trans hlist, hx, hchain h he hc⟩
  · intro t' k' l' h
    by_cases he : (t', k') = (t, k)
    · obtain ⟨rfl, rfl⟩ := Prod.mk.inj he
      obtain rfl := hindex.has_unique hi.has_self h
      rw [NodeMap.insert, if_pos ⟨rfl, rfl⟩]
      exact hself
    · have h := (hi.has_other he).mp h
      obtain ⟨s, hs⟩ := hR.nodes h
      rw [NodeMap.insert, if_neg fun e => he (Prod.ext e.1 e.2)]
      exact ⟨s, hchain h he hs⟩
  · intro t' k' hn
    have he : (t', k') ≠ (t, k) := by
      intro he
      obtain ⟨rfl, rfl⟩ := Prod.mk.inj he
      exact hn l hi.has_self
    rw [NodeMap.insert, if_neg fun e => he (Prod.ext e.1 e.2)]
    exact hR.absent fun l' h => hn l' ((hi.has_other he).mpr h)

/-- A record allocated for the cache is fresh, and is not in the map yet. -/
theorem alloc (hR : Represents m c) {n : ListNode} (hn : n.next = none) (hd : n.data.isSome) :
    Represents m (c.withHeap (c.heap.allocNode n)) ∧
      (c.heap.allocNode n).Unlinked c.heap.nextNode := by
  refine ⟨⟨hR.index.withHeap fun _ => rfl, hR.heap.alloc hn hd, fun {l} hl => ?_,
    fun {t k l} hl => ?_, hR.absent⟩, hR.heap.unlinked_alloc hn hd⟩
  · obtain ⟨list, ids, t, hlist, ht, hc⟩ := hR.tail (l := l) hl
    exact ⟨list, ids, t, hlist, ht, hc.alloc hn⟩
  · obtain ⟨s, hs⟩ := hR.nodes (t := t) (k := k) (l := l) hl
    exact ⟨s, hs.alloc hn⟩

/-- **An update drops the expired nodes of one sequence**, and leaves the lists of the other types
and keys as they are. -/
theorem update (hR : Represents m c) {l : ℕ} (hl : c.Has t k l) {now : ℤ} {h' : Heap}
    {size : UInt64} (hr : listUpdate c.heap l now = .ok (h', size)) :
    Represents (m.filter t k (!c.heap.expiredAt now ·)) (c.withHeap h') ∧
      ∀ {t' k' l'}, c.Has t' k' l' → (t', k') ≠ (t, k) →
        h'.list l' = c.heap.list l' ∧ ∀ {ids}, c.heap.Chain l' ids → h'.Chain l' ids := by
  obtain ⟨s, hc⟩ := hR.nodes hl
  obtain ⟨hI', hc'⟩ := listUpdate_chain hR.heap hc hr
  -- no other key or type has the list that is updated
  have hother : ∀ {t' k' l'}, c.Has t' k' l' → (t', k') ≠ (t, k) → l' ≠ l := by
    rintro t' k' l' h hne rfl
    obtain ⟨rfl, rfl⟩ := hR.index.inj h hl
    exact hne rfl
  have hchain : ∀ {l' ids}, c.heap.Chain l' ids → l' ≠ l → h'.Chain l' ids := fun hk hne =>
    listUpdate_chain_of_disjoint hR.heap hc hr hk hne
      (hR.heap.disjoint hc hk (fun _ _ => Set.notMem_empty _) hne.symm)
  have hsome := listUpdate_isSome hR.heap hc hr
  refine ⟨⟨hR.index.withHeap hsome, hI',
    fun {k'} hk => ?_, fun {t' k' l'} h => ?_, fun {t' k'} hn => ?_⟩,
    fun h hne => ⟨listUpdate_list hR.heap hc hr (hother h hne), fun hk => hchain hk (hother h hne)⟩⟩
  · have hk₀ := hR.tail ((hsome k').symm.trans hk)
    by_cases hkl : k' = l
    · subst hkl
      exact listUpdate_keeps (P := fun h => h.TailLast k') hR.heap hc hr hk₀
        fun hP he => he.unlinks.tailLast hP
    · obtain ⟨list, ids, τ, hlist, hτ, hc₀⟩ := hk₀
      exact ⟨list, ids, τ, (listUpdate_list hR.heap hc hr hkl).trans hlist, hτ, hchain hc₀ hkl⟩
  · by_cases hne : t' = t ∧ k' = k
    · obtain ⟨rfl, rfl⟩ := hne
      obtain rfl : l' = l := hR.index.has_unique h hl
      refine ⟨s, ?_⟩
      have hs := hR.heap.head_not_expired hc now
      rw [List.filter_cons_of_pos (by simp [hs])] at hc'
      rwa [NodeMap.filter, if_pos ⟨rfl, rfl⟩]
    · obtain ⟨s', hs'⟩ := hR.nodes h
      rw [NodeMap.filter, if_neg hne]
      exact ⟨s', hchain hs' (hother h fun e => hne (Prod.mk.inj e))⟩
  · have := hR.absent hn
    simp only [NodeMap.filter, this, List.filter_nil, ite_self]

end Represents

/-! ## Sequences of inserts -/

/-- A call of `cache_insert`. -/
structure Insertion where
  cacheType : CacheType
  key : CString
  node : ℕ

/-- The calls `ops` of `cache_insert`, in order. -/
def insertAll (c : Cache) (ops : List Insertion) : Except Fault Cache :=
  ops.foldlM (fun c op => cacheInsert c op.cacheType op.key op.node) c

theorem insertAll_append (c : Cache) (ops : List Insertion) (op : Insertion) :
    insertAll c (ops ++ [op]) =
      insertAll c ops >>= fun c => cacheInsert c op.cacheType op.key op.node := by
  simp only [insertAll, List.foldlM_append, List.foldlM_cons, List.foldlM_nil, pure_eq_ok]
  refine congrArg (_ >>= ·) (funext fun c => ?_)
  cases cacheInsert c op.cacheType op.key op.node <;> rfl

/-- The nodes inserted under a type and a key, in order. -/
def nodesOf (ops : List Insertion) : NodeMap :=
  fun t k => (ops.filter fun op => op.cacheType = t ∧ op.key = k).map (·.node)

theorem nodesOf_append (ops : List Insertion) (op : Insertion) :
    nodesOf (ops ++ [op]) = (nodesOf ops).insert op.cacheType op.key op.node := by
  funext t k
  by_cases h : op.cacheType = t ∧ op.key = k
  · simp [nodesOf, NodeMap.insert, h]
  · have h' : ¬ (t = op.cacheType ∧ k = op.key) := fun e => h ⟨e.1.symm, e.2.symm⟩
    simp [nodesOf, NodeMap.insert, h, h']

/-- Nodes allocated by `list_node_ctor_with_info`, before any insert. -/
structure Heap.IsPool (h : Heap) : Prop where
  list : ∀ l, h.list l = none
  node : ∀ p n, h.node p = some n → n.data.isSome ∧ n.next = none ∧ n.prev = none

theorem Heap.IsPool.next {h : Heap} (hp : h.IsPool) (p : ℕ) : h.next p = none := by
  rw [Heap.next]
  cases hn : h.node p with
  | none => rfl
  | some n => exact (hp.node p n hn).2.1

theorem Heap.IsPool.info {h : Heap} (hp : h.IsPool) {p : ℕ} {n : ListNode}
    (hn : h.info p = some n) : n.data.isSome := by
  obtain ⟨m, hm, rfl⟩ := Heap.info_eq_some.mp hn
  exact (hp.node p m hm).1

theorem Heap.IsPool.inv {h : Heap} (hp : h.IsPool) : h.Inv ∅ where
  head hl := by simp [hp.list] at hl
  head_inj hl := by simp [hp.list] at hl
  ttl hn hd := by
    have := hp.info hn
    simp [hd] at this
  next hpq := by simp [hp.next] at hpq
  ends {p} _ := ⟨[p], rfl, hp.next p⟩
  pred hpq := by simp [hp.next] at hpq
  shared hx := hx.elim
  shared_lt hx := hx.elim
  tail_lt hl := by simp [hp.list] at hl

theorem Heap.IsPool.unlinked {h : Heap} (hp : h.IsPool) {p : ℕ} (hlive : (h.node p).isSome) :
    h.Unlinked p where
  data := by
    obtain ⟨n, hn⟩ := Option.isSome_iff_exists.mp hlive
    exact ⟨_, Heap.info_of_node hn, (hp.node p n hn).1⟩
  next := hp.next p
  pred x := by simp [hp.next]
  tail hl := by simp [hp.list] at hl

/-- Freshly constructed caches over allocated nodes. -/
def Cache.over (pool : Heap) : Cache := Cache.init.withHeap pool

theorem Cache.over_has (pool : Heap) {t : CacheType} {k : CString} {l : ℕ} :
    ¬ (Cache.over pool).Has t k l :=
  Cache.init_has t k l

theorem Cache.over_represents {pool : Heap} (hp : pool.IsPool) :
    Represents (fun _ _ => []) (Cache.over pool) where
  index := ⟨fun _ => hashMapCtor_inv, fun h => absurd h (hashMapCtor_has _ _),
    fun h => absurd h (Cache.over_has pool), fun hl => by simp [Cache.over, hp.list] at hl,
    fun h => absurd h (Cache.over_has pool)⟩
  heap := hp.inv
  tail hl := by simp [Cache.over, hp.list] at hl
  nodes h := absurd h (Cache.over_has pool)
  absent _ := rfl

/-- The dotted text of a domain name. -/
def IsNameText (k : CString) : Prop :=
  (∃ ls, (∀ l ∈ ls, DomainName.IsLabel l) ∧ k.octets = DomainName.text ls) ∧
    k.octets.length ≤ 254 ∧ ∀ c ∈ k.octets, 33 ≤ c.toNat ∧ c.toNat ≤ 126

theorem IsNameText.valid {k : CString} (hk : IsNameText k) : invalidKey k = false := by
  have hoct := hk.2.2
  obtain ⟨_ | ⟨c, cs⟩, hz⟩ := k
  · rfl
  · have hc := hoct c List.mem_cons_self
    apply List.any_eq_false.mpr
    intro _ _
    have h : ¬ (c.toNat < 33 ∨ 94 < (c.toNat : ℤ) - 33) := by omega
    simpa using h

theorem IsNameText.isTrieOctet {k : CString} (hk : IsNameText k) : ∀ c ∈ k.octets, IsTrieOctet c :=
  fun c hc => ⟨(hk.2.2 c hc).1, (hk.2.2 c hc).2.trans (by decide)⟩

/-- The nodes with a record. -/
def recordNodes (xs : List (ℕ × ListNode)) : List (ℕ × ListNode) := xs.filter (·.2.data.isSome)

/-- The record nodes of a list are those behind its head node. -/
theorem Heap.Inv.recordNodes {h : Heap} {S : Set ℕ} (hI : h.Inv S) {l s : ℕ} {ids : List ℕ}
    (hc : h.Chain l (s :: ids)) : (recordNodes (h.nodesAt (s :: ids))).map Prod.fst = ids := by
  obtain ⟨m, hm, hd⟩ := hI.head_info hc
  obtain ⟨n, hn, rfl⟩ := info_eq_some.mp hm
  have hrec : ∀ x ∈ h.nodesAt ids, x.2.data.isSome := fun x hx =>
    hI.data_of_mem hc (mem_nodesAt.mp hx).1 (mem_nodesAt.mp hx).2
  obtain ⟨list, -, -, hlive⟩ := hc
  have hcons : h.nodesAt (s :: ids) = (s, n) :: h.nodesAt ids := by
    rw [nodesAt, List.filterMap_cons_some (by rw [hn, Option.map_some])]
    rfl
  rw [Adrift.recordNodes, hcons, List.filter_cons_of_neg, List.filter_eq_self.mpr hrec]
  · exact nodesAt_fst fun i hi => hlive i (List.mem_cons_of_mem _ hi)
  · have hd : n.data = none := hd
    simp [hd]

/-- **A lookup returns the nodes `ps`**: no list where there are none, and otherwise a list with
exactly these nodes. -/
def Cache.Answers (c : Cache) (t : CacheType) (k : CString) (ps : List ℕ) : Prop :=
  ∃ r, cacheFind c t k = .ok r ∧ (ps = [] → r = none) ∧
    (ps ≠ [] → ∃ l xs, r = some l ∧ listNodes c.heap l = .ok xs ∧
      (recordNodes xs).map Prod.fst = ps)

/-- **The cache is a map**: the inserts `ops` succeed on fresh caches, and afterwards every lookup
returns what was inserted under its type and key. -/
def IsMap (pool : Heap) (ops : List Insertion) : Prop :=
  ∃ c, insertAll (Cache.over pool) ops = .ok c ∧
    ∀ t k, IsNameText k → c.Answers t k (nodesOf ops t k)

/-- Inserts that succeed leave a cache that represents them. -/
theorem insertAll_represents {pool : Heap} (hpool : pool.IsPool) {ops : List Insertion}
    (hkeys : ∀ op ∈ ops, IsNameText op.key) (hnodes : (ops.map (·.node)).Nodup)
    (hlive : ∀ op ∈ ops, (pool.node op.node).isSome) {c : Cache}
    (hr : insertAll (Cache.over pool) ops = .ok c) :
    Represents (nodesOf ops) c ∧ (∀ t k, (∃ l, c.Has t k l) ↔ nodesOf ops t k ≠ []) ∧
      ∀ {q}, (pool.node q).isSome → q ∉ ops.map (·.node) → c.heap.Unlinked q := by
  induction ops using List.reverseRecOn generalizing c with
  | nil =>
    obtain rfl : Cache.over pool = c := Except.ok.inj hr
    exact ⟨Cache.over_represents hpool, fun t k => by simp [nodesOf, Cache.over_has],
      fun hq _ => hpool.unlinked hq⟩
  | append_singleton ops op ih =>
    rw [insertAll_append] at hr
    obtain ⟨c₁, hr₁, hins⟩ := bind_eq_ok.mp hr
    rw [List.map_append, List.map_singleton] at hnodes ⊢
    have hnew : op.node ∉ ops.map (·.node) := fun hm =>
      (List.nodup_append.mp hnodes).2.2 _ hm _ (List.mem_singleton_self _) rfl
    obtain ⟨hR, hhas, hunl⟩ := ih (fun op h => hkeys op (List.mem_append_left _ h))
      (List.nodup_append.mp hnodes).1 (fun op h => hlive op (List.mem_append_left _ h)) hr₁
    have hop : op ∈ ops ++ [op] := by simp
    -- the next node was not inserted before, so it is still unlinked
    obtain ⟨hR', ⟨l, hl⟩, hunl', -⟩ := hR.insert (hunl (hlive op hop) hnew)
      (hkeys op hop).valid hins
    refine ⟨nodesOf_append ops op ▸ hR', fun t k => ?_, fun hq hqn => ?_⟩
    · simp only [nodesOf_append, NodeMap.insert, hl]
      by_cases h : t = op.cacheType ∧ k = op.key
      · simp [h]
      · have hne : ∀ l', ¬ (t = op.cacheType ∧ k = op.key ∧ l' = l) := fun _ e => h ⟨e.1, e.2.1⟩
        simp [h, ← hhas, hne]
    · rw [List.mem_append, List.mem_singleton, not_or] at hqn
      exact hunl' (hunl hq hqn.1) hqn.2

/-- **Inserts under safe keys succeed**. -/
theorem insertAll_ok {pool : Heap} (hpool : pool.IsPool) {ops : List Insertion}
    (hkeys : ∀ op ∈ ops, IsNameText op.key) (hnodes : (ops.map (·.node)).Nodup)
    (hlive : ∀ op ∈ ops, (pool.node op.node).isSome) (hsafe : ∀ op ∈ ops, KeySafe op.key) :
    ∃ c, insertAll (Cache.over pool) ops = .ok c := by
  induction ops using List.reverseRecOn with
  | nil => exact ⟨_, rfl⟩
  | append_singleton ops op ih =>
    have hop : op ∈ ops ++ [op] := by simp
    have hsub : ∀ {o}, o ∈ ops → o ∈ ops ++ [op] := List.mem_append_left _
    rw [List.map_append, List.map_singleton] at hnodes
    have hnew : op.node ∉ ops.map (·.node) := fun hm =>
      (List.nodup_append.mp hnodes).2.2 _ hm _ (List.mem_singleton_self _) rfl
    have hnodes := (List.nodup_append.mp hnodes).1
    obtain ⟨c₁, hr₁⟩ := ih (fun o h => hkeys o (hsub h)) hnodes (fun o h => hlive o (hsub h))
      fun o h => hsafe o (hsub h)
    obtain ⟨hR, -, hunl⟩ := insertAll_represents hpool (fun o h => hkeys o (hsub h)) hnodes
      (fun o h => hlive o (hsub h)) hr₁
    obtain ⟨c, hins⟩ := cacheInsert_ok (t := op.cacheType) hR.index (hsafe op hop)
      (hunl (hlive op hop) hnew).isSome fun l hl => (hR.tail (hR.index.live hl)).tailLive
    exact ⟨c, by rw [insertAll_append, hr₁, ok_bind, hins]⟩

/-- A cache that represents a map answers a safe lookup with the nodes of the map. -/
theorem Represents.answers {m : NodeMap} {c : Cache} (hR : Represents m c) {t : CacheType}
    {k : CString} (hk : c.LookupSafe t k) (hhas : (∃ l, c.Has t k l) ↔ m t k ≠ []) :
    c.Answers t k (m t k) := by
  obtain ⟨r, hr, hl⟩ := cacheFind_spec hR.index hk
  refine ⟨r, hr, fun h => ?_, fun h => ?_⟩
  · cases r with
    | none => rfl
    | some l => exact absurd h (hhas.mp ⟨l, (hl l).mp rfl⟩)
  · obtain ⟨l, hlk⟩ := hhas.mpr h
    obtain ⟨s, hc⟩ := hR.nodes hlk
    refine ⟨l, _, (hl l).mpr hlk, Heap.listNodes_eq_ok.mpr ⟨_, hc, rfl⟩, ?_⟩
    exact hR.heap.recordNodes hc

/-- **The cache is a map exactly when the keys of the hash map fit** into their field with a
terminator. -/
theorem isMap_iff {pool : Heap} (hpool : pool.IsPool) {ops : List Insertion}
    (hkeys : ∀ op ∈ ops, IsNameText op.key) (hnodes : (ops.map (·.node)).Nodup)
    (hlive : ∀ op ∈ ops, (pool.node op.node).isSome) :
    IsMap pool ops ↔
      ∀ op ∈ ops, 16 < op.key.octets.length → op.key.octets.length < ipv6AddrBufSize := by
  constructor
  · rintro ⟨c, hr, hc⟩ op hop hlong
    obtain ⟨hR, -, -⟩ := insertAll_represents hpool hkeys hnodes hlive hr
    -- a long key that was inserted is found, which only a key that fits into an entry is
    have hne : nodesOf ops op.cacheType op.key ≠ [] := by
      simp only [nodesOf, ne_eq, List.map_eq_nil_iff, List.filter_eq_nil_iff, not_forall]
      exact ⟨op, hop, by simp⟩
    obtain ⟨r, hf, -, hsome⟩ := hc op.cacheType op.key (hkeys op hop)
    obtain ⟨l, -, rfl, -⟩ := hsome hne
    have hsafe := (cacheFind_eq_some hR.index hf).2
    have hlen : ¬ streamLength op.key ≤ 16 := not_le.mpr hlong
    simp only [KeySafe, (hkeys op hop).valid, Bool.false_eq_true, false_or, if_neg hlen] at hsafe
    exact hsafe
  · intro hfit
    -- keys that fit neither fault when inserted nor when compared
    have hsafe : ∀ op ∈ ops, KeySafe op.key := by
      intro op hop
      refine .inr ?_
      split_ifs with hlen
      · exact (hkeys op hop).isTrieOctet
      · exact hfit op hop (not_le.mp hlen)
    obtain ⟨c, hr⟩ := insertAll_ok hpool hkeys hnodes hlive hsafe
    obtain ⟨hR, hhas, -⟩ := insertAll_represents hpool hkeys hnodes hlive hr
    refine ⟨c, hr, fun t k hk => hR.answers (hR.index.lookupSafe (fun _ => hk.isTrieOctet)
      fun {k' l} hl => ?_) (hhas t k)⟩
    have hne := (hhas t k').mp ⟨l, hl⟩
    simp only [nodesOf, ne_eq, List.map_eq_nil_iff, List.filter_eq_nil_iff, not_forall] at hne
    obtain ⟨op, hop, h⟩ := hne
    have h : op.cacheType = t ∧ op.key = k' := by simpa using h
    exact h.2 ▸ hsafe op hop

/-! ## Examples from the hosts file of the repository -/

theorem Heap.empty_isPool : Heap.empty.IsPool := ⟨fun _ => rfl, fun _ _ hn => by cases hn⟩

theorem Heap.IsPool.alloc {h : Heap} (hp : h.IsPool) (rr : DnsResourceRecord) (section_ : RrType)
    (recordTime ttl : ℤ) : (h.allocNode (.ofInfo rr section_ recordTime ttl)).IsPool where
  list := hp.list
  node p n hn := by
    rw [Heap.allocNode_node] at hn
    by_cases hpn : p = h.nextNode
    · rw [hpn, Function.update_self] at hn
      obtain rfl := Option.some.inj hn
      exact ⟨rfl, rfl, rfl⟩
    · rw [Function.update_of_ne hpn] at hn
      exact hp.node p n hn

/-- A short domain of `test/dnsrelay.txt`. -/
def shortDomain : CString := ⟨ascii "www.k163.com.", by decide⟩

/-- A domain of `test/dnsrelay.txt` with one octet more than the trie takes. -/
def mediumDomain : CString := ⟨ascii "www.homepage.com.", by decide⟩

/-- A domain of `test/dnsrelay.txt` that does not fit into the key field. -/
def longDomain : CString :=
  ⟨ascii "zhendeshi.tiebiechang-tiebiechangde.zuichang255zifu.domain-name.com.", by decide⟩

/-- Two nodes of one record. -/
def samplePool : Heap :=
  let rr : DnsResourceRecord := ⟨shortDomain, 1, 1, 180, 4, [0, 0, 0, 0], rfl⟩
  (Heap.empty.allocNode (.ofInfo rr .answer 0 0)).allocNode (.ofInfo rr .answer 0 0)

theorem samplePool_isPool : samplePool.IsPool :=
  (Heap.empty_isPool.alloc _ _ _ _).alloc _ _ _ _

theorem shortDomain_isNameText : IsNameText shortDomain :=
  ⟨⟨[ascii "www", ascii "k163", ascii "com"], by decide, by decide⟩,
    by decide, by decide⟩

theorem mediumDomain_isNameText : IsNameText mediumDomain :=
  ⟨⟨[ascii "www", ascii "homepage", ascii "com"], by decide, by decide⟩,
    by decide, by decide⟩

theorem longDomain_isNameText : IsNameText longDomain :=
  ⟨⟨[ascii "zhendeshi", ascii "tiebiechang-tiebiechangde", ascii "zuichang255zifu",
    ascii "domain-name", ascii "com"], by decide, by decide⟩,
    by decide, by decide⟩

/-- Names up to 45 octets are answered as a map. -/
theorem isMap_sample : IsMap samplePool [⟨.ipv4, shortDomain, 0⟩, ⟨.cname, mediumDomain, 1⟩] :=
  (isMap_iff samplePool_isPool (by simp [shortDomain_isNameText, mediumDomain_isNameText])
    (by decide) (by decide)).mpr (by decide)

/-- **A key longer than its field**: the insert writes past the entry. -/
theorem not_isMap_longDomain : samplePool.IsPool ∧ IsNameText longDomain ∧
    (samplePool.node 0).isSome ∧ ¬ IsMap samplePool [⟨.ipv4, longDomain, 0⟩] := by
  refine ⟨samplePool_isPool, longDomain_isNameText, rfl, ?_⟩
  rintro ⟨c, hr, -⟩
  have hfault : insertAll (Cache.over samplePool) [⟨.ipv4, longDomain, 0⟩] =
      .error .writePastKey := rfl
  cases hfault.symm.trans hr

end Adrift
