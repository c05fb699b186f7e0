import Adrift.Ds.ListUpdate
import Adrift.Protocol.Cache
import Mathlib.Data.Set.Insert

/-!
# The invariants of the cache

What inserts and updates keep whatever the history of the cache: the invariants of its index and
of its lists, and a classification of the nodes. A node gets the class of the type and key it is
inserted under, and the links and tails of the lists stay within their class.

## Main definitions

* `Cache.Inv S c`: the invariants of the index and of the lists, `S` being the shared nodes
* `ClassInv of cls c`: the lists stay within the classes `cls`, the list under `t` and `k` within
  the class `of t k`
* `Untouched t k c c'`: the list under `t` and `k` has the same nodes in `c'` as in `c`

## Main results

* `Cache.Inv.alloc`, `Cache.Inv.insert`, `Cache.Inv.update`: what the operations keep
* `ClassInv.alloc`, `ClassInv.insert`, `ClassInv.update`: the same for the classes
* `Inserted.untouched`: a push leaves the lists that do not have its tail
-/

namespace Adrift

open Outcome

variable {c c' : Cache} {S : Set ℕ} {t : CacheType} {k : CString} {l p : ℕ} {n : ListNode}

/-- **The invariant of the cache**. -/
structure Cache.Inv (S : Set ℕ) (c : Cache) : Prop where
  index : c.IndexInv
  heap : c.heap.Inv S

namespace Cache.Inv

theorem init : Inv ∅ Cache.init where
  index :=
    { hashMap := fun _ => hashMapCtor_inv
      long := fun h => absurd h (hashMapCtor_has _ _)
      live := fun h => absurd h (init_has _ _ _)
      indexed := fun h => by cases h
      inj := fun h => absurd h (init_has _ _ _) }
  heap := .empty

/-- Allocating a record keeps the invariant. -/
theorem alloc (hI : Inv S c) (hn : n.next = none) (hd : n.data.isSome) :
    Inv S (c.withHeap (c.heap.allocNode n)) :=
  ⟨hI.index.withHeap fun _ => rfl, hI.heap.alloc hn hd⟩

/-- **Inserting a fresh node keeps the invariant**. -/
theorem insert (hI : Inv S c) (hp : c.heap.Unlinked p) (hr : cacheInsert c t k p = .ok c') :
    Inv S c' := by
  refine ⟨cacheInsert_inv hI.index hr, ?_⟩
  rcases cacheInsert_cases hI.index hr with ⟨-, rfl⟩ | ⟨-, -, -, l, hpush, -⟩
  · exact hI.heap
  · obtain ⟨h₀, τ, hpushed, -⟩ := hpush.pushed
    exact hpushed.inv hI.heap hp

/-- A node that never expires may be shared. -/
theorem share (hI : Inv S c) (hn : c.heap.info p = some n) (ht : n.ttl = 0) :
    Inv (Set.insert p S) c where
  index := hI.index
  heap :=
    { hI.heap with
      pred := fun hpq hq => hI.heap.pred hpq fun h => hq (Set.mem_insert_of_mem p h)
      shared := fun {x m} hx hm => by
        rcases Set.mem_insert_iff.mp hx with rfl | hx
        · rwa [Option.some.inj (hm.symm.trans hn)]
        · exact hI.heap.shared hx hm
      shared_lt := fun {x} hx => by
        rcases Set.mem_insert_iff.mp hx with rfl | hx
        · exact Heap.lt_of_isSome (Heap.isSome_of_info hn)
        · exact hI.heap.shared_lt hx }

/-- **Inserting a shared node keeps the invariant**, when it is not the tail of the list
already. -/
theorem insert_shared (hI : Inv S c) (hp : p ∈ S) (hn : c.heap.info p = some n)
    (hd : n.data.isSome) (hnext : c.heap.next p = none)
    (htail : ∀ {l list}, c.Has t k l → c.heap.list l = some list → list.tail ≠ some p)
    (hr : cacheInsert c t k p = .ok c') : Inv S c' := by
  refine ⟨cacheInsert_inv hI.index hr, ?_⟩
  rcases cacheInsert_inserted hI.index hr with ⟨-, rfl⟩ | ⟨-, l, τ, hi⟩
  · exact hI.heap
  obtain ⟨h₀, hpushed⟩ := hi.pushed
  have hτ : τ ≠ p := by
    rintro rfl
    rcases hi.tail_cases with ⟨list, hl, hlist, hτ⟩ | hτ
    · exact htail hl hlist hτ
    · exact Heap.ne_nextNode_of_info hn hτ
  have hnext₀ : h₀.next p = none := by
    rcases hpushed.base with rfl | ⟨rfl, -, -⟩
    · exact hnext
    · rwa [Heap.ctorHeap_next]
  rw [hpushed.heap]
  exact (hpushed.base_inv hI.heap).push hpushed.live (hpushed.base_info hn) hd hnext₀ hτ (.inl hp)

/-- **An update keeps the invariant**. -/
theorem update (hI : Inv S c) (hl : (c.heap.list l).isSome) {now : ℤ} {heap : Heap} {size : UInt64}
    (hr : listUpdate c.heap l now = .ok (heap, size)) : Inv S (c.withHeap heap) := by
  obtain ⟨list, hlist⟩ := Option.isSome_iff_exists.mp hl
  obtain ⟨s, ids, -, hc⟩ := hI.heap.chain hlist
  exact ⟨hI.index.withHeap (listUpdate_isSome hI.heap hc hr), (listUpdate_chain hI.heap hc hr).1⟩

/-- A list that the cache holds has a chain. -/
theorem chain (hI : Inv S c) (hl : c.Has t k l) : ∃ s ids, c.heap.Chain l (s :: ids) := by
  obtain ⟨list, hlist⟩ := Option.isSome_iff_exists.mp (hI.index.live hl)
  obtain ⟨s, ids, -, hc⟩ := hI.heap.chain hlist
  exact ⟨s, ids, hc⟩

end Cache.Inv

/-- **The lists stay within their classes**. -/
structure ClassInv {γ : Type} (of : CacheType → CString → γ) (cls : ℕ → γ) (c : Cache) : Prop where
  head : ∀ {t k l list s}, c.Has t k l → c.heap.list l = some list → list.head = some s →
    cls s = of t k
  tail : ∀ {t k l list x}, c.Has t k l → c.heap.list l = some list → list.tail = some x →
    cls x = of t k
  next : ∀ {p q}, c.heap.next p = some q → cls q = cls p

namespace ClassInv

variable {γ : Type} {of : CacheType → CString → γ} {cls : ℕ → γ}

theorem init (cls : ℕ → γ) : ClassInv of cls Cache.init where
  head h := absurd h (Cache.init_has _ _ _)
  tail h := absurd h (Cache.init_has _ _ _)
  next h := by cases h

/-- Classes may be merged. -/
theorem map {δ : Type} (hC : ClassInv of cls c) (f : γ → δ) :
    ClassInv (fun t k => f (of t k)) (fun x => f (cls x)) c where
  head h hl hs := congrArg f (hC.head h hl hs)
  tail h hl hx := congrArg f (hC.tail h hl hx)
  next h := congrArg f (hC.next h)

/-- The nodes of a list are in its class. -/
theorem mem_chain (hC : ClassInv of cls c) (hl : c.Has t k l) {ids : List ℕ}
    (hc : c.heap.Chain l ids) : ∀ i ∈ ids, cls i = of t k := by
  obtain ⟨list, hlist, hp, -⟩ := hc
  exact hp.forall_mem (fun i _ hi => hC.head hl hlist hi) fun x _ y _ hx hxy =>
    (hC.next hxy).trans hx

/-- A record may be allocated into any class. -/
theorem alloc (hC : ClassInv of cls c) (hI : c.Inv S) (hn : n.next = none) (g : γ) :
    ClassInv of (Function.update cls c.heap.nextNode g) (c.withHeap (c.heap.allocNode n)) := by
  refine ⟨fun h hl hs => ?_, fun h hl hx => ?_, fun hpq => ?_⟩
  · obtain ⟨s, m, hs', hm, -⟩ := hI.heap.head hl
    obtain rfl := Option.some.inj (hs.symm.trans hs')
    rw [Function.update_of_ne (Heap.ne_nextNode_of_info hm)]
    exact hC.head h hl hs
  · rw [Function.update_of_ne (hI.heap.tail_lt hl hx).ne]
    exact hC.tail h hl hx
  · rw [Cache.withHeap_heap, Heap.allocNode_next hn] at hpq
    obtain ⟨m, hm, -⟩ := hI.heap.next hpq
    have hlive := Heap.lt_of_isSome (Heap.isSome_of_next hpq)
    rw [Function.update_of_ne (Heap.ne_nextNode_of_info hm), Function.update_of_ne hlive.ne]
    exact hC.next hpq

/-- **An insert keeps the classes**, when the node is in the class of its type and key. -/
theorem insert (hC : ClassInv of cls c) (hI : c.Inv S) (hp : cls p = of t k)
    (hpl : p < c.heap.nextNode) (hr : cacheInsert c t k p = .ok c') :
    ∃ cls', ClassInv of cls' c' ∧ ∀ x < c.heap.nextNode, cls' x = cls x := by
  rcases cacheInsert_inserted hI.index hr with ⟨-, rfl⟩ | ⟨-, l, τ, hi⟩
  · exact ⟨cls, hC, fun _ _ => rfl⟩
  -- a fresh head node is put into the class
  let cls' := Function.update cls c.heap.nextNode (of t k)
  have hold : ∀ x < c.heap.nextNode, cls' x = cls x := fun x hx => Function.update_of_ne hx.ne ..
  have hhead : ∀ {t' k' l' list s}, c.Has t' k' l' → c.heap.list l' = some list →
      list.head = some s → cls' s = of t' k' := by
    intro t' k' l' list s h hlist hs
    obtain ⟨s', m, hs', hm, -⟩ := hI.heap.head hlist
    obtain rfl := Option.some.inj (hs.symm.trans hs')
    exact (hold s (Heap.lt_of_isSome (Heap.isSome_of_info hm))).trans (hC.head h hlist hs)
  have htail : ∀ {t' k' l' list x}, c.Has t' k' l' → c.heap.list l' = some list →
      list.tail = some x → cls' x = of t' k' := by
    intro t' k' l' list x h hlist hx
    exact (hold x (hI.heap.tail_lt hlist hx)).trans (hC.tail h hlist hx)
  have hτ : cls' τ = of t k := by
    rcases hi.tail_cases with ⟨list, hl, hlist, hτ⟩ | rfl
    · exact htail hl hlist hτ
    · exact Function.update_self ..
  have hI' := cacheInsert_inv hI.index hr
  refine ⟨cls', ⟨?_, ?_, ?_⟩, hold⟩
  · intro t' k' l' list s h hlist hs
    by_cases he : (t', k') = (t, k)
    · obtain ⟨rfl, rfl⟩ := Prod.mk.inj he
      obtain rfl := hI'.has_unique hi.has_self h
      rcases hi.target with ⟨list₀, hl, hlist₀, -, hlist'⟩ | ⟨-, -, -, hlist'⟩
      · obtain rfl := Option.some.inj (hlist.symm.trans hlist')
        exact hhead hl hlist₀ hs
      · obtain rfl := Option.some.inj (hlist.symm.trans hlist')
        exact Option.some.inj hs ▸ hτ
    · have h := (hi.has_other he).mp h
      exact hhead h ((hi.list (hi.ne hI.index h he)).symm.trans hlist) hs
  · intro t' k' l' list x h hlist hx
    by_cases he : (t', k') = (t, k)
    · obtain ⟨rfl, rfl⟩ := Prod.mk.inj he
      obtain rfl := hI'.has_unique hi.has_self h
      obtain ⟨list', hlist', htail'⟩ := hi.list_self
      obtain rfl := Option.some.inj (hlist.symm.trans hlist')
      obtain rfl := Option.some.inj (hx.symm.trans htail')
      exact (hold x hpl).trans hp
    · have h := (hi.has_other he).mp h
      exact htail h ((hi.list (hi.ne hI.index h he)).symm.trans hlist) hx
  · intro x y hxy
    rw [hi.next] at hxy
    rcases Heap.update_eq_some hxy with ⟨rfl, hpy⟩ | ⟨-, hold'⟩
    · rw [← Option.some.inj hpy, hold p hpl, hp, hτ]
    · have hx := Heap.lt_of_isSome (Heap.isSome_of_next hold')
      have hy := Heap.lt_of_isSome (hI.heap.isSome_of_next hold')
      rw [hold x hx, hold y hy]
      exact hC.next hold'

/-- **An update keeps the classes**. -/
theorem update (hC : ClassInv of cls c) (hI : c.Inv S) (hl : (c.heap.list l).isSome) {now : ℤ}
    {heap : Heap} {size : UInt64} (hr : listUpdate c.heap l now = .ok (heap, size)) :
    ClassInv of cls (c.withHeap heap) := by
  obtain ⟨list, hlist⟩ := Option.isSome_iff_exists.mp hl
  obtain ⟨s, ids, -, hc⟩ := hI.heap.chain hlist
  refine listUpdate_keeps (P := fun heap => ClassInv of cls (c.withHeap heap)) hI.heap hc hr hC
    fun {h w p n} hP he => ⟨fun h hl hs => ?_, fun h hl hx => ?_, fun {x y} hxy => ?_⟩
  · obtain ⟨list₀, hl₀, hh, -⟩ := he.unlinks.list_eq_some hl
    exact hP.head h hl₀ (hh ▸ hs)
  · obtain ⟨list₀, hl₀, -, hx' | ⟨-, hp, hw⟩⟩ := he.unlinks.list_eq_some hl
    · exact hP.tail h hl₀ (hx' ▸ hx)
    · rw [← Option.some.inj (hw.symm.trans hx), ← hP.next he.next]
      exact hP.tail h hl₀ hp
  · obtain ⟨-, -, ⟨rfl, hpy⟩ | ⟨-, hold⟩⟩ := he.unlinks.next_of_erased hxy
    · exact (hP.next hpy).trans (hP.next he.next)
    · exact hP.next hold

end ClassInv

/-! ## Untouched lists -/

/-- **The list under `t` and `k` is untouched**: its nodes are the same, with their links. -/
structure Untouched (t : CacheType) (k : CString) (c c' : Cache) : Prop where
  has : ∀ l, c'.Has t k l ↔ c.Has t k l
  chain : ∀ {l ids}, c.Has t k l → c.heap.Chain l ids → c'.heap.Chain l ids
  node : ∀ {l ids i}, c.Has t k l → c.heap.Chain l ids → i ∈ ids → c'.heap.node i = c.heap.node i

namespace Untouched

variable {c'' : Cache}

theorem refl (t : CacheType) (k : CString) (c : Cache) : Untouched t k c c where
  has _ := Iff.rfl
  chain _ := id
  node _ _ _ := rfl

theorem trans (h : Untouched t k c c') (h' : Untouched t k c' c'') : Untouched t k c c'' where
  has l := (h'.has l).trans (h.has l)
  chain hl hc := h'.chain ((h.has _).mpr hl) (h.chain hl hc)
  node hl hc hi := (h'.node ((h.has _).mpr hl) (h.chain hl hc) hi).trans (h.node hl hc hi)

/-- Nothing stands under a key that the guard drops. -/
theorem of_invalid (hv : invalidKey k = true) (c c' : Cache) : Untouched t k c c' := by
  have hno : ∀ (c : Cache) l, ¬ c.Has t k l := by
    rintro c l ⟨h, -⟩
    rw [hv] at h
    cases h
  exact ⟨fun l => iff_of_false (hno c' l) (hno c l), fun h => absurd h (hno c _),
    fun h => absurd h (hno c _)⟩

/-- Allocating a record. -/
theorem alloc (hn : n.next = none) : Untouched t k c (c.withHeap (c.heap.allocNode n)) where
  has _ := Iff.rfl
  chain _ hc := hc.alloc hn
  node {l ids i} _ hc hi := by
    obtain ⟨-, -, -, hlive⟩ := hc
    exact Function.update_of_ne (Heap.lt_of_isSome (hlive i hi)).ne ..

end Untouched

variable {t' : CacheType} {k' : CString} {τ : ℕ}

/-- **A push behind a node of other lists** leaves a list untouched. -/
theorem Inserted.untouched (hi : Inserted c t k p l τ c') (hI : c.Inv S) (hp : c.heap.Unlinked p)
    (hτ : ∀ {l ids}, c.Has t' k' l → c.heap.Chain l ids → τ ∉ ids)
    (hne : (t', k') ≠ (t, k) ∨ ∃ l, c.Has t k l) : Untouched t' k' c c' := by
  obtain ⟨h₀, hpushed⟩ := hi.pushed
  refine ⟨fun l' => ⟨fun h => ?_, hi.has_old hI.index⟩, fun hl hc => ?_,
    fun {l' ids i} hl hc hi' => ?_⟩
  · rcases (hi.has _ _ _).mp h with ⟨h, -⟩ | ⟨rfl, rfl, rfl⟩
    · exact h
    · rcases hi.target with ⟨list, hl, -⟩ | ⟨hn, -⟩
      · exact hl
      · obtain ⟨l, hl⟩ := hne.resolve_left fun hne => hne rfl
        exact absurd hl (hn l)
  · rw [hpushed.heap]
    exact (hpushed.base_chain hc).push_of_notMem hpushed.live (hτ hl hc)
  · have hiτ : i ≠ τ := fun e => hτ hl hc (e ▸ hi')
    have hip : i ≠ p := fun e => hp.notMem hI.heap hc (e ▸ hi')
    obtain ⟨_, _, _, hlive⟩ := hc
    obtain ⟨m, hm⟩ := Heap.exists_info (hlive i hi')
    refine Heap.node_congr ((hi.info hm).trans hm.symm) ?_ ?_
    · rw [hi.next, Function.update_of_ne hiτ]
    · rw [hpushed.prev hp.isSome, Function.update_of_ne hip]

/-- The tail that a node is pushed behind is on no list of another class. -/
theorem ClassInv.tail_notMem {γ : Type} {of : CacheType → CString → γ} {cls : ℕ → γ}
    (hC : ClassInv of cls c) (hi : Inserted c t k p l τ c') (hof : of t' k' ≠ of t k) {l' : ℕ}
    {ids : List ℕ} (hl : c.Has t' k' l') (hc : c.heap.Chain l' ids) : τ ∉ ids := by
  intro hτ
  rcases hi.tail_cases with ⟨list, hl', hlist, htail⟩ | rfl
  · exact hof ((hC.mem_chain hl hc τ hτ).symm.trans (hC.tail hl' hlist htail))
  · obtain ⟨-, -, -, hlive⟩ := hc
    exact (Heap.lt_of_isSome (hlive _ hτ)).ne rfl

end Adrift
