import Adrift.Ds.ListInvariant

/-!
# Pushes under a key

A trie and a hash map push a node onto the list of a key, or onto a fresh list where the key has
none. Either way the node is put behind the tail of a list, in a heap that has at most one list
more than the old one.

## Main definitions

* `PushedUnder h has p l h'`: the node `p` goes onto the list `l`, `has` being the lists of the key
* `Pushed h h₀ l t p h'`: the node `p` is put behind the tail `t` of the list `l` of `h₀`

## Main results

* `PushedUnder.pushed`: a push under a key is a push behind a tail
* `Pushed.inv`: pushing a fresh node keeps the invariant
-/

namespace Adrift

open Outcome

/-- **A push under a key**: the node `p` goes onto the list that has the key, or onto a fresh
list where there is none. -/
inductive PushedUnder (h : Heap) (has : ℕ → Prop) (p l : ℕ) (h' : Heap) : Prop
  | old (hl : has l) (hp : listPushBack h l p = .ok h')
  | fresh (hn : ∀ k, ¬ has k) (hl : l = h.nextList) (hp : listPushBack h.ctorHeap l p = .ok h')

theorem PushedUnder.of_or {h h' : Heap} {has : ℕ → Prop} {p l : ℕ}
    (hpush : has l ∧ listPushBack h l p = .ok h' ∨
      (∀ l, ¬ has l) ∧ l = (listCtor h).2 ∧ listPushBack (listCtor h).1 l p = .ok h') :
    PushedUnder h has p l h' := by
  rcases hpush with ⟨hl, hp⟩ | ⟨hn, hl, hp⟩
  · exact .old hl hp
  · exact .fresh hn hl (hl ▸ hp)

/-- **The situation of a push**: the node `p` was put behind the tail `t` of the list `l` of the
heap `h₀`, which has one more list than `h` when the list is fresh. -/
structure Pushed (h h₀ : Heap) (l t p : ℕ) (h' : Heap) : Prop where
  base : h₀ = h ∨ h₀ = h.ctorHeap ∧ l = h.nextList ∧ t = h.nextNode
  tail : ∃ list, h₀.list l = some list ∧ list.tail = some t
  live : (h₀.node t).isSome
  heap : h' = pushedHeap h₀ l t p

namespace Pushed

variable {h h₀ h' : Heap} {S : Set ℕ} {l t p : ℕ}

theorem next (hp : Pushed h h₀ l t p h') : h'.next = Function.update h.next t (some p) := by
  rw [hp.heap, Heap.pushedHeap_next hp.live]
  rcases hp.base with rfl | ⟨rfl, -, -⟩
  · rfl
  · rw [Heap.ctorHeap_next]

theorem prev (hp : Pushed h h₀ l t p h') (hlive : (h.node p).isSome) :
    h'.prev = Function.update h.prev p (some t) := by
  rw [hp.heap]
  rcases hp.base with rfl | ⟨rfl, -, -⟩
  · rw [Heap.pushedHeap_prev hlive]
  · rw [Heap.pushedHeap_prev (Heap.ctorHeap_isSome hlive), Heap.ctorHeap_prev]

theorem base_inv (hp : Pushed h h₀ l t p h') (hI : h.Inv S) : h₀.Inv S := by
  rcases hp.base with rfl | ⟨rfl, -, -⟩
  · exact hI
  · exact hI.ctor

theorem base_info (hp : Pushed h h₀ l t p h') {x : ℕ} {m : ListNode} (hm : h.info x = some m) :
    h₀.info x = some m := by
  rcases hp.base with rfl | ⟨rfl, -, -⟩
  · exact hm
  · rw [Heap.ctorHeap_info, Function.update_of_ne (Heap.ne_nextNode_of_info hm), hm]

theorem base_chain (hp : Pushed h h₀ l t p h') {k : ℕ} {ids : List ℕ} (hc : h.Chain k ids) :
    h₀.Chain k ids := by
  rcases hp.base with rfl | ⟨rfl, -, -⟩
  · exact hc
  · exact hc.ctor

theorem base_unlinked (hp : Pushed h h₀ l t p h') {x : ℕ} (hx : h.Unlinked x) : h₀.Unlinked x := by
  rcases hp.base with rfl | ⟨rfl, -, -⟩
  · exact hx
  · exact hx.ctor

/-- The information of the old nodes stays. -/
theorem info (hp : Pushed h h₀ l t p h') {x : ℕ} {m : ListNode} (hm : h.info x = some m) :
    h'.info x = some m := by
  rw [hp.heap, Heap.pushedHeap_info, hp.base_info hm]

/-- The only new node is the head node of a fresh list. -/
theorem info_cases (hp : Pushed h h₀ l t p h') {x : ℕ} {m : ListNode} (hm : h'.info x = some m) :
    h.info x = some m ∨ x = h.nextNode ∧ t = x ∧ m = listNodeCtor.unlinked := by
  rw [hp.heap, Heap.pushedHeap_info] at hm
  rcases hp.base with rfl | ⟨rfl, -, rfl⟩
  · exact .inl hm
  · rw [Heap.ctorHeap_info] at hm
    by_cases hx : x = h.nextNode
    · rw [hx, Function.update_self] at hm
      exact .inr ⟨hx, hx.symm, (Option.some.inj hm).symm⟩
    · exact .inl (by rwa [Function.update_of_ne hx] at hm)

theorem ne_of_unlinked (hp : Pushed h h₀ l t p h') {x : ℕ} (hx : h.Unlinked x) : t ≠ x := by
  obtain ⟨list, hl, ht⟩ := hp.tail
  rintro rfl
  exact (hp.base_unlinked hx).tail hl ht

/-- **Pushing a fresh node keeps the invariant**. -/
theorem inv (hp : Pushed h h₀ l t p h') (hI : h.Inv S) (hx : h.Unlinked p) : h'.Inv S := by
  have hx' := hp.base_unlinked hx
  obtain ⟨n, hn, hd⟩ := hx'.data
  rw [hp.heap]
  exact (hp.base_inv hI).push hp.live hn hd hx'.next (hp.ne_of_unlinked hx) (.inr hx'.pred)

theorem unlinked (hp : Pushed h h₀ l t p h') {x : ℕ} (hx : h.Unlinked x) (hxp : x ≠ p) :
    h'.Unlinked x := by
  rw [hp.heap]
  exact (hp.base_unlinked hx).push hxp hp.live (hp.ne_of_unlinked hx)

end Pushed

theorem PushedUnder.pushed {h h' : Heap} {has : ℕ → Prop} {p l : ℕ}
    (hp : PushedUnder h has p l h') : ∃ h₀ t, Pushed h h₀ l t p h' ∧
      (h₀ = h ∧ has l ∨ h₀ = h.ctorHeap ∧ l = h.nextList ∧ ∀ k, ¬ has k) := by
  rcases hp with ⟨hl, hp⟩ | ⟨hn, rfl, hp⟩
  · obtain ⟨list, t, hlist, ht, htl, -, rfl⟩ := listPushBack_eq_ok.mp hp
    exact ⟨h, t, ⟨.inl rfl, ⟨list, hlist, ht⟩, htl, rfl⟩, .inl ⟨rfl, hl⟩⟩
  · obtain ⟨list, t, hlist, ht, htl, -, rfl⟩ := listPushBack_eq_ok.mp hp
    have htn : t = h.nextNode := by
      rw [Heap.ctorHeap_list, Function.update_self] at hlist
      rw [← Option.some.inj hlist] at ht
      exact (Option.some.inj ht).symm
    exact ⟨_, t, ⟨.inr ⟨rfl, rfl, htn⟩, ⟨list, hlist, ht⟩, htl, rfl⟩, .inr ⟨rfl, rfl, hn⟩⟩

/-- **The tails stay live**, and the node pushed is one. -/
theorem Pushed.tailLive {h h₀ h' : Heap} {l t p l' : ℕ} (hp : Pushed h h₀ l t p h')
    (hlive : (h.node p).isSome) (hl : l' = l ∨ h.TailLive l') : h'.TailLive l' := by
  have hkeep : ∀ {x}, (h.node x).isSome → (h'.node x).isSome := by
    intro x hx
    obtain ⟨n, hn⟩ := Heap.exists_info hx
    exact Heap.isSome_of_info (hp.info hn)
  obtain ⟨list, hlist, -⟩ := hp.tail
  by_cases hll : l' = l
  · subst hll
    exact ⟨_, p, by rw [hp.heap, Heap.pushedHeap_list, Function.update_self, hlist]; rfl, rfl,
      hkeep hlive⟩
  · obtain ⟨list', x, hlist', hx, hxl⟩ := hl.resolve_left hll
    refine ⟨list', x, ?_, hx, hkeep hxl⟩
    rw [hp.heap, Heap.pushedHeap_list, Function.update_of_ne hll]
    rcases hp.base with rfl | ⟨rfl, rfl, -⟩
    · exact hlist'
    · rw [Heap.ctorHeap_list, Function.update_of_ne hll, hlist']

/-- The lists after a push: the old ones, and the one pushed onto. -/
theorem Pushed.list_isSome {h h₀ h' : Heap} {l t p : ℕ} (hp : Pushed h h₀ l t p h') (k : ℕ) :
    (h'.list k).isSome = true ↔ (h.list k).isSome = true ∨ k = l := by
  obtain ⟨list, hlist, -⟩ := hp.tail
  rw [hp.heap, Heap.pushedHeap_list]
  by_cases hkl : k = l
  · simp [hkl, hlist]
  · rw [Function.update_of_ne hkl]
    rcases hp.base with rfl | ⟨rfl, rfl, -⟩
    · simp [hkl]
    · rw [Heap.ctorHeap_list, Function.update_of_ne hkl]
      simp [hkl]

end Adrift
