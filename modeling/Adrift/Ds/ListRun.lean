import Adrift.Ds.ListUpdate
import Adrift.Lib.DoublyLinked

/-!
# Runs of the lists

What holds of the lists of a heap after any pushes, erasures and updates: a list represents the
sequence of its remaining nodes, behind a head node, and both ways.

## Main definitions

* `Heap.Rep h l s ids`: the list `l` represents `ids`, behind the head node `s`
* `Heap.InNoList h p`: the live node `p` is in no list
* `ListRun h m`: the heap and the remaining nodes of its lists after a run

## Main results

* `Heap.Rep.push`, `Heap.Rep.erase`, `Heap.Rep.update`: what the operations represent
* `listRun_representation`: the state after any run, and the next operation
-/

namespace Adrift

open Outcome

variable {h h' : Heap} {S : Set ℕ} {l k s s' p q t w : ℕ} {ids ids' : List ℕ} {n : ListNode}
  {now : ℤ}

/-! ## Representation -/

/-- **The list `l` represents `ids`** behind the head node `s`: the live nodes are linked both ways,
the tail is the last one, and the size is their number without the head node. -/
structure Heap.Rep (h : Heap) (l s : ℕ) (ids : List ℕ) : Prop where
  cell : h.list l = some ⟨some s, (s :: ids).getLast?, .ofNat ids.length⟩
  links : DoublyLinked h.next h.prev (s :: ids)
  live : ∀ i ∈ s :: ids, (h.node i).isSome

/-- Unlinking a node takes it out of its chain. -/
theorem Unlinks.doublyLinked (hu : Unlinks S h w p n)
    (hlinks : DoublyLinked h.next h.prev (ids ++ w :: p :: ids')) :
    DoublyLinked (erasedHeap h l w p n.next).next (erasedHeap h l w p n.next).prev
      (ids ++ w :: ids') := by
  apply hlinks.unlink
  · rw [erasedHeap_next hu.live, Function.update_of_ne hu.ne, Function.update_self, hu.next_eq]
  · intro y hyw hyp
    rw [erasedHeap_next hu.live, Function.update_of_ne hyp, Function.update_of_ne hyw]
  · intro y hy
    have hyp : y ≠ p := by
      rintro rfl
      exact hu.ne (hu.unique hy).symm
    rw [hu.next_eq] at hy
    rw [erasedHeap_prev hu.next_live hyp, if_pos hy]
  · intro y hyp hy
    rw [hu.next_eq] at hy
    rw [erasedHeap_prev hu.next_live hyp, if_neg hy]

namespace Heap.Rep

theorem chain (hr : h.Rep l s ids) : h.Chain l (s :: ids) :=
  ⟨_, hr.cell, hr.links.forward, hr.live⟩

theorem unique (hr : h.Rep l s ids) (hr' : h.Rep l s' ids') : s = s' ∧ ids = ids' :=
  List.cons.inj (hr.chain.unique hr'.chain)

theorem nodup (hr : h.Rep l s ids) : ids.Nodup := (List.nodup_cons.mp hr.links.nodup).2

/-- The last node, and the tail. -/
theorem exists_last (hr : h.Rep l s ids) : ∃ xs t, s :: ids = xs ++ [t] ∧
    h.list l = some ⟨some s, some t, .ofNat ids.length⟩ := by
  obtain ⟨xs, t, hxs⟩ := List.eq_nil_or_concat (s :: ids) |>.resolve_left (List.cons_ne_nil _ _)
  refine ⟨xs, t, hxs.trans List.concat_eq_append, ?_⟩
  rw [hr.cell, hxs, List.concat_eq_append, List.getLast?_concat]

theorem tailLive (hr : h.Rep l s ids) : h.TailLive l := by
  obtain ⟨xs, t, hxs, hl⟩ := hr.exists_last
  exact ⟨_, t, hl, rfl, hr.live t (by simp [hxs])⟩

/-- What a list represents only depends on its cells. -/
theorem congr (hr : h.Rep l s ids) (hl : h'.list l = h.list l)
    (hn : ∀ i ∈ s :: ids, h'.node i = h.node i) : h'.Rep l s ids where
  cell := hl.trans hr.cell
  links := by
    refine hr.links.congr (fun i hi => ?_) fun i hi => ?_
    · rw [Heap.next, Heap.next, hn i hi]
    · rw [Heap.prev, Heap.prev, hn i hi]
  live i hi := by
    rw [hn i hi]
    exact hr.live i hi

/-- The nodes of a list are expired as before when they keep their records. -/
theorem filter_expiredAt (hr : h'.Rep l s ids)
    (hinfo : ∀ i, (h'.node i).isSome → h'.info i = h.info i) (now : ℤ) :
    ids.filter (!h'.expiredAt now ·) = ids.filter (!h.expiredAt now ·) := by
  apply List.filter_congr
  intro i hi
  rw [Heap.expiredAt, Heap.expiredAt, hinfo i (hr.live i (List.mem_cons_of_mem _ hi))]

/-- A new list represents no nodes. -/
theorem ctor (h : Heap) : h.ctorHeap.Rep h.nextList h.nextNode [] where
  cell := by rw [Heap.ctorHeap_list, Function.update_self]; rfl
  links := by
    apply DoublyLinked.singleton
    · rw [Heap.ctorHeap_next, Heap.next_nextNode]
    · rw [Heap.ctorHeap_prev, Heap.prev, Heap.node_nextNode, Option.bind_none]
  live i hi := by
    rw [List.mem_singleton.mp hi, ← Heap.info_isSome, Heap.ctorHeap_info, Function.update_self,
      Option.isSome_some]

/-- **A push appends** a live node that is not in the list. -/
theorem push (hr : h.Rep l s ids) (hp : (h.node p).isSome) (hn : h.next p = none)
    (hmem : p ∉ s :: ids) (hpush : listPushBack h l p = .ok h') : h'.Rep l s (ids ++ [p]) := by
  -- the node is put behind the last one
  obtain ⟨xs, t, hxs, hl⟩ := hr.exists_last
  obtain ⟨list, t', hl', ht', htl, -, rfl⟩ := listPushBack_eq_ok.mp hpush
  obtain rfl := Option.some.inj (hl.symm.trans hl')
  obtain rfl : t = t' := Option.some.inj ht'
  have hcons : s :: (ids ++ [p]) = xs ++ [t] ++ [p] := by rw [← List.cons_append, hxs]
  have hd : (xs ++ [t]).Nodup := hxs ▸ hr.links.nodup
  have hpt : p ≠ t := ne_of_mem_of_not_mem (by simp [hxs]) hmem |>.symm
  refine ⟨?_, ?_, fun i hi => ?_⟩
  · rw [Heap.pushedHeap_list, Function.update_self, hl, Option.map_some, hcons,
      List.getLast?_concat, List.length_append, List.length_singleton, UInt64.ofNat_add]
    rfl
  · have hlinks := hr.links
    rw [hcons]
    rw [hxs] at hlinks hmem
    apply hlinks.push
    · rw [Heap.pushedHeap_next htl, Function.update_self]
    · rw [Heap.pushedHeap_next htl, Function.update_of_ne hpt, hn]
    · intro x hx
      have hxt : x ≠ t := by
        rintro rfl
        exact (List.nodup_append.mp hd).2.2 x hx x (by simp) rfl
      rw [Heap.pushedHeap_next htl, Function.update_of_ne hxt]
    · rw [Heap.pushedHeap_prev hp, Function.update_self]
    · intro x hx
      rw [Heap.pushedHeap_prev hp, Function.update_of_ne (ne_of_mem_of_not_mem hx hmem)]
  · rw [Heap.pushedHeap_isSome]
    rw [hcons, List.mem_append, List.mem_singleton, ← hxs] at hi
    rcases hi with hi | rfl
    · exact hr.live i hi
    · exact hp

/-- A member stands behind the node that is linked to it. -/
theorem split (hr : h.Rep l s ids) (hp : p ∈ ids) :
    ∃ xs w bs, s :: ids = xs ++ [w] ++ p :: bs ∧ h.next w = some p := by
  obtain ⟨as, bs, hids⟩ := List.append_of_mem (List.mem_cons_of_mem s hp)
  have hne : as ≠ [] := by
    rintro rfl
    obtain ⟨rfl, -⟩ := List.cons.inj hids
    exact (List.nodup_cons.mp hr.links.nodup).1 hp
  obtain ⟨xs, w, rfl⟩ := List.eq_nil_or_concat as |>.resolve_left hne
  rw [List.concat_eq_append] at hids
  have hpath := hr.links.forward
  rw [hids] at hpath
  exact ⟨xs, w, bs, hids, (LinkPath.concat_iff.mp (LinkPath.append_cons_iff.mp hpath).1).2⟩

/-- A member of a list can be unlinked. -/
theorem exists_unlinks (hr : h.Rep l s ids) (hI : h.Inv S) (hp : p ∈ ids) (hS : p ∉ S) :
    ∃ w n, Unlinks S h w p n := by
  obtain ⟨n, hn⟩ := Option.isSome_iff_exists.mp (hr.live p (List.mem_cons_of_mem _ hp))
  obtain ⟨-, w, -, -, hwp⟩ := hr.split hp
  exact ⟨w, n, hI, hn, hS, hwp⟩

/-- **An erasure removes a member**. -/
theorem erase (hr : h.Rep l s ids) (hu : Unlinks S h w p n) (hp : p ∈ ids) :
    (erasedHeap h l w p n.next).Rep l s (ids.erase p) := by
  have hsp : s ≠ p := fun e => (List.nodup_cons.mp hr.links.nodup).1 (e ▸ hp)
  -- the predecessor in the list is the one that is relinked
  obtain ⟨xs, v, bs, hids, hv⟩ := hr.split hp
  obtain rfl : w = v := (hu.unique hv).symm
  rw [← List.append_cons] at hids
  have hlinks := hids ▸ hr.links
  have hpre : p ∉ xs := fun hmem =>
    (List.nodup_append.mp hlinks.nodup).2.2 p hmem p (by simp) rfl
  have herase : s :: ids.erase p = xs ++ w :: bs := by
    rw [← List.erase_cons_tail (by simpa using hsp), hids, List.erase_append_right _ hpre,
      List.erase_cons_tail (by simpa using hu.ne), List.erase_cons_head]
  have hlen : UInt64.ofNat ids.length - 1 = .ofNat (ids.erase p).length := by
    have hpos := List.length_pos_of_mem hp
    rw [List.length_erase_of_mem hp, UInt64.ofNat_sub (by omega)]
    rfl
  refine ⟨?_, herase ▸ hu.doublyLinked hlinks, fun i hi => ?_⟩
  · rw [erasedHeap_list, Function.update_self, hr.cell, Option.map_some, herase,
      hlinks.getLast?_unlink, ← hids, ← hlen, if_neg (by simpa using hsp)]
  · rw [← List.erase_cons_tail (by simpa using hsp), hr.links.nodup.mem_erase_iff] at hi
    rw [← Heap.info_isSome, erasedHeap_info, Function.update_of_ne hi.1, Heap.info_isSome]
    exact hr.live i hi.2

/-- The head node never expires. -/
theorem filter_cons (hr : h.Rep l s ids) (hI : h.Inv S) (now : ℤ) :
    (s :: ids).filter (!h.expiredAt now ·) = s :: ids.filter (!h.expiredAt now ·) :=
  List.filter_cons_of_pos (by simp [hI.head_not_expired hr.chain now])

/-- **An update removes and frees the expired members**, and returns the number of the others. -/
theorem update (hr : h.Rep l s ids) (hI : h.Inv S) (now : ℤ) :
    ∃ h', listUpdate h l now =
        .ok (h', .ofNat (ids.filter (!h.expiredAt now ·)).length) ∧
      h'.Inv S ∧ h'.Rep l s (ids.filter (!h.expiredAt now ·)) ∧
      ids.filter (fun i => (h'.node i).isSome) = ids.filter (!h.expiredAt now ·) := by
  -- after any of its erasures the list represents the members that are still live
  have hstart : h.Rep l s (ids.filter fun i => (h.node i).isSome) := by
    rwa [List.filter_eq_self.mpr fun i hi => hr.live i (List.mem_cons_of_mem _ hi)]
  have hstep : ∀ {h₁ : Heap} {w p n}, h₁.Rep l s (ids.filter fun i => (h₁.node i).isSome) →
      Erases S now (s :: ids) h₁ w p n → (erasedHeap h₁ l w p n.next).Rep l s
        (ids.filter fun i => ((erasedHeap h₁ l w p n.next).node i).isSome) := by
    intro h₁ w p n hrep he
    have hu := he.unlinks
    have hp : p ∈ ids.filter fun i => (h₁.node i).isSome := by
      refine List.mem_filter.mpr ⟨?_, by rw [he.node, Option.isSome_some]⟩
      refine (List.mem_cons.mp he.mem).resolve_left fun e => hu.ne_head hrep.cell ?_
      rw [e]
    have hlive : ∀ i, ((erasedHeap h₁ l w p n.next).node i).isSome =
        ((i != p) && (h₁.node i).isSome) := by
      intro i
      rw [← Heap.info_isSome, erasedHeap_info]
      by_cases hip : i = p
      · simp [hip]
      · rw [Function.update_of_ne hip, Heap.info_isSome]
        simp [hip]
    have hleft := hrep.erase hu hp
    rw [hrep.nodup.erase_eq_filter, List.filter_filter] at hleft
    simpa only [hlive] using hleft
  obtain ⟨h', hrun, hI', hrep, hc⟩ := listUpdate_spec now hI hr.chain hstart hstep
  rw [hr.filter_cons hI] at hrun hc
  have hids := (List.cons.inj (hrep.chain.unique hc)).2
  refine ⟨h', ?_, hI', hids ▸ hrep, hids⟩
  rw [hrun, List.length_cons, UInt64.ofNat_add]
  simp

theorem disjoint (hr : h.Rep l s ids) (hI : h.Inv ∅) (hr' : h.Rep k s' ids') (hne : l ≠ k) :
    (s :: ids).Disjoint (s' :: ids') :=
  hI.disjoint hr.chain hr'.chain (fun _ _ => Set.notMem_empty _) hne

/-- A push leaves the other lists alone. -/
theorem push_other (hr : h.Rep k s ids) (hr' : h.Rep l s' ids') (hI : h.Inv ∅) (hne : k ≠ l)
    (hp : p ∉ s :: ids) (hpush : listPushBack h l p = .ok h') : h'.Rep k s ids := by
  obtain ⟨list, t, hl, ht, htl, hplive, rfl⟩ := listPushBack_eq_ok.mp hpush
  -- the only links that change are those of the tail and of the node pushed
  have hmem : t ∈ s' :: ids' := by
    rw [hr'.cell] at hl
    rw [← Option.some.inj hl] at ht
    exact List.mem_of_getLast? ht
  refine hr.congr ?_ fun i hi => ?_
  · rw [Heap.pushedHeap_list, Function.update_of_ne hne]
  · have hit : i ≠ t := fun e => hr.disjoint hI hr' hne hi (e ▸ hmem)
    have hip : i ≠ p := ne_of_mem_of_not_mem hi hp
    apply Heap.node_congr
    · rw [Heap.pushedHeap_info]
    · rw [Heap.pushedHeap_next htl, Function.update_of_ne hit]
    · rw [Heap.pushedHeap_prev hplive, Function.update_of_ne hip]

/-- An erasure leaves the other lists alone. -/
theorem erase_other (hr : h.Rep k s ids) (hr' : h.Rep l s' ids') (hu : Unlinks ∅ h w p n)
    (hne : k ≠ l) (hp : p ∈ ids') : (erasedHeap h l w p n.next).Rep k s ids := by
  have hd := hr.disjoint hu.inv hr' hne
  have hp' := List.mem_cons_of_mem s' hp
  refine hr.congr ?_ fun i hi => ?_
  · rw [erasedHeap_list, Function.update_of_ne hne]
  · -- the neighbours of the node that goes are in its list
    apply erasedHeap_node hu.live hu.next_live
    · rintro rfl
      exact hd hi hp'
    · rintro rfl
      exact hd (hr.links.forward.mem_of_next hi hu.next) hp'
    · intro hnext
      rw [← hu.next_eq] at hnext
      exact hd hi (hr'.links.forward.mem_of_next hp' hnext)

/-- An update leaves the other lists alone. -/
theorem update_other {size : UInt64} (hr : h.Rep k s ids) (hr' : h.Rep l s' ids') (hI : h.Inv ∅)
    (hne : k ≠ l) (hupdate : listUpdate h l now = .ok (h', size)) : h'.Rep k s ids := by
  apply hr.congr (listUpdate_list hI hr'.chain hupdate hne)
  intro i hi
  apply listUpdate_node hI hr'.chain hupdate
  exact fun hi' => hr.disjoint hI hr' hne hi hi'

end Heap.Rep

/-! ## All lists of a heap -/

/-- **The live node `p` is in no list**. -/
def Heap.InNoList (h : Heap) (p : ℕ) : Prop :=
  (h.node p).isSome ∧ ∀ l ids, h.Chain l ids → p ∉ ids

/-- **Every list represents its members**, and the nodes in no list are linked from nowhere and to
nowhere. -/
structure Heap.Lists (h : Heap) (m : ℕ → List ℕ) : Prop where
  inv : h.Inv ∅
  rep : ∀ {l}, (h.list l).isSome → ∃ s, h.Rep l s (m l)
  settled : ∀ {p}, h.InNoList p → h.Unlinked p

/-- A fresh node is in no list. -/
theorem Heap.Unlinked.inNoList (hp : h.Unlinked p) (hI : h.Inv S) : h.InNoList p :=
  ⟨hp.isSome, fun _ _ hc => hp.notMem hI hc⟩

namespace Heap.Lists

variable {m m' : ℕ → List ℕ}

/-- A node in no list after a step was in none before, where the live members stay in lists. -/
theorem settle_of (hL : h.Lists m) (hkeep : ∀ {k s}, h.Rep k s (m k) →
      ∀ q ∈ s :: m k, (h'.node q).isSome → ∃ k' ids, h'.Chain k' ids ∧ q ∈ ids)
    (hq : h'.InNoList q) (hlive : (h.node q).isSome) : h.Unlinked q := by
  refine hL.settled ⟨hlive, fun k ids hc hmem => ?_⟩
  obtain ⟨list, hl, -⟩ := id hc
  obtain ⟨s, hr⟩ := hL.rep (l := k) (by rw [hl, Option.isSome_some])
  rw [hc.unique hr.chain] at hmem
  -- a node in a list before would be in a list now
  obtain ⟨k', ids', hc', hmem'⟩ := hkeep hr q hmem hq.1
  exact hq.2 k' ids' hc' hmem'

/-- The members stay in their own lists. -/
theorem settle (hL : h.Lists m) (hold : ∀ {k s}, h.Rep k s (m k) → h'.Rep k s (m' k))
    (hkeep : ∀ {k s}, h.Rep k s (m k) → ∀ q ∈ m k, (h'.node q).isSome → q ∈ m' k)
    (hq : h'.InNoList q) (hlive : (h.node q).isSome) : h.Unlinked q := by
  refine hL.settle_of (fun {k s} hr x hx hxl => ⟨k, _, (hold hr).chain, ?_⟩) hq hlive
  rw [List.mem_cons] at hx ⊢
  exact hx.imp_right fun hx => hkeep hr x hx hxl

/-- The members of one list change, and the other lists are left alone. -/
theorem rep_update (hself : h.Rep l s (m l)) (hself' : h'.Rep l s ids)
    (hother : ∀ {k s'}, k ≠ l → h.Rep k s' (m k) → h'.Rep k s' (m k)) (hr : h.Rep k s' (m k)) :
    h'.Rep k s' (Function.update m l ids k) := by
  by_cases hk : k = l
  · subst hk
    obtain ⟨rfl, -⟩ := hr.unique hself
    rwa [Function.update_self]
  · rw [Function.update_of_ne hk]
    exact hother hk hr

/-- A member stays one where the list that changes keeps it. -/
theorem mem_update (hkeep : q ∈ m l → q ∈ ids) (hq : q ∈ m k) : q ∈ Function.update m l ids k := by
  by_cases hk : k = l
  · rw [hk, Function.update_self]
    exact hkeep (hk ▸ hq)
  · rwa [Function.update_of_ne hk]

theorem empty : Heap.empty.Lists fun _ => [] where
  inv := .empty
  rep hl := by cases hl
  settled hp := by cases hp.1

/-- A new node is in no list. -/
theorem alloc (hL : h.Lists m) (hn : n.next = none) (hd : n.data.isSome) :
    (h.allocNode n).Lists m := by
  have hrep : ∀ {k s}, h.Rep k s (m k) → (h.allocNode n).Rep k s (m k) := by
    intro k s hr
    refine hr.congr rfl fun i hi => ?_
    rw [Heap.allocNode_node, Function.update_of_ne (Heap.lt_of_isSome (hr.live i hi)).ne]
  refine ⟨hL.inv.alloc hn hd, fun hl => (hL.rep hl).imp fun _ => hrep, fun {q} hq => ?_⟩
  by_cases he : q = h.nextNode
  · exact he ▸ hL.inv.unlinked_alloc hn hd
  · have hlive := hq.1
    rw [Heap.allocNode_node, Function.update_of_ne he] at hlive
    exact (hL.settle hrep (fun _ _ hmem _ => hmem) hq hlive).alloc hn

/-- A node just allocated is in no list. -/
theorem inNoList_ctor (hL : h.Lists m) (data : DnsResourceRecord) (rrType : RrType)
    (recordTime ttl : ℤ) :
    (listNodeCtorWithInfo h data rrType recordTime ttl).1.InNoList h.nextNode := by
  have hn : (ListNode.ofInfo data rrType recordTime ttl).next = none := rfl
  have hd : (ListNode.ofInfo data rrType recordTime ttl).data.isSome := rfl
  exact (hL.inv.unlinked_alloc hn hd).inNoList (hL.inv.alloc hn hd)

/-- A new list has no members. -/
theorem ctor (hL : h.Lists m) : h.ctorHeap.Lists (Function.update m h.nextList []) := by
  -- neither the list nor its head node was there before
  have hne : ∀ {k s}, h.Rep k s (m k) → k ≠ h.nextList := by
    rintro k s hr rfl
    cases (h.list_fresh _ le_rfl).symm.trans hr.cell
  have hrep : ∀ {k s}, h.Rep k s (m k) →
      h.ctorHeap.Rep k s (Function.update m h.nextList [] k) := by
    intro k s hr
    rw [Function.update_of_ne (hne hr)]
    apply hr.congr (by rw [Heap.ctorHeap_list, Function.update_of_ne (hne hr)])
    intro i hi
    exact Function.update_of_ne (Heap.lt_of_isSome (hr.live i hi)).ne ..
  refine ⟨hL.inv.ctor, fun {k} hk => ?_, fun {q} hq => ?_⟩
  · by_cases he : k = h.nextList
    · rw [he, Function.update_self]
      exact ⟨_, Rep.ctor h⟩
    · rw [Heap.ctorHeap_list, Function.update_of_ne he] at hk
      exact (hL.rep hk).imp fun _ => hrep
  · have hnew : q ≠ h.nextNode := by
      rintro rfl
      exact hq.2 _ _ (Rep.ctor h).chain List.mem_cons_self
    have hlive := hq.1
    rw [← Heap.info_isSome, Heap.ctorHeap_info, Function.update_of_ne hnew, Heap.info_isSome]
      at hlive
    refine (hL.settle hrep (fun hr x hx _ => ?_) hq hlive).ctor
    rwa [Function.update_of_ne (hne hr)]

/-- **A push appends to one list**. -/
theorem push (hL : h.Lists m) (hp : h.InNoList p) (hpush : listPushBack h l p = .ok h') :
    h'.Lists (Function.update m l (m l ++ [p])) := by
  have hfresh := hL.settled hp
  have hpushed := listPushBack_eq_ok.mp hpush
  obtain ⟨list, t, hl, ht, htl, -, rfl⟩ := hpushed
  obtain ⟨s, hself⟩ := hL.rep (l := l) (by rw [hl, Option.isSome_some])
  have hnot : ∀ {k s}, h.Rep k s (m k) → p ∉ s :: m k := fun hr => hp.2 _ _ hr.chain
  have hself' := hself.push hp.1 hfresh.next (hnot hself) hpush
  have hrep : ∀ {k s}, h.Rep k s (m k) →
      (pushedHeap h l t p).Rep k s (Function.update m l (m l ++ [p]) k) :=
    rep_update hself hself' fun hk hr => hr.push_other hself hL.inv hk (hnot hr) hpush
  refine ⟨?_, fun {k} hk => ?_, fun {q} hq => ?_⟩
  · obtain ⟨n, hn, hd⟩ := hfresh.data
    exact hL.inv.push htl hn hd hfresh.next (fun e => hfresh.tail hl (e ▸ ht)) (.inr hfresh.pred)
  · refine (hL.rep ?_).imp fun _ => hrep
    obtain ⟨list', hl'⟩ := Option.isSome_iff_exists.mp hk
    obtain ⟨list₀, hl₀, -⟩ := Heap.pushedHeap_list_eq_some hl'
    rw [hl₀, Option.isSome_some]
  · -- the node pushed is in a list now
    have hqp : q ≠ p := by
      rintro rfl
      exact hq.2 l _ hself'.chain (by simp)
    have hlive := hq.1
    rw [Heap.pushedHeap_isSome] at hlive
    have hq' := hL.settle hrep (fun _ x hx _ => mem_update (List.mem_append_left _) hx) hq hlive
    exact hq'.push hqp htl fun e => hq'.tail hl (e ▸ ht)

/-- **An erasure removes a member of one list**. -/
theorem erase (hL : h.Lists m) (hl : (h.list l).isSome) (hp : p ∈ m l) :
    ∃ h', listErase h l p = .ok h' ∧ h'.Lists (Function.update m l ((m l).erase p)) := by
  obtain ⟨s, hself⟩ := hL.rep hl
  obtain ⟨w, n, hu⟩ := hself.exists_unlinks hL.inv hp (Set.notMem_empty p)
  have hrep : ∀ {k s}, h.Rep k s (m k) →
      (erasedHeap h l w p n.next).Rep k s (Function.update m l ((m l).erase p) k) :=
    rep_update hself (hself.erase hu hp) fun hk hr => hr.erase_other hself hu hk hp
  -- the member is the only node that goes
  have hlive : ∀ {q}, ((erasedHeap h l w p n.next).node q).isSome → q ≠ p ∧ (h.node q).isSome := by
    intro q hq
    obtain ⟨m, hm⟩ := Heap.exists_info hq
    obtain ⟨hqp, hm⟩ := hu.info_of_erased hm
    exact ⟨hqp, Heap.isSome_of_info hm⟩
  refine ⟨_, hu.erase_ok, .erase hu, fun {k} hk => ?_, fun {q} hq => ?_⟩
  · refine (hL.rep ?_).imp fun _ => hrep
    obtain ⟨list', hl'⟩ := Option.isSome_iff_exists.mp hk
    obtain ⟨list, hl, -⟩ := hu.list_eq_some hl'
    rw [hl, Option.isSome_some]
  · refine hu.unlinked (hL.settle hrep (fun _ x hx hxl => mem_update ?_ hx) hq (hlive hq.1).2)
    exact (List.mem_erase_of_ne (hlive hxl).1).mpr

/-- **An update removes the expired members of one list**, and returns the number of the
others. -/
theorem update (hL : h.Lists m) (hl : (h.list l).isSome) (now : ℤ) :
    ∃ h', listUpdate h l now = .ok (h', .ofNat ((m l).filter (!h.expiredAt now ·)).length) ∧
      h'.Lists (Function.update m l ((m l).filter (!h.expiredAt now ·))) := by
  obtain ⟨s, hself⟩ := hL.rep hl
  obtain ⟨h', hrun, hI', hself', hfreed⟩ := hself.update hL.inv now
  have hrep : ∀ {k s}, h.Rep k s (m k) →
      h'.Rep k s (Function.update m l ((m l).filter (!h.expiredAt now ·)) k) :=
    rep_update hself hself' fun hk hr => hr.update_other hself hL.inv hk hrun
  refine ⟨h', hrun, hI', fun {k} hk => ?_, fun {q} hq => ?_⟩
  · rw [listUpdate_isSome hL.inv hself.chain hrun] at hk
    exact (hL.rep hk).imp fun _ => hrep
  · obtain ⟨n, hn⟩ := Heap.exists_info hq.1
    have hlive := Heap.isSome_of_info (listUpdate_info hL.inv hself.chain hrun hn)
    refine listUpdate_keeps hL.inv hself.chain hrun
      (hL.settle hrep (fun _ x hx hxl => mem_update (fun hx => ?_) hx) hq hlive)
      fun hP he => he.unlinks.unlinked hP
    -- a member that is still live was not expired
    rw [← hfreed]
    exact List.mem_filter.mpr ⟨hx, hxl⟩

end Heap.Lists

/-! ## Runs -/

/-- **A run of the lists** of a heap: the heap, and the remaining nodes of every list. -/
inductive ListRun : Heap → (ℕ → List ℕ) → Prop
  | start : ListRun Heap.empty fun _ => []
  | nodeCtor {h : Heap} {m : ℕ → List ℕ} (data : DnsResourceRecord) (rrType : RrType)
      (recordTime ttl : ℤ) (hrun : ListRun h m) :
      ListRun (listNodeCtorWithInfo h data rrType recordTime ttl).1 m
  | ctor {h : Heap} {m : ℕ → List ℕ} (hrun : ListRun h m) :
      ListRun (listCtor h).1 (Function.update m (listCtor h).2 [])
  | pushBack {h h' : Heap} {m : ℕ → List ℕ} {l p : ℕ} (hrun : ListRun h m) (hp : h.InNoList p)
      (hr : listPushBack h l p = .ok h') : ListRun h' (Function.update m l (m l ++ [p]))
  | erase {h h' : Heap} {m : ℕ → List ℕ} {l p : ℕ} (hrun : ListRun h m)
      (hl : (h.list l).isSome) (hp : p ∈ m l) (hr : listErase h l p = .ok h') :
      ListRun h' (Function.update m l ((m l).erase p))
  | update {h h' : Heap} {m : ℕ → List ℕ} {l : ℕ} {now : ℤ} {size : UInt64} (hrun : ListRun h m)
      (hl : (h.list l).isSome) (hr : listUpdate h l now = .ok (h', size)) :
      ListRun h' (Function.update m l ((m l).filter (!h.expiredAt now ·)))

/-- **Every list represents its members** after a run. -/
theorem ListRun.lists {m : ℕ → List ℕ} (hrun : ListRun h m) : h.Lists m := by
  induction hrun with
  | start => exact .empty
  | nodeCtor data rrType recordTime ttl _ ih => exact ih.alloc rfl rfl
  | ctor _ ih => exact ih.ctor
  | pushBack _ hp hr ih => exact ih.push hp hr
  | erase _ hl hp hr ih =>
    obtain ⟨h₁, hr₁, hL⟩ := ih.erase hl hp
    cases hr.symm.trans hr₁
    exact hL
  | update _ hl hr ih =>
    obtain ⟨h₁, hr₁, hL⟩ := ih.update hl _
    cases hr.symm.trans hr₁
    exact hL

/-- **The representation of the lists** after any run: every list represents its remaining nodes;
a push of a node in no list succeeds, and so does an erasure of a member; and an update succeeds,
returns the size that is left, and frees exactly the members that are expired. -/
theorem listRun_representation {m : ℕ → List ℕ} (hrun : ListRun h m) :
    (∀ l, (h.list l).isSome → ∃ s, h.Rep l s (m l)) ∧
      (∀ l p, (h.list l).isSome → h.InNoList p → ∃ h', listPushBack h l p = .ok h') ∧
      (∀ l, (h.list l).isSome → ∀ p ∈ m l, ∃ h', listErase h l p = .ok h') ∧
      ∀ l now, (h.list l).isSome → ∃ h' list, listUpdate h l now = .ok (h', list.size) ∧
        h'.list l = some list ∧ ∀ p ∈ m l, h'.node p = none ↔
          ∃ n, h.node p = some n ∧ n.ttl ≠ 0 ∧ now - (n.recordTime + n.ttl) > 10 := by
  have hL := hrun.lists
  refine ⟨fun l => hL.rep, fun l p hl hp => ?_, fun l hl p hp => ?_, fun l now hl => ?_⟩
  · obtain ⟨s, hr⟩ := hL.rep hl
    exact hr.tailLive.push_ok hp.1
  · obtain ⟨h', hr, -⟩ := hL.erase hl hp
    exact ⟨h', hr⟩
  · obtain ⟨s, hr⟩ := hL.rep hl
    obtain ⟨h', hupdate, -, hr', hfreed⟩ := hr.update hL.inv now
    refine ⟨h', _, hupdate, hr'.cell, fun p hp => ?_⟩
    obtain ⟨n, hn⟩ := Option.isSome_iff_exists.mp (hr.live p (List.mem_cons_of_mem _ hp))
    -- the members left are both the live and the unexpired ones
    have hlive : (h'.node p).isSome ↔ n.expired now = false := by
      have hmem : p ∈ (m l).filter (fun i => (h'.node i).isSome) ↔
          p ∈ (m l).filter (!h.expiredAt now ·) := by rw [hfreed]
      simpa [hp, Heap.expiredAt_of_node hn] using hmem
    rw [← Option.not_isSome_iff_eq_none, hlive]
    simp only [hn, Option.some.injEq, exists_eq_left', ListNode.expired, Bool.not_eq_false,
      decide_eq_true_eq, gt_iff_lt]

/-- A fresh node is pushed onto the first list. -/
def pushFresh (h : Heap) (ttl : ℤ) : Except Fault Heap :=
  let (h, p) := listNodeCtorWithInfo h sampleRecord .answer 0 ttl
  listPushBack h 0 p

/-- Four pushes onto a list, the erasure of the first node behind the head node, and an update at
which the next two have expired. -/
def expiringPushes : Except Fault Heap := do
  let h ← pushFresh (listCtor Heap.empty).1 180
  let h ← pushFresh h 1
  let h ← pushFresh h 1
  let h ← pushFresh h 180
  let h ← listErase h 0 1
  let (h, _) ← listUpdate h 0 100
  return h

theorem ListRun.pushFresh {m : ℕ → List ℕ} {ttl : ℤ} (hrun : ListRun h m)
    (hr : pushFresh h ttl = .ok h') :
    ListRun h' (Function.update m 0 (m 0 ++ [h.nextNode])) ∧ (h'.list 0).isSome := by
  refine ⟨(hrun.nodeCtor sampleRecord .answer 0 ttl).pushBack (hrun.lists.inNoList_ctor _ _ _ _) hr,
    ?_⟩
  obtain ⟨list, t, hl, -, -, -, rfl⟩ := listPushBack_eq_ok.mp hr
  simp [pushedHeap, Heap.modifyList, Heap.modifyNode, hl]

theorem expiringPushes_run : ∃ h m, expiringPushes = .ok h ∧ ListRun h m ∧
    (h.list 0).map (·.size) = some 1 := by
  have hsize : (expiringPushes.toOption.bind fun h => (h.list 0).map (·.size)) = some 1 := rfl
  cases hr : expiringPushes with
  | error e =>
    rw [hr] at hsize
    cases hsize
  | ok h =>
    rw [hr] at hsize
    obtain ⟨h₁, hr₁, hr⟩ := bind_eq_ok.mp hr
    obtain ⟨h₂, hr₂, hr⟩ := bind_eq_ok.mp hr
    obtain ⟨h₃, hr₃, hr⟩ := bind_eq_ok.mp hr
    obtain ⟨h₄, hr₄, hr⟩ := bind_eq_ok.mp hr
    obtain ⟨h₅, hr₅, hr⟩ := bind_eq_ok.mp hr
    obtain ⟨⟨h₆, size⟩, hr₆, hr⟩ := bind_eq_ok.mp hr
    cases hr
    obtain ⟨hrun₁, -⟩ := ListRun.start.ctor.pushFresh hr₁
    obtain ⟨hrun₂, -⟩ := hrun₁.pushFresh hr₂
    obtain ⟨hrun₃, -⟩ := hrun₂.pushFresh hr₃
    obtain ⟨hrun₄, hlist₄⟩ := hrun₃.pushFresh hr₄
    have hmem : (listCtor Heap.empty).1.nextNode = 1 := rfl
    have hrun₅ := hrun₄.erase (l := 0) (p := 1) hlist₄ (by simp [hmem]) hr₅
    obtain ⟨list, hlist₅, -⟩ := bind_eq_ok.mp hr₆
    have hrun₆ := hrun₅.update (Option.isSome_of_eq_some (Heap.getList_eq_ok.mp hlist₅)) hr₆
    exact ⟨_, _, rfl, hrun₆, hsize⟩

theorem listRun_representation_expiring : ∃ h m, expiringPushes = .ok h ∧ ListRun h m ∧
    (h.list 0).map (·.size) = some 1 ∧
      (∀ l, (h.list l).isSome → ∃ s, h.Rep l s (m l)) ∧
        (∀ l p, (h.list l).isSome → h.InNoList p → ∃ h', listPushBack h l p = .ok h') ∧
        (∀ l, (h.list l).isSome → ∀ p ∈ m l, ∃ h', listErase h l p = .ok h') ∧
        ∀ l now, (h.list l).isSome → ∃ h' list, listUpdate h l now = .ok (h', list.size) ∧
          h'.list l = some list ∧ ∀ p ∈ m l, h'.node p = none ↔
            ∃ n, h.node p = some n ∧ n.ttl ≠ 0 ∧ now - (n.recordTime + n.ttl) > 10 := by
  obtain ⟨h, m, hr, hrun, hsize⟩ := expiringPushes_run
  exact ⟨h, m, hr, hrun, hsize, listRun_representation hrun⟩

end Adrift
