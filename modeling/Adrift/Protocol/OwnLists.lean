import Adrift.Protocol.Coherence

/-!
# Lists of their own

Where no zero entry of the hosts file shares its node among the lists of a domain, a list of the
domain is a list of its own: records are put behind its last node, an update drops the expired
nodes, and nothing else changes it. What it starts with stays in front, if it never expires.

## Main definitions

* `Cache.Records c t k ns`: the records under `t` and `k` are those of the nodes `ns`
* `Cache.Own c t k ns`: the same, and the next record is put behind them
* `Cache.Learned c t k base Q`: the nodes `base`, and behind them nodes with `Q`

## Main results

* `Cache.Own.record`, `Cache.Own.update_self`, `Cache.Own.update_other`: what records and updates
  do to a list of its own
* `ClassInv.untouched_update`: an update leaves the lists of the other classes alone
* `Cache.Run.learned`: what a run puts behind the nodes of a list
* `Cache.Run.tailLast`: the tails of the lists of a domain that is not blocked end them
-/

namespace Adrift

open Outcome

/-- **The records under `t` and `k`**: the nodes behind the head of the list, if there is one. -/
def Cache.Records (c : Cache) (t : CacheType) (k : CString) (ns : List ListNode) : Prop :=
  (∀ l, ¬ c.Has t k l) ∧ ns = [] ∨
    ∃ l s ids, c.Has t k l ∧ c.heap.Chain l (s :: ids) ∧ ns = c.heap.infosAt ids

/-- **A list that grows at its end**. -/
structure Cache.Own (c : Cache) (t : CacheType) (k : CString) (ns : List ListNode) : Prop where
  records : c.Records t k ns
  tail : ∀ {l}, c.Has t k l → c.heap.TailLast l

/-- What a record of a response to a query for `q` adds to the records under `t` and `k`. -/
def addedNodes (t : CacheType) (k : CString) (now : ℤ) (q : CString) (rrType : RrType)
    (rr : DnsResourceRecord) : List ListNode :=
  if q = k ∧ cacheTypeOf rr.type = some t then [recordNode now rrType rr] else []

variable {es : List (InAddr × CString)} {S : Set ℕ} {cls : ℕ → Option CacheType × CString}
  {c₀ c c' : Cache} {t t' : CacheType} {k k' : CString} {ns base : List ListNode} {l p τ : ℕ}
  {now : ℤ} {log : List Logged}

theorem Cache.Records.unique (hI : c.IndexInv) {ns' : List ListNode} (h : c.Records t k ns)
    (h' : c.Records t k ns') : ns = ns' := by
  rcases h with ⟨hn, rfl⟩ | ⟨l, s, ids, hl, hc, rfl⟩
  · rcases h' with ⟨-, rfl⟩ | ⟨l', s', ids', hl', -⟩
    · rfl
    · exact absurd hl' (hn l')
  · rcases h' with ⟨hn, -⟩ | ⟨l', s', ids', hl', hc', rfl⟩
    · exact absurd hl (hn l)
    · obtain rfl := hI.has_unique hl hl'
      rw [(List.cons.inj (hc.unique hc')).2]

theorem Untouched.records (h : Untouched t k c c') (hr : c.Records t k ns) :
    c'.Records t k ns := by
  rcases hr with ⟨hn, rfl⟩ | ⟨l, s, ids, hl, hc, rfl⟩
  · exact .inl ⟨fun l hl => hn l ((h.has l).mp hl), rfl⟩
  · refine .inr ⟨l, s, ids, (h.has l).mpr hl, h.chain hl hc, ?_⟩
    refine (Heap.infosAt_congr fun i hi => ?_).symm
    rw [Heap.info, Heap.info, h.node hl hc (List.mem_cons_of_mem s hi)]

/-- The class of a list of its own belongs to no other type and key. -/
theorem classOf_ne (hz : (zeroAddr, k) ∉ es) (hne : (t, k) ≠ (t', k')) :
    classOf es t k ≠ classOf es t' k' := by
  intro h
  rw [classOf, if_neg hz, classOf] at h
  obtain ⟨ht, rfl⟩ := Prod.mk.inj h
  rw [if_neg hz] at ht
  exact hne (Prod.ext (Option.some.inj ht) rfl)

/-- **An update leaves the lists of the other classes alone**. -/
theorem ClassInv.untouched_update {γ : Type} {of : CacheType → CString → γ} {cls : ℕ → γ}
    (hC : ClassInv of cls c) (hI : c.Inv S) (hl : c.Has t' k' l) (hof : of t k ≠ of t' k')
    {heap : Heap} {size : UInt64} (hup : listUpdate c.heap l now = .ok (heap, size)) :
    Untouched t k c (c.withHeap heap) ∧ ∀ {l'}, c.Has t k l' → heap.list l' = c.heap.list l' := by
  obtain ⟨s, ids, hc⟩ := hI.chain hl
  have hother : ∀ {l'}, c.Has t k l' → l' ≠ l := by
    rintro l' hl' rfl
    obtain ⟨rfl, rfl⟩ := hI.index.inj hl' hl
    exact hof rfl
  have hdisjoint : ∀ {l' ids'}, c.Has t k l' → c.heap.Chain l' ids' → (s :: ids).Disjoint ids' :=
    fun hl' hc' i hi hi' => hof
      ((hC.mem_chain hl' hc' i hi').symm.trans (hC.mem_chain hl hc i hi))
  refine ⟨⟨fun _ => Iff.rfl, fun hl' hc' => ?_, fun hl' hc' hi => ?_⟩, fun hl' => ?_⟩
  · exact listUpdate_chain_of_disjoint hI.heap hc hup hc' (hother hl') (hdisjoint hl' hc')
  · exact listUpdate_node hI.heap hc hup fun hi' => hdisjoint hl' hc' hi' hi
  · exact listUpdate_list hI.heap hc hup (hother hl')

/-- A list with a tail that ends it is a list of its own, whatever its records. -/
theorem Cache.exists_own (hI : c.Inv S) (htail : ∀ {l}, c.Has t k l → c.heap.TailLast l) :
    ∃ ns, c.Own t k ns := by
  by_cases hl : ∃ l, c.Has t k l
  · obtain ⟨l, hl⟩ := hl
    obtain ⟨s, ids, hc⟩ := hI.chain hl
    exact ⟨_, .inr ⟨l, s, ids, hl, hc, rfl⟩, htail⟩
  · exact ⟨[], .inl ⟨fun l h => hl ⟨l, h⟩, rfl⟩, htail⟩

namespace Cache.Own

/-- A list that is untouched, with its tail. -/
theorem untouched (hO : c.Own t k ns) (h : Untouched t k c c')
    (hlist : ∀ {l}, c.Has t k l → c'.heap.list l = c.heap.list l) : c'.Own t k ns where
  records := h.records hO.records
  tail {l} hl := by
    have hl := (h.has l).mp hl
    obtain ⟨list, ids, x, hx, htail, hc⟩ := hO.tail hl
    exact ⟨list, ids, x, (hlist hl).trans hx, htail, h.chain hl hc⟩

/-- An insert under another type or key. -/
theorem insert_other (hO : c.Own t k ns) (hI : c.Inv S) (hC : ClassInv (classOf es) cls c)
    (hz : (zeroAddr, k) ∉ es) (hp : c.heap.Unlinked p) (hi : Inserted c t' k' p l τ c')
    (hne : (t, k) ≠ (t', k')) : c'.Own t k ns :=
  hO.untouched (hi.untouched hI hp (hC.tail_notMem hi (classOf_ne hz hne)) (.inl hne))
    fun hl => hi.list (hi.ne hI.index hl hne)

/-- **An insert puts its node behind the others**. -/
theorem insert_self (hO : c.Own t k ns) (hI : c.Inv S) (hp : c.heap.Unlinked p) {n : ListNode}
    (hn : c.heap.info p = some n) (hi : Inserted c t k p l τ c') (hI' : c'.IndexInv) :
    c'.Own t k (ns ++ [n]) := by
  have hnode : c'.heap.infosAt [p] = [n] := by
    simp [Heap.infosAt, hi.info hn]
  refine ⟨.inr ?_, fun {l'} hl' => ?_⟩
  · rcases hO.records with ⟨hno, rfl⟩ | ⟨l₀, s, ids, hl₀, hc, rfl⟩
    · exact ⟨l, τ, [p], hi.has_self, hi.fresh_chain hp hno, hnode.symm⟩
    rcases hi.target with ⟨list, hl, -⟩ | ⟨hno, -⟩
    · obtain rfl := hI.index.has_unique hl hl₀
      refine ⟨l, s, ids ++ [p], hi.has_self, hi.chain_last hp hl (hO.tail hl) hc, ?_⟩
      -- the nodes in front keep what they say
      have hold : c'.heap.infosAt ids = c.heap.infosAt ids := by
        apply Heap.infosAt_congr
        intro i hmem
        obtain ⟨-, -, -, hlive⟩ := hc
        obtain ⟨m, hm⟩ := Heap.exists_info (hlive i (List.mem_cons_of_mem s hmem))
        exact (hi.info hm).trans hm.symm
      rw [← hold, ← hnode]
      exact List.filterMap_append.symm
    · exact absurd hl₀ (hno l₀)
  · obtain rfl := hI'.has_unique hi.has_self hl'
    exact hi.tailLast hp fun _ => hO.tail

/-- **What a record does** to a list of its own. -/
theorem record (hO : c.Own t k ns) (hI : c.Inv S) (hC : ClassInv (classOf es) cls c)
    (hz : (zeroAddr, k) ∉ es) (hv : invalidKey k = false) {q : CString} {rrType : RrType}
    {rr : DnsResourceRecord} (hr : cacheRecord now q rrType c rr = .ok (c', p)) :
    c'.Own t k (ns ++ addedNodes t k now q rrType rr) := by
  have hI₁ := hI.alloc (n := recordNode now rrType rr) rfl rfl
  have hC₁ := hC.alloc (n := recordNode now rrType rr) hI rfl (recordClass es q rr)
  have hp := hI.unlinked_record now rrType rr
  have hO₁ := hO.untouched (.alloc (n := recordNode now rrType rr) rfl) fun _ => rfl
  have hadded : ∀ t', cacheTypeOf rr.type = some t' → (t, k) ≠ (t', q) →
      addedNodes t k now q rrType rr = [] := fun t' ht hne => if_neg fun ⟨hq, ht'⟩ =>
    hne (Prod.ext (Option.some.inj (ht'.symm.trans ht)) hq.symm)
  obtain ⟨rfl, ⟨hno, rfl⟩ | ⟨t', ht, hins⟩⟩ := cacheRecord_cases hr
  · -- a type that is not cached
    rwa [addedNodes, if_neg (by simp [hno]), List.append_nil]
  rcases cacheInsert_inserted hI₁.index hins with ⟨hinv, rfl⟩ | ⟨-, l, τ, hi⟩
  · rw [hadded t' ht fun e => by simp [← (Prod.mk.inj e).2, hv] at hinv, List.append_nil]
    exact hO₁
  by_cases he : (t, k) = (t', q)
  · obtain ⟨rfl, rfl⟩ := Prod.mk.inj he
    rw [addedNodes, if_pos ⟨rfl, ht⟩]
    refine hO₁.insert_self hI₁ hp ?_ hi (cacheInsert_inv hI₁.index hins)
    rw [Cache.withHeap_heap, Heap.allocNode_info, Function.update_self]
    rfl
  · rw [hadded t' ht he, List.append_nil]
    exact hO₁.insert_other hI₁ hC₁ hz hp hi he

/-- **An update drops the expired nodes**. -/
theorem update_self (hO : c.Own t k ns) (hI : c.Inv S) (hl : c.Has t k l) {heap : Heap}
    {size : UInt64} (hup : listUpdate c.heap l now = .ok (heap, size)) :
    (c.withHeap heap).Own t k (ns.filter (!·.expired now)) := by
  rcases hO.records with ⟨hno, -⟩ | ⟨l₀, s, ids, hl₀, hc, rfl⟩
  · exact absurd hl (hno l)
  obtain rfl := hI.index.has_unique hl hl₀
  -- the head never expires
  have hc' := (listUpdate_chain hI.heap hc hup).2
  rw [List.filter_cons_of_pos (by simp [hI.heap.head_not_expired hc now])] at hc'
  refine ⟨.inr ⟨l, s, _, hl, hc', ?_⟩, fun {l'} hl' => ?_⟩
  · rw [← Heap.infosAt_filter]
    obtain ⟨-, -, -, hlive⟩ := hc'
    exact (Heap.infosAt_congr fun i hi =>
      listUpdate_info_eq hI.heap hc hup (hlive i (List.mem_cons_of_mem s hi))).symm
  · obtain rfl := hI.index.has_unique hl hl'
    exact listUpdate_keeps (P := fun h => h.TailLast l) hI.heap hc hup (hO.tail hl)
      fun hP he => he.unlinks.tailLast hP

/-- An update of another list. -/
theorem update_other (hO : c.Own t k ns) (hI : c.Inv S) (hC : ClassInv (classOf es) cls c)
    (hz : (zeroAddr, k) ∉ es) (hl : c.Has t' k' l) (hne : (t, k) ≠ (t', k')) {heap : Heap}
    {size : UInt64} (hup : listUpdate c.heap l now = .ok (heap, size)) :
    (c.withHeap heap).Own t k ns := by
  obtain ⟨huntouched, hlist⟩ := hC.untouched_update hI hl (classOf_ne hz hne) hup
  exact hO.untouched huntouched hlist

end Cache.Own

/-! ## Runs -/

/-- **What was learned behind `base`**: the list under `t` and `k` starts with the nodes `base`,
and the others satisfy `Q`. -/
def Cache.Learned (c : Cache) (t : CacheType) (k : CString) (base : List ListNode)
    (Q : ListNode → Prop) : Prop :=
  ∃ ns, c.Own t k (base ++ ns) ∧ ∀ n ∈ ns, Q n

variable {Q : ListNode → Prop}

theorem Cache.Learned.record (hL : c.Learned t k base Q) (hI : c.Inv S)
    (hC : ClassInv (classOf es) cls c) (hz : (zeroAddr, k) ∉ es) (hv : invalidKey k = false)
    {q : CString} {rrType : RrType} {rr : DnsResourceRecord}
    (hQ : q = k → cacheTypeOf rr.type = some t → Q (recordNode now rrType rr))
    (hr : cacheRecord now q rrType c rr = .ok (c', p)) : c'.Learned t k base Q := by
  obtain ⟨ns, hO, hns⟩ := hL
  refine ⟨ns ++ addedNodes t k now q rrType rr, ?_, fun n hn => ?_⟩
  · rw [← List.append_assoc]
    exact hO.record hI hC hz hv hr
  · rcases List.mem_append.mp hn with hn | hn
    · exact hns n hn
    · rw [addedNodes] at hn
      split_ifs at hn with h
      · rw [List.mem_singleton.mp hn]
        exact hQ h.1 h.2
      · cases hn

theorem Cache.Learned.update (hL : c.Learned t k base Q) (hI : c.Inv S)
    (hC : ClassInv (classOf es) cls c) (hz : (zeroAddr, k) ∉ es) (hbase : ∀ n ∈ base, n.ttl = 0)
    (hl : c.Has t' k' l) {heap : Heap} {size : UInt64}
    (hup : listUpdate c.heap l now = .ok (heap, size)) :
    (c.withHeap heap).Learned t k base Q := by
  obtain ⟨ns, hO, hns⟩ := hL
  by_cases he : (t, k) = (t', k')
  · obtain ⟨rfl, rfl⟩ := Prod.mk.inj he
    have hkept : base.filter (!·.expired now) = base :=
      List.filter_eq_self.mpr fun n hn => by simp [ListNode.expired, hbase n hn]
    refine ⟨ns.filter (!·.expired now), ?_, fun n hn => hns n (List.mem_filter.mp hn).1⟩
    have hO' := hO.update_self hI hl hup
    rwa [List.filter_append, hkept] at hO'
  · exact ⟨ns, hO.update_other hI hC hz hl he hup, hns⟩

/-- **A run only puts nodes behind those a list starts with**, when these never expire. -/
theorem Cache.Run.learned (hrun : c₀.Run log c) (hI₀ : c₀.Inv S)
    (hC₀ : ClassInv (classOf es) cls c₀) (hz : (zeroAddr, k) ∉ es) (hv : invalidKey k = false)
    (hbase : ∀ n ∈ base, n.ttl = 0) (h₀ : c₀.Learned t k base Q)
    (hQ : ∀ e ∈ log, e.response.header.rcode = ReplyCode.noError.toBits →
      e.response.question.qname = k → ∀ rrType, ∀ rr ∈ e.response.records rrType,
        cacheTypeOf rr.type = some t → Q (recordNode e.now rrType rr)) :
    c.Learned t k base Q := by
  induction hrun with
  | start => exact h₀
  | @response log c c' now r nodes hrun hr ih =>
    have ih := ih fun e he => hQ e (List.mem_append_left _ he)
    have hr₀ := hQ ⟨now, r, nodes⟩ (List.mem_append_right _ (List.mem_singleton_self _))
    by_cases hcode : r.header.rcode = ReplyCode.noError.toBits
    · -- record by record, with the classes of the nodes so far
      obtain ⟨cls, hC, -⟩ := hrun.classes hI₀ hC₀
      refine (cacheResponse_induction (P := fun _ c => (∃ cls, c.Inv S ∧
        ClassInv (classOf es) cls c) ∧ c.Learned t k base Q) hcode ?_
        ⟨⟨cls, hrun.inv hI₀, hC⟩, ih⟩ hr).2
      rintro rrType done rr c c' p hrr ⟨⟨cls, hI, hC⟩, hL⟩ hr
      obtain ⟨cls', hC', -⟩ := cacheRecord_class hC hI hr
      exact ⟨⟨cls', cacheRecord_inv hI hr, hC'⟩,
        hL.record hI hC hz hv (fun hq ht => hr₀ hcode hq rrType rr hrr ht) hr⟩
    · rwa [cacheResponse_of_error hcode hr]
  | lookup hrun hr ih =>
    have hI := hrun.inv hI₀
    obtain ⟨cls, hC, -⟩ := hrun.classes hI₀ hC₀
    rcases handleReadCache_cases hr with ⟨rfl, -⟩ | ⟨t', l, heap, size, _, -, hf, hup, rfl, -⟩
    · exact ih hQ
    · exact (ih hQ).update hI hC hz hbase (cacheFind_eq_some hI.index hf).1 hup

/-- **The tails of a domain that is not blocked** end their lists, whatever was cached and looked up
since the load. -/
theorem Cache.Run.tailLast {file : List UInt8} (hrun : c₀.Run log c)
    (hload : readHostsFile Cache.init file = .ok c₀) (hb : ¬ IsBlocked file k) (hl : c.Has t k l) :
    c.heap.TailLast l := by
  obtain ⟨hv, -⟩ := id hl
  have hz : (zeroAddr, k) ∉ hostsEntries file := fun h => hb ⟨h, hv⟩
  obtain ⟨S, cls, hL⟩ := (readHostsFile_loaded hload).load
  have hP := (readHostsFile_loaded hload).domain k hv
  rw [if_neg hz] at hP
  obtain ⟨ns, hO⟩ := Cache.exists_own (t := t) hL.inv fun {l} h => by
    obtain rfl := hP.absent h
    exact hP.tail h
  have h₀ : c₀.Learned t k [] fun _ => True := ⟨ns, hO, fun _ _ => trivial⟩
  obtain ⟨ns, hO, -⟩ := hrun.learned hL.inv hL.cls hz hv (List.forall_mem_nil _) h₀
    fun _ _ _ _ _ _ _ _ => trivial
  exact hO.tail hl

end Adrift
