import Mathlib.Algebra.Group.Nat.Defs
import Adrift.Protocol.CacheRun

/-!
# Replies from the cache

`handle_read_cache` counts, tests and writes the nodes that an update left of one list. What it
does with them depends on their information only, and updates keep that.

## Main definitions

* `Heap.infosAt`: the information of the nodes at given pointers
* `Lookup c now question t l ids c'`: the situation of a lookup that finds the list `l`
* `sectionCount`: the number of nodes of a section

## Main results

* `foldl_countNode`: the counts of a reply are those of the sections modulo `2 ^ 16`
* `handleReadCache_lookup`: a lookup misses, or replies from the unexpired nodes of a list
-/

namespace Adrift

open Outcome

/-- The information of the nodes at given pointers. -/
def Heap.infosAt (h : Heap) (ids : List ℕ) : List ListNode := ids.filterMap h.info

theorem Heap.nodesAt_unlinked (h : Heap) (ids : List ℕ) :
    (h.nodesAt ids).map (·.2.unlinked) = h.infosAt ids := by
  rw [nodesAt, infosAt, List.map_filterMap]
  apply List.filterMap_congr
  intro i _
  rw [Heap.info, Option.map_map]
  rfl

theorem Heap.infosAt_congr {h h' : Heap} {ids : List ℕ} (hi : ∀ i ∈ ids, h'.info i = h.info i) :
    h'.infosAt ids = h.infosAt ids :=
  List.filterMap_congr hi

theorem Heap.mem_infosAt {h : Heap} {ids : List ℕ} {n : ListNode} :
    n ∈ h.infosAt ids ↔ ∃ i ∈ ids, h.info i = some n := List.mem_filterMap

theorem Heap.infosAt_filter (h : Heap) (ids : List ℕ) (now : ℤ) :
    h.infosAt (ids.filter (!h.expiredAt now ·)) = (h.infosAt ids).filter (!·.expired now) := by
  induction ids with
  | nil => rfl
  | cons i ids ih =>
    simp only [infosAt, expiredAt] at ih ⊢
    cases hi : h.info i with
    | none => simp [hi, ih]
    | some n => cases hexp : n.expired now <;> simp [hi, hexp, ih]

/-! ## Counts -/

/-- The number of nodes of a section. -/
def sectionCount (rrType : RrType) (nodes : List ListNode) : ℕ :=
  nodes.countP (·.type = some rrType)

/-- **The counting loop** adds the sizes of the sections, modulo `2 ^ 16`. -/
theorem foldl_countNode (nodes : List ListNode) (h : DnsHeader) : nodes.foldl countNode h =
    { h with
      ancount := h.ancount + .ofNat (sectionCount .answer nodes)
      nscount := h.nscount + .ofNat (sectionCount .authority nodes)
      arcount := h.arcount + .ofNat (sectionCount .additional nodes) } := by
  induction nodes generalizing h with
  | nil => simp [sectionCount]
  | cons n nodes ih =>
    rw [List.foldl_cons, ih]
    simp only [sectionCount, List.countP_cons, countNode]
    cases n.type with
    | none => simp
    | some rrType => cases rrType <;> simp [UInt16.ofNat_add, UInt16.add_comm, UInt16.add_assoc]

/-- The header of a cached reply has records unless the sizes of all sections wrap to zero. -/
theorem hasRecords_foldl_countNode (nodes : List ListNode) (header : DnsHeader) :
    (nodes.foldl countNode (cachedHeader header)).hasRecords = true ↔
      ∃ rrType, sectionCount rrType nodes % 2 ^ 16 ≠ 0 := by
  have hzero : ∀ n : ℕ, UInt16.ofNat n = 0 ↔ n % 2 ^ 16 = 0 := fun n => by
    rw [← UInt16.toNat_inj, UInt16.toNat_ofNat]
    rfl
  rw [foldl_countNode]
  simp only [DnsHeader.hasRecords, cachedHeader, getDefaultHeader, UInt16.zero_add, ne_eq, hzero,
    decide_eq_true_eq]
  constructor
  · rintro (h | h | h)
    · exact ⟨.answer, h⟩
    · exact ⟨.authority, h⟩
    · exact ⟨.additional, h⟩
  · rintro ⟨_ | _ | _, h⟩
    · exact .inl h
    · exact .inr (.inl h)
    · exact .inr (.inr h)

/-! ## Lookups -/

/-- **A lookup that finds a list**: the nodes `ids` of the list `l` are updated, and those that
are not expired stay. -/
structure Lookup (S : Set ℕ) (c : Cache) (now : ℤ) (question : DnsQuestion) (t : CacheType) (l : ℕ)
    (ids : List ℕ) (c' : Cache) : Prop where
  type : cacheTypeOf question.qtype = some t
  has : c.Has t question.qname l
  safe : KeySafe question.qname
  chain : c.heap.Chain l ids
  update : ∃ heap size, listUpdate c.heap l now = .ok (heap, size) ∧ c' = c.withHeap heap
  inv : c'.Inv S
  kept : c'.heap.Chain l (ids.filter (!c.heap.expiredAt now ·))
  info : ∀ i ∈ ids.filter (!c.heap.expiredAt now ·), c'.heap.info i = c.heap.info i

variable {S : Set ℕ} {c c' : Cache} {now : ℤ} {question : DnsQuestion} {t : CacheType} {l : ℕ}
  {ids : List ℕ} {header : DnsHeader}

/-- The nodes a lookup leaves, seen before and after. -/
theorem Lookup.infosAt (hL : Lookup S c now question t l ids c') :
    c'.heap.infosAt (ids.filter (!c.heap.expiredAt now ·)) =
      c.heap.infosAt (ids.filter (!c.heap.expiredAt now ·)) :=
  Heap.infosAt_congr hL.info

/-- A question is looked up in one list. -/
theorem Lookup.unique (hL : Lookup S c now question t l ids c') (hI : c.IndexInv) {t' : CacheType}
    {l' : ℕ} {ids' : List ℕ} (ht : cacheTypeOf question.qtype = some t')
    (hl : c.Has t' question.qname l') (hc : c.heap.Chain l' ids') :
    t' = t ∧ l' = l ∧ ids' = ids := by
  obtain rfl := Option.some.inj (ht.symm.trans hL.type)
  obtain rfl := hI.has_unique hl hL.has
  exact ⟨rfl, rfl, hc.unique hL.chain⟩

theorem Cache.Inv.lookup (hI : c.Inv S) (ht : cacheTypeOf question.qtype = some t)
    (hf : cacheFind c t question.qname = .ok (some l)) {heap : Heap} {size : UInt64}
    (hup : listUpdate c.heap l now = .ok (heap, size)) :
    ∃ ids, Lookup S c now question t l ids (c.withHeap heap) := by
  obtain ⟨hl, hk⟩ := cacheFind_eq_some hI.index hf
  obtain ⟨s, ids, hc⟩ := hI.chain hl
  have hkept := (listUpdate_chain hI.heap hc hup).2
  refine ⟨s :: ids, ht, hl, hk, hc, ⟨heap, size, hup, rfl⟩, hI.update (hI.index.live hl) hup,
    hkept, fun i hi => ?_⟩
  obtain ⟨-, -, -, hlive⟩ := hkept
  exact listUpdate_info_eq hI.heap hc hup (hlive i hi)

/-- **What a lookup does**: it misses, or replies from the unexpired nodes of a list. -/
theorem handleReadCache_lookup (hI : c.Inv S) {r : ReadCache}
    (hr : handleReadCache c now header question = .ok (c', r)) :
    c' = c ∧ r = .miss ∨ ∃ t l ids, Lookup S c now question t l ids c' ∧
      replyFrom c' now header question
        (c'.heap.nodesAt (ids.filter (!c.heap.expiredAt now ·))) = .ok r := by
  rcases handleReadCache_cases hr with h | ⟨t, l, heap, size, nodes, ht, hf, hup, rfl, hnodes, hr⟩
  · exact .inl h
  obtain ⟨ids, hL⟩ := hI.lookup ht hf hup
  obtain ⟨ids', hc', rfl⟩ := Heap.listNodes_eq_ok.mp hnodes
  rw [hc'.unique hL.kept] at hr
  exact .inr ⟨t, l, ids, hL, hr⟩

/-- A lookup that finds a list replies from its unexpired nodes. -/
theorem handleReadCache_found (hI : c.Inv S) (ht : cacheTypeOf question.qtype = some t)
    (hf : cacheFind c t question.qname = .ok (some l)) {r : ReadCache}
    (hr : handleReadCache c now header question = .ok (c', r)) :
    ∃ ids, Lookup S c now question t l ids c' ∧ replyFrom c' now header question
      (c'.heap.nodesAt (ids.filter (!c.heap.expiredAt now ·))) = .ok r := by
  obtain ⟨list, hlist, hr⟩ := bind_eq_ok.mp hr
  rw [questionList_eq_some.mpr ⟨t, ht, hf⟩] at hlist
  cases hlist
  obtain ⟨⟨heap, size⟩, hup, hr⟩ := bind_eq_ok.mp hr
  obtain ⟨nodes, hnodes, hr⟩ := bind_eq_ok.mp hr
  obtain ⟨r', hreply, hr⟩ := bind_eq_ok.mp hr
  cases hr
  obtain ⟨ids, hL⟩ := hI.lookup ht hf hup
  obtain ⟨ids', hc', rfl⟩ := Heap.listNodes_eq_ok.mp hnodes
  rw [hc'.unique hL.kept] at hreply
  exact ⟨ids, hL, hreply⟩

/-- The counting loop over the nodes a lookup leaves. -/
theorem foldl_countNode_nodesAt (h : Heap) (ids : List ℕ) (header : DnsHeader) :
    ((h.nodesAt ids).map Prod.snd).foldl countNode header =
      (h.infosAt ids).foldl countNode header := by
  rw [← Heap.nodesAt_unlinked, List.foldl_map, List.foldl_map]
  rfl

theorem any_isZero_nodesAt (h : Heap) (ids : List ℕ) :
    (h.nodesAt ids).any (·.2.isZero) = (h.infosAt ids).any (·.isZero) := by
  rw [← Heap.nodesAt_unlinked, List.any_map]
  rfl

end Adrift
