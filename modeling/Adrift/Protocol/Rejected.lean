import Adrift.Protocol.Bounds
import Adrift.Protocol.Learned
import Adrift.Protocol.Relay
import Adrift.Protocol.ServerRun

/-!
# Rejected responses

A response whose slot is not valid is cached before it is rejected. A record is pushed behind the
tail of the list of its type under the name of the question, and a lookup meets it unless the tail
is itself on none of these lists: the lists of a blocked domain share the zero node, and a push
onto one of them cuts off what was pushed onto another. A name that does not fit into the index is
stored in a field without a terminator, where its lookup then leaves the field.

## Main definitions

* `SameContents c c'`: all lookups give the same result, be it nodes, nothing or a fault
* `Cache.TailHidden c t k`: no list under `k` has the tail of the list under `t` and `k`
* `Ignores c r`: the response brings no record that a lookup meets

## Main results

* `Inserted.holds_pushed`: what a push adds to the lists of its key
* `Changed.not_sameContents`: what a record that is met changes
* `cacheResponse_sameContents`: the contents are the same exactly when the response is ignored
* `rejected_response_iff`: a rejected response is processed without an effect exactly when it is
  ignored
-/

namespace Adrift

open Outcome

/-! ## Contents -/

/-- What a lookup finds: no list, or the nodes of a list. -/
def Cache.contents (c : Cache) (t : CacheType) (k : CString) :
    Except Fault (Option (List (ℕ × ListNode))) := do
  match ← cacheFind c t k with
  | none => return none
  | some l => return some (← listNodes c.heap l)

/-- **The contents are the same**: under every type and key a lookup finds the same nodes, or none
as before, or faults as before. -/
def SameContents (c c' : Cache) : Prop := ∀ t k, c'.contents t k = c.contents t k

/-- Some list under the key `k` has the node `x`. -/
def Cache.Holds (c : Cache) (k : CString) (x : ℕ) : Prop :=
  ∃ t l ids, c.Has t k l ∧ c.heap.Chain l ids ∧ x ∈ ids

/-- **The tail is hidden**: the key fits into the index, and its list of the type has a live tail
that no list under the key has. -/
def Cache.TailHidden (c : Cache) (t : CacheType) (k : CString) : Prop :=
  KeySafe k ∧ ∃ l list τ, c.Has t k l ∧ c.heap.list l = some list ∧ list.tail = some τ ∧
    (c.heap.node τ).isSome ∧ ¬ c.Holds k τ

/-- The records are of types that are not cached, or whose list under `k` has a hidden tail. -/
def Unmet (c : Cache) (k : CString) (rrs : List DnsResourceRecord) : Prop :=
  ∀ rr ∈ rrs, ∀ t, cacheTypeOf rr.type = some t → c.TailHidden t k

/-- **An ignored response**: it has an error code, the guard of the cache drops the name of its
question, or no lookup meets its records. -/
def Ignores (c : Cache) (r : Response) : Prop :=
  r.header.rcode ≠ ReplyCode.noError.toBits ∨ invalidKey r.question.qname = true ∨
    Unmet c r.question.qname (r.answer ++ r.authority ++ r.additional)

/-- The indices of two caches are the same. -/
def SameIndex (c c' : Cache) : Prop := c'.trie = c.trie ∧ c'.hashMap = c.hashMap

variable {S : Set ℕ} {c c' c'' : Cache} {d k : CString} {t : CacheType} {l l' p x τ : ℕ}

namespace SameIndex

theorem refl (c : Cache) : SameIndex c c := ⟨rfl, rfl⟩

theorem withHeap (c : Cache) (heap : Heap) : SameIndex c (c.withHeap heap) := ⟨rfl, rfl⟩

theorem trans (h : SameIndex c c') (h' : SameIndex c' c'') : SameIndex c c'' :=
  ⟨h'.1.trans h.1, h'.2.trans h.2⟩

theorem cacheFind (h : SameIndex c c') (t : CacheType) (k : CString) :
    cacheFind c' t k = cacheFind c t k := by
  rw [Adrift.cacheFind, Adrift.cacheFind, h.1, h.2]

/-- **The contents are the same** when the index is, and the lists are untouched. -/
theorem contents (h : SameIndex c c') (hI : c.Inv S) (hu : Untouched t k c c') :
    c'.contents t k = c.contents t k := by
  rw [Cache.contents, Cache.contents, h.cacheFind]
  cases hf : Adrift.cacheFind c t k with
  | error e => rfl
  | ok o =>
    cases o with
    | none => rfl
    | some l =>
      obtain ⟨hl, -⟩ := cacheFind_eq_some hI.index hf
      obtain ⟨s, ids, hc⟩ := hI.chain hl
      have hnodes := Heap.nodesAt_congr fun i hi => hu.node hl hc hi
      simp only [ok_bind, Heap.listNodes_eq_ok.mpr ⟨_, hc, rfl⟩,
        Heap.listNodes_eq_ok.mpr ⟨_, hu.chain hl hc, rfl⟩, hnodes]

end SameIndex

namespace Untouched

theorem holds (h : ∀ t, Untouched t d c c') (hI : c.Inv S) : c'.Holds d x ↔ c.Holds d x := by
  constructor
  · rintro ⟨t, l, ids, hl, hc, hx⟩
    have hl := ((h t).has l).mp hl
    obtain ⟨s, ids', hc'⟩ := hI.chain hl
    obtain rfl := hc.unique ((h t).chain hl hc')
    exact ⟨t, l, _, hl, hc', hx⟩
  · rintro ⟨t, l, ids, hl, hc, hx⟩
    exact ⟨t, l, ids, ((h t).has l).mpr hl, (h t).chain hl hc, hx⟩

end Untouched

/-! ## Pushes -/

/-- A push behind a node that is on a list of `d` puts the pushed node on the list. -/
theorem Inserted.holds_of_tail (hi : Inserted c t k p l τ c') (hI : c.IndexInv)
    (hp : c.heap.Unlinked p) (hτ : c.Holds d τ) : c'.Holds d p := by
  obtain ⟨t', l', ids, hl, hc, hτ⟩ := hτ
  obtain ⟨h₀, hpushed⟩ := hi.pushed
  have hp₀ := hpushed.base_unlinked hp
  obtain ⟨as, bs, rfl⟩ := List.append_of_mem hτ
  refine ⟨t', l', as ++ [τ, p], hi.has_old hI hl, ?_, by simp⟩
  rw [hpushed.heap]
  exact (hpushed.base_chain hc).push_mem hp₀.isSome hp₀.next (hpushed.ne_of_unlinked hp)

/-- A node on a list of `d` stays on one, unless the pushed node takes its place. -/
theorem Inserted.holds (hi : Inserted c t k p l τ c') (hI : c.IndexInv) (hp : c.heap.Unlinked p)
    (hx : c.Holds d x) : c'.Holds d x ∨ c'.Holds d p := by
  by_cases hτ : c.Holds d τ
  · exact .inr (hi.holds_of_tail hI hp hτ)
  · obtain ⟨t', l', ids, hl, hc, hx⟩ := hx
    obtain ⟨h₀, hpushed⟩ := hi.pushed
    refine .inl ⟨t', l', ids, hi.has_old hI hl, ?_, hx⟩
    rw [hpushed.heap]
    exact (hpushed.base_chain hc).push_of_notMem hpushed.live fun h => hτ ⟨t', l', ids, hl, hc, h⟩

/-- **A push that a lookup meets**: unless the tail of its list is hidden, the node is on a list of
the key afterwards. -/
theorem Inserted.holds_pushed (hi : Inserted c t k p l τ c') (hI : c.IndexInv) (hk : KeySafe k)
    (hp : c.heap.Unlinked p) (hτ : ¬ c.TailHidden t k) : c'.Holds k p := by
  rcases hi.target with ⟨list, hl, hlist, htail, -⟩ | ⟨hn, -⟩
  · have hlive := (hi.pushed_old hI hl).live
    refine hi.holds_of_tail hI hp (not_not.mp fun h => hτ ?_)
    exact ⟨hk, l, list, τ, hl, hlist, htail, hlive, h⟩
  · exact ⟨t, l, [τ, p], hi.has_self, hi.fresh_chain hp hn, by simp⟩

/-- The tails that were hidden before a push onto a list with a hidden tail are those hidden
after. -/
theorem Inserted.tailHidden (hi : Inserted c t k p l τ c') (hI : c.Inv S)
    (hp : c.heap.Unlinked p) (hu : ∀ t, Untouched t k c c') (hhidden : c.TailHidden t k)
    (t' : CacheType) : c'.TailHidden t' k ↔ c.TailHidden t' k := by
  obtain ⟨hk, l₀, list₀, τ₀, hl₀, -⟩ := id hhidden
  by_cases ht : t' = t
  · -- the new tail is not on a list either
    subst ht
    refine iff_of_true ?_ hhidden
    have hheld : ¬ c'.Holds k p := by
      rw [Untouched.holds hu hI]
      rintro ⟨t₁, l₁, ids, -, hc, hmem⟩
      exact hp.notMem hI.heap hc hmem
    rcases hi.target with ⟨list, -, -, -, hlist⟩ | ⟨hn, -⟩
    · exact ⟨hk, l, _, p, hi.has_self, hlist, rfl, hi.isSome hp.isSome, hheld⟩
    · exact absurd hl₀ (hn l₀)
  · have hne : (t', k) ≠ (t, k) := fun e => ht (Prod.mk.inj e).1
    have hlive : ∀ x, (c'.heap.node x).isSome = (c.heap.node x).isSome := fun x => by
      rw [(hi.pushed_old hI.index hl₀).heap, Heap.pushedHeap_isSome]
    refine and_congr_right fun _ => exists_congr fun l' => exists_congr fun list =>
      exists_congr fun x => ?_
    rw [hi.has_other hne, Untouched.holds hu hI, hlive]
    apply and_congr_right
    intro hl
    rw [hi.list (hi.ne hI.index hl hne)]

/-! ## Records -/

/-- **The invariant of the cache over its keys**: nodes are linked under one key only. -/
def Keyed (c : Cache) : Prop :=
  ∃ S cls, c.Inv S ∧ ClassInv (fun _ k => k) cls c

variable {now : ℤ} {qname : CString} {rrType : RrType} {rr : DnsResourceRecord}

theorem Keyed.record (hK : Keyed c) (hr : cacheRecord now qname rrType c rr = .ok (c', p)) :
    Keyed c' := by
  obtain ⟨S, cls, hI, hC⟩ := hK
  have hI₁ := hI.alloc (n := recordNode now rrType rr) rfl rfl
  have hC₁ := hC.alloc (n := recordNode now rrType rr) hI rfl qname
  have hI' := cacheRecord_inv hI hr
  obtain ⟨rfl, ⟨-, rfl⟩ | ⟨t, -, hins⟩⟩ := cacheRecord_cases hr
  · exact ⟨S, _, hI', hC₁⟩
  · have hp : Function.update cls c.heap.nextNode qname c.heap.nextNode = qname :=
      Function.update_self ..
    obtain ⟨cls', hC', -⟩ := hC₁.insert hI₁ hp (Nat.lt_succ_self _) hins
    exact ⟨S, cls', hI', hC'⟩

/-- **A record leaves the lists of the other keys**. -/
theorem cacheRecord_untouched (hK : Keyed c) (hd : qname ≠ d)
    (hr : cacheRecord now qname rrType c rr = .ok (c', p)) (t : CacheType) :
    Untouched t d c c' := by
  obtain ⟨S, cls, hI, hC⟩ := hK
  have halloc : Untouched t d c _ := .alloc (n := recordNode now rrType rr) rfl
  obtain ⟨rfl, ⟨-, rfl⟩ | ⟨t', -, hins⟩⟩ := cacheRecord_cases hr
  · exact halloc
  · have hI₁ := hI.alloc (n := recordNode now rrType rr) rfl rfl
    have hC₁ := hC.alloc (n := recordNode now rrType rr) hI rfl qname
    rcases cacheInsert_inserted hI₁.index hins with ⟨-, rfl⟩ | ⟨-, l, τ, hi⟩
    · exact halloc
    · exact halloc.trans (hi.untouched hI₁ (hI.unlinked_record now rrType rr)
        (hC₁.tail_notMem hi hd.symm) (.inl fun e => hd (Prod.mk.inj e).2.symm))

/-- A record adds its node to the lists of its key, or leaves them. -/
theorem cacheRecord_holds (hK : Keyed c) (hr : cacheRecord now qname rrType c rr = .ok (c', p))
    (hx : c.Holds d x) : c'.Holds d x ∨ c'.Holds d p := by
  obtain ⟨S, cls, hI, -⟩ := hK
  have hx₁ := (Untouched.holds (fun _ => .alloc (n := recordNode now rrType rr) rfl) hI).mpr hx
  obtain ⟨rfl, ⟨-, rfl⟩ | ⟨t, -, hins⟩⟩ := cacheRecord_cases hr
  · exact .inl hx₁
  · have hI₁ := hI.alloc (n := recordNode now rrType rr) rfl rfl
    rcases cacheInsert_inserted hI₁.index hins with ⟨-, rfl⟩ | ⟨-, l, τ, hi⟩
    · exact .inl hx₁
    · exact hi.holds hI₁.index (hI.unlinked_record now rrType rr) hx₁

/-- Allocating a record hides no tail, and shows none. -/
theorem tailHidden_alloc (hI : c.Inv S) {n : ListNode} (hn : n.next = none) :
    (c.withHeap (c.heap.allocNode n)).TailHidden t k ↔ c.TailHidden t k := by
  refine and_congr_right fun _ => exists_congr fun l => exists_congr fun list =>
    exists_congr fun x => ?_
  rw [Untouched.holds (fun _ => .alloc hn) hI]
  refine and_congr_right fun _ => and_congr_right fun hlist => and_congr_right fun htail => ?_
  rw [Cache.withHeap_heap, Heap.allocNode_node,
    Function.update_of_ne (hI.heap.tail_lt hlist htail).ne]

/-- **A record that no lookup meets** leaves the index, and the lists of its key. -/
theorem cacheRecord_hidden (hK : Keyed c) (hr : cacheRecord now qname rrType c rr = .ok (c', p))
    (hhidden : ∀ t, cacheTypeOf rr.type = some t → c.TailHidden t qname) :
    SameIndex c c' ∧ (∀ t, Untouched t qname c c') ∧
      ∀ t, c'.TailHidden t qname ↔ c.TailHidden t qname := by
  obtain ⟨S, cls, hI, -⟩ := hK
  have halloc : ∀ t, Untouched t qname c _ := fun _ => .alloc (n := recordNode now rrType rr) rfl
  have htails : ∀ t, _ ↔ c.TailHidden t qname := fun t =>
    tailHidden_alloc (n := recordNode now rrType rr) hI rfl
  obtain ⟨rfl, ⟨-, rfl⟩ | ⟨t, ht, hins⟩⟩ := cacheRecord_cases hr
  · exact ⟨.withHeap c _, halloc, htails⟩
  · have hI₁ := hI.alloc (n := recordNode now rrType rr) rfl rfl
    rcases cacheInsert_inserted hI₁.index hins with ⟨-, rfl⟩ | ⟨-, l, τ, hi⟩
    · exact ⟨.withHeap c _, halloc, htails⟩
    · have hp := hI.unlinked_record now rrType rr
      have hhidden₁ := (htails t).mpr (hhidden t ht)
      obtain ⟨-, l₁, list₁, τ₁, hl₁, hlist₁, htail₁, -, hτ₁⟩ := id hhidden₁
      obtain rfl : τ₁ = τ := by
        rcases hi.target with ⟨list, hl, hlist, htail, -⟩ | ⟨hn, -⟩
        · obtain rfl := hI₁.index.has_unique hl hl₁
          obtain rfl := Option.some.inj (hlist.symm.trans hlist₁)
          exact Option.some.inj (htail₁.symm.trans htail)
        · exact absurd hl₁ (hn l₁)
      have hu : ∀ t, Untouched t qname _ c' := fun t' => hi.untouched hI₁ hp
        (fun hl hc h => hτ₁ ⟨_, _, _, hl, hc, h⟩) (.inr ⟨l₁, hl₁⟩)
      have hindex : SameIndex _ c' := cacheInsert_index hI₁.index hl₁ hins
      exact ⟨(SameIndex.withHeap c _).trans hindex, fun t' => (halloc t').trans (hu t'),
        fun t' => (hi.tailHidden hI₁ hp hu hhidden₁ t').trans (htails t')⟩

/-- **A response has changed the contents** under `k`: a list has a node that is new, or a lookup
that found nothing meets a list whose key does not fit. -/
def Changed (c : Cache) (k : CString) (c' : Cache) : Prop :=
  KeySafe k ∧ (∃ x, c.heap.nextNode ≤ x ∧ c'.Holds k x) ∨
    ¬ KeySafe k ∧ ∃ t l, cacheFind c t k = .ok none ∧ c'.Has t k l

/-- **A record that a lookup meets** changes the contents. -/
theorem cacheRecord_met (hK : Keyed c) (hv : invalidKey qname = false)
    (hr : cacheRecord now qname rrType c rr = .ok (c', p)) (ht : cacheTypeOf rr.type = some t)
    (hhidden : ¬ c.TailHidden t qname) : Changed c qname c' := by
  obtain ⟨S, cls, hI, -⟩ := hK
  have hI₁ := hI.alloc (n := recordNode now rrType rr) rfl rfl
  obtain ⟨rfl, ⟨hno, -⟩ | ⟨t', ht', hins⟩⟩ := cacheRecord_cases hr
  · rw [hno] at ht
    cases ht
  · obtain rfl := Option.some.inj (ht.symm.trans ht')
    rcases cacheInsert_inserted hI₁.index hins with ⟨hinv, -⟩ | ⟨-, l, τ, hi⟩
    · rw [hinv] at hv
      cases hv
    -- under a key that does not fit, the field has no terminator for the next lookup
    by_cases hk : KeySafe qname
    · exact .inl ⟨hk, _, le_rfl, hi.holds_pushed hI₁.index hk (hI.unlinked_record now rrType rr)
        (mt (tailHidden_alloc hI rfl).mp hhidden)⟩
    · exact .inr ⟨hk, t, l, (cacheInsert_notSafe hI₁.index hk hins).1, hi.has_self⟩

/-- A record keeps what is on the lists. -/
theorem cacheRecord_has (hI : c.Inv S) (hr : cacheRecord now qname rrType c rr = .ok (c', p))
    (hl : c.Has t d l) : c'.Has t d l := by
  have hI₁ := hI.alloc (n := recordNode now rrType rr) rfl rfl
  obtain ⟨rfl, ⟨-, rfl⟩ | ⟨t', -, hins⟩⟩ := cacheRecord_cases hr
  · exact hl
  · rcases cacheInsert_inserted hI₁.index hins with ⟨-, rfl⟩ | ⟨-, l, τ, hi⟩
    · exact hl
    · exact hi.has_old hI₁.index hl

/-- A record leaves the contents changed. -/
theorem Changed.record (h : Changed c qname c') (hnext : c.heap.nextNode ≤ c'.heap.nextNode)
    (hK : Keyed c') (hr : cacheRecord now qname rrType c' rr = .ok (c'', p)) :
    Changed c qname c'' := by
  rcases h with ⟨hk, x, hx, hheld⟩ | ⟨hk, t, l, hf, hl⟩
  · -- a list of the key has a new node already, and keeps one
    rcases cacheRecord_holds hK hr hheld with h | h
    · exact .inl ⟨hk, x, hx, h⟩
    · exact .inl ⟨hk, p, (cacheRecord_cases hr).1 ▸ hnext, h⟩
  · obtain ⟨S, cls, hI, -⟩ := hK
    exact .inr ⟨hk, t, l, hf, cacheRecord_has hI hr hl⟩

/-- Contents that have changed are not the same. -/
theorem Changed.not_sameContents (h : Changed c k c') (hI' : c'.IndexInv) :
    ¬ SameContents c c' := by
  intro hsame
  rcases h with ⟨hk, x, hx, t, l, ids, hl, hc, hmem⟩ | ⟨hk, t, l, hf, hl⟩
  · have hsame := hsame t k
    rw [Cache.contents, (cacheFind_eq_some_iff hI').mpr ⟨hl, hk⟩] at hsame
    simp only [ok_bind, Heap.listNodes_eq_ok.mpr ⟨ids, hc, rfl⟩] at hsame
    obtain ⟨o, -, hsame⟩ := bind_eq_ok.mp hsame.symm
    cases o with
    | none => cases hsame
    | some l₀ =>
      obtain ⟨nodes, hnodes, hsame⟩ := bind_eq_ok.mp hsame
      obtain ⟨ids₀, hc₀, rfl⟩ := Heap.listNodes_eq_ok.mp hnodes
      have heq := Option.some.inj (Except.ok.inj hsame)
      -- the new node would be on the old list
      obtain ⟨-, -, -, hlive⟩ := hc
      obtain ⟨-, -, -, hlive₀⟩ := hc₀
      have hids : ids = ids₀ := by
        rw [← Heap.nodesAt_fst hlive, ← heq, Heap.nodesAt_fst hlive₀]
      exact absurd (Heap.lt_of_isSome (hlive₀ x (hids ▸ hmem))) (not_lt.mpr hx)
  · have hsame := hsame t k
    rw [Cache.contents, Cache.contents, hf] at hsame
    obtain ⟨o, hf', hsame⟩ := bind_eq_ok.mp hsame
    cases o with
    | none => exact cacheFind_eq_none hf' l hl
    | some l' => exact hk (cacheFind_eq_some hI' hf').2

/-! ## Responses -/

/-- A record leaves the index alone where the guard drops the name. -/
theorem cacheRecord_invalid (hv : invalidKey qname = true)
    (hr : cacheRecord now qname rrType c rr = .ok (c', p)) : SameIndex c c' := by
  obtain ⟨rfl, ⟨-, rfl⟩ | ⟨t, -, hins⟩⟩ := cacheRecord_cases hr
  · exact .withHeap c _
  · rw [cacheInsert, if_pos hv] at hins
    cases hins
    exact .withHeap c _

/-- **The records `done` of a response** to a query for `k` lead from `c` to `c'`: the lists of
the other keys stay, and the index and the lists of `k` stay exactly when no lookup meets the
records. -/
structure Processed (c : Cache) (k : CString) (done : List DnsResourceRecord) (c' : Cache) :
    Prop where
  keyed : Keyed c'
  next : c.heap.nextNode ≤ c'.heap.nextNode
  other : ∀ {d}, k ≠ d → ∀ t, Untouched t d c c'
  invalid : invalidKey k = true → SameIndex c c'
  own : invalidKey k = false →
    (Unmet c k done ∧ SameIndex c c' ∧ (∀ t, Untouched t k c c') ∧
      ∀ t, c'.TailHidden t k ↔ c.TailHidden t k) ∨ ¬ Unmet c k done ∧ Changed c k c'

variable {done : List DnsResourceRecord}

theorem unmet_append {rrs : List DnsResourceRecord} :
    Unmet c k (done ++ rrs) ↔ Unmet c k done ∧ Unmet c k rrs :=
  List.forall_mem_append

theorem unmet_singleton :
    Unmet c k [rr] ↔ ∀ t, cacheTypeOf rr.type = some t → c.TailHidden t k :=
  List.forall_mem_singleton

theorem Processed.start (hK : Keyed c) (k : CString) : Processed c k [] c where
  keyed := hK
  next := le_rfl
  other _ _ := .refl _ _ c
  invalid _ := .refl c
  own _ := .inl ⟨fun _ h => absurd h List.not_mem_nil, .refl c, fun _ => .refl _ k c,
    fun _ => Iff.rfl⟩

/-- What changes the contents from where nothing has changed changes them. -/
theorem Changed.of_same (h : Changed c' k c'') (hnext : c.heap.nextNode ≤ c'.heap.nextNode)
    (hindex : SameIndex c c') : Changed c k c'' := by
  rcases h with ⟨hk, x, hx, hheld⟩ | ⟨hk, t, l, hf, hl⟩
  · exact .inl ⟨hk, x, hnext.trans hx, hheld⟩
  · exact .inr ⟨hk, t, l, (hindex.cacheFind t k).symm.trans hf, hl⟩

/-- **The next record of a response**. -/
theorem Processed.record (hP : Processed c k done c')
    (hr : cacheRecord now k rrType c' rr = .ok (c'', p)) : Processed c k (done ++ [rr]) c'' := by
  obtain ⟨S, cls, hI, -⟩ := hP.keyed
  have hext := cacheRecord_extends hI.index hr
  refine ⟨hP.keyed.record hr, hP.next.trans hext.next,
    fun hd t => (hP.other hd t).trans (cacheRecord_untouched hP.keyed hd hr t),
    fun hv => (hP.invalid hv).trans (cacheRecord_invalid hv hr), fun hv => ?_⟩
  rw [unmet_append, unmet_singleton]
  rcases hP.own hv with ⟨hdone, hindex, hu, htails⟩ | ⟨hdone, hchanged⟩
  · -- no lookup has met a record so far
    by_cases hhidden : ∀ t, cacheTypeOf rr.type = some t → c.TailHidden t k
    · obtain ⟨hindex', hu', htails'⟩ :=
        cacheRecord_hidden hP.keyed hr fun t ht => (htails t).mpr (hhidden t ht)
      exact .inl ⟨⟨hdone, hhidden⟩, hindex.trans hindex', fun t => (hu t).trans (hu' t),
        fun t => (htails' t).trans (htails t)⟩
    · refine .inr ⟨fun h => hhidden h.2, ?_⟩
      push Not at hhidden
      obtain ⟨t, ht, htail⟩ := hhidden
      have hchanged := cacheRecord_met hP.keyed hv hr ht (mt (htails t).mp htail)
      exact hchanged.of_same hP.next hindex
  · exact .inr ⟨fun h => hdone h.1, hchanged.record hP.next hP.keyed hr⟩

/-- **A response keeps the contents exactly when it is ignored**. -/
theorem cacheResponse_sameContents (hK : Keyed c) {r : Response} {nodes : SectionNodes}
    (hr : cacheResponse c now r = .ok (c', nodes)) : SameContents c c' ↔ Ignores c r := by
  by_cases hcode : r.header.rcode = ReplyCode.noError.toBits
  swap
  · rw [cacheResponse_of_error hcode hr]
    exact iff_of_true (fun _ _ => rfl) (.inl hcode)
  have hP : Processed c r.question.qname (r.answer ++ r.authority ++ r.additional) c' :=
    cacheResponse_induction hcode (fun _ _ _ _ _ _ _ => Processed.record) (.start hK _) hr
  obtain ⟨S, -, hI, -⟩ := hK
  obtain ⟨S', -, hI', -⟩ := hP.keyed
  -- the contents depend on the index, and on the lists of the name of the question
  have hsame : SameIndex c c' → (∀ t, Untouched t r.question.qname c c') → SameContents c c' := by
    intro hindex hu t k
    by_cases hk : r.question.qname = k
    · exact hindex.contents hI (hk ▸ hu t)
    · exact hindex.contents hI (hP.other hk t)
  cases hv : invalidKey r.question.qname with
  | true =>
    exact iff_of_true (hsame (hP.invalid hv) fun _ => .of_invalid hv c c') (.inr (.inl hv))
  | false =>
    have hignores : Ignores c r ↔
        Unmet c r.question.qname (r.answer ++ r.authority ++ r.additional) := by
      simp [Ignores, hcode, hv]
    rw [hignores]
    rcases hP.own hv with ⟨hunmet, hindex, hu, -⟩ | ⟨hmet, hchanged⟩
    · exact iff_of_true (hsame hindex hu) hunmet
    · exact iff_of_false (hchanged.not_sameContents hI'.index) hmet

/-- **An ignored response is safe**. -/
theorem Ignores.safe (hI : c.IndexInv) {r : Response} (h : Ignores c r) : ResponseSafe c r := by
  intro hcode rr hrr t ht
  rcases h with h | hv | hunmet
  · exact absurd hcode h
  · refine ⟨.inl hv, fun l hl => ?_⟩
    cases hv.symm.trans hl.1
  · obtain ⟨hk, l, list, τ, hl, hlist, hτ, hlive, -⟩ := hunmet rr hrr t ht
    refine ⟨hk, fun l' hl' => ?_⟩
    obtain rfl := hI.has_unique hl hl'
    exact ⟨list, τ, hlist, hτ, hlive⟩

/-! ## Rejected responses -/

/-- A run keeps the cache keyed. -/
theorem Cache.Run.keyed {c₀ : Cache} {log : List Logged} (hrun : c₀.Run log c) (hK : Keyed c₀) :
    Keyed c := by
  refine hrun.invariant hK (fun hK => hK.record) ?_
  rintro c t k l now heap size ⟨S, cls, hI, hC⟩ hf hup
  have hl := hI.index.live (cacheFind_eq_some hI.index hf).1
  exact ⟨S, cls, hI.update hl hup, hC.update hI hl hup⟩

theorem readHostsFile_keyed {file : List UInt8} (hr : readHostsFile Cache.init file = .ok c) :
    Keyed c := by
  obtain ⟨S, cls, hL⟩ := (readHostsFile_loaded hr).load
  exact ⟨S, _, hL.inv, hL.keys⟩

/-- **A rejected response has no effect exactly when it is ignored**: its slot is not valid, and
yet its records are cached. Then it is processed without a fault, nothing is sent, and the contents
and the table are as before. -/
theorem rejected_response_iff {file : List UInt8} {c₀ : Cache}
    (hload : readHostsFile Cache.init file = .ok c₀) {admits : Server → ℤ → List UInt8 → Prop}
    {s : Server} (hrun : (Server.init c₀).Run admits s) {client : SockAddr}
    {datagram : List UInt8} {header : DnsHeader} {r : Response}
    (hparse : parseStream datagram = .ok (header, .response r))
    (hvalid : s.valid r.header.id.toNat = 0) :
    (∃ s', handleStream s now client datagram = .ok (s', []) ∧ SameContents s.cache s'.cache ∧
      s'.convertTable = s.convertTable) ↔ Ignores s.cache r := by
  obtain ⟨log, hrun⟩ := hrun.cache
  have hK : Keyed s.cache := hrun.keyed (readHostsFile_keyed hload)
  obtain ⟨S, -, hI, -⟩ := id hK
  -- what is processed of it, and what is not
  have hstream : ∀ s' sent, handleStream s now client datagram = .ok (s', sent) ↔
      ∃ nodes, relayResponse s now r = .ok (s', sent, nodes) := by
    intro s' sent
    rw [handleStream_of_parse hparse]
    constructor
    · intro hr
      obtain ⟨⟨s₁, sent₁, nodes⟩, hrelay, hr⟩ := bind_eq_ok.mp hr
      cases hr
      exact ⟨nodes, hrelay⟩
    · rintro ⟨nodes, hrelay⟩
      exact bind_eq_ok.mpr ⟨_, hrelay, rfl⟩
  constructor
  · rintro ⟨s', hr, hsame, -⟩
    obtain ⟨nodes, hrelay⟩ := (hstream s' []).mp hr
    exact (cacheResponse_sameContents hK (relayResponse_cache hrelay)).mp hsame
  · intro hignores
    obtain ⟨c', nodes, hcache⟩ := cacheResponse_ok now hI.index (hignores.safe hI.index)
    have hrelay : relayResponse s now r = .ok ({ s with cache := c' }, [], nodes) := by
      rw [relayResponse, hcache, ok_bind]
      exact if_pos hvalid
    exact ⟨_, (hstream _ _).mpr ⟨nodes, hrelay⟩,
      (cacheResponse_sameContents hK hcache).mpr hignores, rfl⟩

/-- A response to a query for `a.b.`, with the answer code `code` and the address of `a.b.`. -/
def lateResponse (code : UInt8) : List UInt8 :=
  [0, 7, 129, 128 + code, 0, 1, 0, 1, 0, 0, 0, 0] ++ [1, 97, 1, 98, 0, 0, 1, 0, 1] ++
    [192, 12, 0, 1, 0, 1, 0, 0, 0, 60, 0, 4] ++ [10, 0, 0, 1]

theorem rejected_response_refused : ∃ s',
    handleStream (.init .init) 0 localClient (lateResponse 5) = .ok (s', []) ∧
      SameContents Cache.init s'.cache ∧
        s'.convertTable = (Server.init .init).convertTable := by
  obtain ⟨zs, hzs⟩ : ∃ zs, receiveBuffer (lateResponse 5) = lateResponse 5 ++ zs := ⟨_, rfl⟩
  obtain ⟨header, r, hparse, hcode⟩ : ∃ header r,
      parseStream (lateResponse 5) = .ok (header, .response r) ∧ r.header.rcode = 5 := by
    rw [parseStream, hzs]
    exact ⟨_, _, rfl, rfl⟩
  have hload : readHostsFile Cache.init [] = .ok Cache.init := rfl
  have hrun : (Server.init .init).Run (fun _ _ _ => True) (.init .init) := .start
  exact (rejected_response_iff hload hrun hparse rfl).mpr (.inl (by rw [hcode]; decide))

/-- **A response nobody waits for** is found by the next lookup. -/
theorem not_rejected_response_late : ¬ ∀ file c₀ admits s now client datagram header r,
    readHostsFile Cache.init file = .ok c₀ → (Server.init c₀).Run admits s →
      parseStream datagram = .ok (header, .response r) → s.valid r.header.id.toNat = 0 →
        ∃ s', handleStream s now client datagram = .ok (s', []) ∧
          SameContents s.cache s'.cache ∧ s'.convertTable = s.convertTable := by
  intro hall
  obtain ⟨zs, hzs⟩ : ∃ zs, receiveBuffer (lateResponse 0) = lateResponse 0 ++ zs := ⟨_, rfl⟩
  obtain ⟨header, r, hparse, s', sent, hr, nodes, hfind⟩ : ∃ header r,
      parseStream (lateResponse 0) = .ok (header, .response r) ∧
        ∃ s' sent, processStream (.init .init) 0 localClient (header, .response r) =
          .ok (s', sent) ∧ ∃ nodes, s'.cache.contents .ipv4 localQuestion.qname =
            .ok (some nodes) := by
    rw [parseStream, hzs]
    exact ⟨_, _, rfl, _, _, rfl, _, rfl⟩
  obtain ⟨s₁, hr₁, hsame, -⟩ := hall [] .init (fun _ _ _ => True) (.init .init) 0 localClient _
    header r rfl .start hparse rfl
  have hr : handleStream (.init .init) 0 localClient (lateResponse 0) = .ok (s', sent) :=
    (handleStream_of_parse hparse).trans hr
  obtain ⟨rfl, -⟩ := Prod.mk.inj (Except.ok.inj (hr₁.symm.trans hr))
  have hnone : Cache.init.contents .ipv4 localQuestion.qname = .ok none := rfl
  cases hfind.symm.trans ((hsame .ipv4 localQuestion.qname).trans hnone)

end Adrift
