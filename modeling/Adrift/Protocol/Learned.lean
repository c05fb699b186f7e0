import Adrift.Protocol.CachedReply

/-!
# Learned records

The nodes of a reply come from the hosts file or from the responses processed since. The log of a
run says which: a node pointer is never reused, so a node of the log that is still live is the one
allocated for its record.

## Main definitions

* `Logged.records`: the records of a response, with their sections and nodes
* `Extends c c' xs`: `c'` has the nodes of `c`, the nodes `xs`, and head nodes
* `LogInv c₀ log c`: the live nodes with a record are those of `c₀` and of the log

## Main results

* `cacheRecord_extends`, `cacheResponse_extends`: a response adds the nodes of its records
* `Cache.Run.logInv`: a run keeps the log invariant
-/

namespace Adrift

open Outcome

/-- The records of a section, with their nodes. -/
def sectionRecords (rrType : RrType) (ps : List ℕ) (rrs : List DnsResourceRecord) :
    List (ℕ × RrType × DnsResourceRecord) :=
  (ps.zip rrs).map fun x => (x.1, rrType, x.2)

/-- **The records of a response**, with their sections and the nodes allocated for them. -/
def Logged.records (e : Logged) : List (ℕ × RrType × DnsResourceRecord) :=
  sectionRecords .answer e.nodes.answer e.response.answer ++
    sectionRecords .authority e.nodes.authority e.response.authority ++
      sectionRecords .additional e.nodes.additional e.response.additional

theorem Logged.mem_answer {e : Logged} {p : ℕ} {rr : DnsResourceRecord}
    (h : (p, .answer, rr) ∈ e.records) : rr ∈ e.response.answer := by
  simp only [records, sectionRecords, List.mem_append, List.mem_map, Prod.mk.injEq] at h
  rcases h with (⟨x, hx, -, -, rfl⟩ | ⟨x, -, -, h, -⟩) | ⟨x, -, -, h, -⟩
  · exact (List.of_mem_zip hx).2
  · cases h
  · cases h

/-- The nodes of records processed at `now`. -/
def recordNodesAt (now : ℤ) (xs : List (ℕ × RrType × DnsResourceRecord)) : List (ℕ × ListNode) :=
  xs.map fun x => (x.1, recordNode now x.2.1 x.2.2)

/-- **The nodes of a cache extended** by `xs`, and by head nodes. -/
structure Extends (c c' : Cache) (xs : List (ℕ × ListNode)) : Prop where
  next : c.heap.nextNode ≤ c'.heap.nextNode
  old : ∀ {x}, x < c.heap.nextNode → c'.heap.info x = c.heap.info x
  new : ∀ {x n}, c.heap.nextNode ≤ x → c'.heap.info x = some n → n.data.isSome → (x, n) ∈ xs
  mem : ∀ {x n}, (x, n) ∈ xs → c.heap.nextNode ≤ x ∧ c'.heap.info x = some n

variable {S : Set ℕ} {c₀ c c' c'' : Cache} {log : List Logged} {now : ℤ} {p : ℕ}

namespace Extends

variable {xs ys : List (ℕ × ListNode)}

theorem refl (c : Cache) : Extends c c [] where
  next := le_rfl
  old _ := rfl
  new h hn _ := absurd (Heap.lt_of_isSome (Heap.isSome_of_info hn)) (not_lt.mpr h)
  mem h := nomatch h

theorem trans (h : Extends c c' xs) (h' : Extends c' c'' ys) : Extends c c'' (xs ++ ys) where
  next := h.next.trans h'.next
  old hx := (h'.old (hx.trans_le h.next)).trans (h.old hx)
  new {x n} hx hn hd := by
    rcases lt_or_ge x c'.heap.nextNode with hlt | hge
    · exact List.mem_append_left _ (h.new hx (h'.old hlt ▸ hn) hd)
    · exact List.mem_append_right _ (h'.new hge hn hd)
  mem {x n} hm := by
    rcases List.mem_append.mp hm with hm | hm
    · obtain ⟨hx, hn⟩ := h.mem hm
      exact ⟨hx, (h'.old (Heap.lt_of_isSome (Heap.isSome_of_info hn))).trans hn⟩
    · obtain ⟨hx, hn⟩ := h'.mem hm
      exact ⟨h.next.trans hx, hn⟩

theorem alloc (c : Cache) (n : ListNode) (hn : n.unlinked = n) :
    Extends c (c.withHeap (c.heap.allocNode n)) [(c.heap.nextNode, n)] where
  next := Nat.le_succ _
  old hx := by rw [Cache.withHeap_heap, Heap.allocNode_info, Function.update_of_ne hx.ne]
  new {x m} hx hm _ := by
    rw [Cache.withHeap_heap, Heap.allocNode_info] at hm
    by_cases he : x = c.heap.nextNode
    · rw [he, Function.update_self, hn] at hm
      rw [he, Option.some.inj hm]
      exact List.mem_singleton_self _
    · rw [Function.update_of_ne he] at hm
      exact absurd (Heap.lt_of_isSome (Heap.isSome_of_info hm)) (not_lt.mpr hx)
  mem {x m} hm := by
    obtain ⟨rfl, rfl⟩ := Prod.mk.inj (List.mem_singleton.mp hm)
    exact ⟨le_rfl, by rw [Cache.withHeap_heap, Heap.allocNode_info, Function.update_self, hn]⟩

theorem insert (hI : c.IndexInv) {t : CacheType} {k : CString}
    (hr : cacheInsert c t k p = .ok c') : Extends c c' [] := by
  rcases cacheInsert_inserted hI hr with ⟨-, rfl⟩ | ⟨-, l, τ, hi⟩
  · exact .refl _
  obtain ⟨h₀, hpushed⟩ := hi.pushed
  refine ⟨?_, fun {x} hx => ?_, fun {x n} hx hn hd => ?_, fun h => nomatch h⟩
  · rw [hpushed.heap]
    rcases hpushed.base with rfl | ⟨rfl, -, -⟩
    · exact le_rfl
    · exact Nat.le_succ _
  · rw [hpushed.heap, Heap.pushedHeap_info]
    rcases hpushed.base with rfl | ⟨rfl, -, -⟩
    · rfl
    · rw [Heap.ctorHeap_info, Function.update_of_ne hx.ne]
  · rcases hpushed.info_cases hn with hn | ⟨-, -, rfl⟩
    · exact absurd (Heap.lt_of_isSome (Heap.isSome_of_info hn)) (not_lt.mpr hx)
    · cases hd

end Extends

/-! ## Responses -/

/-- A record adds its node. -/
theorem cacheRecord_extends (hI : c.IndexInv) {qname : CString} {rrType : RrType}
    {rr : DnsResourceRecord} (hr : cacheRecord now qname rrType c rr = .ok (c', p)) :
    Extends c c' [(p, recordNode now rrType rr)] := by
  have hext := Extends.alloc c (recordNode now rrType rr) rfl
  obtain ⟨rfl, ⟨-, rfl⟩ | ⟨t, -, hins⟩⟩ := cacheRecord_cases hr
  · exact hext
  · simpa using hext.trans (.insert (hI.withHeap fun _ => rfl) hins)

theorem cacheSection_extends (hI : c.Inv S) {qname : CString} {rrType : RrType}
    {rrs : List DnsResourceRecord} {ps : List ℕ}
    (hr : cacheSection now qname rrType c rrs = .ok (c', ps)) : c'.Inv S ∧
      Extends c c' (recordNodesAt now (sectionRecords rrType ps rrs)) := by
  induction rrs generalizing c ps with
  | nil =>
    cases hr
    exact ⟨hI, .refl _⟩
  | cons rr rrs ih =>
    obtain ⟨⟨c₁, p⟩, hrec, hr⟩ := bind_eq_ok.mp hr
    obtain ⟨⟨c₂, ps⟩, hsec, hr⟩ := bind_eq_ok.mp hr
    cases hr
    obtain ⟨hI₂, hext⟩ := ih (cacheRecord_inv hI hrec) hsec
    exact ⟨hI₂, (cacheRecord_extends hI.index hrec).trans hext⟩

theorem cacheSection_length {qname : CString} {rrType : RrType} {rrs : List DnsResourceRecord}
    {ps : List ℕ} (hr : cacheSection now qname rrType c rrs = .ok (c', ps)) :
    ps.length = rrs.length := by
  induction rrs generalizing c ps with
  | nil =>
    cases hr
    rfl
  | cons rr rrs ih =>
    obtain ⟨⟨c₁, p⟩, -, hr⟩ := bind_eq_ok.mp hr
    obtain ⟨⟨c₂, ps⟩, hsec, hr⟩ := bind_eq_ok.mp hr
    cases hr
    rw [List.length_cons, List.length_cons, ih hsec]

/-- Every record of a section has a node. -/
theorem exists_mem_sectionRecords (rrType : RrType) {rrs : List DnsResourceRecord}
    {ps : List ℕ} (hlen : ps.length = rrs.length) {rr : DnsResourceRecord} (hrr : rr ∈ rrs) :
    ∃ p, (p, rrType, rr) ∈ sectionRecords rrType ps rrs := by
  rw [← List.map_snd_zip hlen.ge] at hrr
  obtain ⟨⟨p, rr'⟩, hp, rfl⟩ := List.mem_map.mp hrr
  exact ⟨p, List.mem_map_of_mem hp⟩

/-- **A response without an error has a node for each of its answers**, and other responses have
none. -/
theorem cacheResponse_complete {r : Response} {nodes : SectionNodes}
    (hr : cacheResponse c now r = .ok (c', nodes)) {x : ℕ × RrType × DnsResourceRecord}
    (hx : x ∈ Logged.records ⟨now, r, nodes⟩) :
    r.header.rcode = ReplyCode.noError.toBits ∧
      ∀ rr ∈ r.answer, ∃ p, (p, .answer, rr) ∈ Logged.records ⟨now, r, nodes⟩ := by
  rw [cacheResponse] at hr
  split_ifs at hr with hcode
  · obtain ⟨⟨c₁, as⟩, h₁, hr⟩ := bind_eq_ok.mp hr
    obtain ⟨⟨c₂, ns⟩, h₂, hr⟩ := bind_eq_ok.mp hr
    obtain ⟨⟨c₃, rs⟩, h₃, hr⟩ := bind_eq_ok.mp hr
    cases hr
    refine ⟨hcode, fun rr hrr => ?_⟩
    obtain ⟨p, hp⟩ := exists_mem_sectionRecords .answer (cacheSection_length h₁) hrr
    exact ⟨p, List.mem_append_left _ (List.mem_append_left _ hp)⟩
  · cases hr
    cases hx

/-- **A response adds the nodes of its records**. -/
theorem cacheResponse_extends (hI : c.Inv S) {r : Response} {nodes : SectionNodes}
    (hr : cacheResponse c now r = .ok (c', nodes)) : c'.Inv S ∧
      Extends c c' (recordNodesAt now (Logged.records ⟨now, r, nodes⟩)) := by
  rw [cacheResponse] at hr
  split_ifs at hr
  · obtain ⟨⟨c₁, as⟩, h₁, hr⟩ := bind_eq_ok.mp hr
    obtain ⟨⟨c₂, ns⟩, h₂, hr⟩ := bind_eq_ok.mp hr
    obtain ⟨⟨c₃, rs⟩, h₃, hr⟩ := bind_eq_ok.mp hr
    cases hr
    obtain ⟨hI₁, hext₁⟩ := cacheSection_extends hI h₁
    obtain ⟨hI₂, hext₂⟩ := cacheSection_extends hI₁ h₂
    obtain ⟨hI₃, hext₃⟩ := cacheSection_extends hI₂ h₃
    refine ⟨hI₃, ?_⟩
    rw [Logged.records, recordNodesAt, List.map_append, List.map_append]
    exact (hext₁.trans hext₂).trans hext₃
  · cases hr
    exact ⟨hI, .refl _⟩

/-! ## The log -/

/-- **The log invariant**: a node of the log is fresh since `c₀`, and holds its record while it is
live; the other live nodes with a record are those of `c₀`. -/
structure LogInv (c₀ : Cache) (log : List Logged) (c : Cache) : Prop where
  next : c₀.heap.nextNode ≤ c.heap.nextNode
  learned : ∀ {e x}, e ∈ log → x ∈ e.records → c₀.heap.nextNode ≤ x.1 ∧ x.1 < c.heap.nextNode ∧
    ∀ n, c.heap.info x.1 = some n → n = recordNode e.now x.2.1 x.2.2
  complete : ∀ {e x}, e ∈ log → x ∈ e.records →
    e.response.header.rcode = ReplyCode.noError.toBits ∧
      ∀ rr ∈ e.response.answer, ∃ p, (p, .answer, rr) ∈ e.records
  origin : ∀ {x n}, c.heap.info x = some n → n.data.isSome →
    x < c₀.heap.nextNode ∧ c₀.heap.info x = some n ∨ ∃ e ∈ log, ∃ r ∈ e.records, r.1 = x

/-- **A run keeps the log invariant**. -/
theorem Cache.Run.logInv (hrun : c₀.Run log c) (hI : c₀.Inv S) : c.Inv S ∧ LogInv c₀ log c := by
  induction hrun with
  | start =>
    exact ⟨hI, le_rfl, (fun h => nomatch h), (fun h => nomatch h), fun hn _ =>
      .inl ⟨Heap.lt_of_isSome (Heap.isSome_of_info hn), hn⟩⟩
  | @response log c c' now r nodes _ hr ih =>
    obtain ⟨hI, hL⟩ := ih
    -- a response adds the nodes of its own log entry, and leaves the older ones
    obtain ⟨hI', hext⟩ := cacheResponse_extends hI hr
    refine ⟨hI', hL.next.trans hext.next, fun {e x} he hx => ?_, fun {e x} he hx => ?_,
      fun {x n} hn hd => ?_⟩
    · rcases List.mem_append.mp he with he | he
      · obtain ⟨h₀, hlt, hinfo⟩ := hL.learned he hx
        exact ⟨h₀, hlt.trans_le hext.next, fun n hn => hinfo n (hext.old hlt ▸ hn)⟩
      · obtain rfl := List.mem_singleton.mp he
        obtain ⟨hge, hn⟩ := hext.mem (List.mem_map_of_mem hx)
        refine ⟨hL.next.trans hge, Heap.lt_of_isSome (Heap.isSome_of_info hn), fun m hm => ?_⟩
        exact Option.some.inj (hm.symm.trans hn)
    · rcases List.mem_append.mp he with he | he
      · exact hL.complete he hx
      · obtain rfl := List.mem_singleton.mp he
        exact cacheResponse_complete hr hx
    · -- a node is older than the response, or one of its own
      rcases lt_or_ge x c.heap.nextNode with hlt | hge
      · rcases hL.origin (hext.old hlt ▸ hn) hd with h | ⟨e, he, h⟩
        · exact .inl h
        · exact .inr ⟨e, List.mem_append_left _ he, h⟩
      · obtain ⟨y, hy, hyx⟩ := List.mem_map.mp (hext.new hge hn hd)
        exact .inr ⟨_, List.mem_append_right _ (List.mem_singleton_self _), y, hy,
          (Prod.mk.inj hyx).1⟩
  | @lookup log c c' now header question r _ hr ih =>
    obtain ⟨hI, hL⟩ := ih
    -- a lookup only removes nodes
    rcases handleReadCache_lookup hI hr with ⟨rfl, -⟩ | ⟨t, l, ids, hlook, -⟩
    · exact ⟨hI, hL⟩
    obtain ⟨heap, size, hup, rfl⟩ := hlook.update
    have hnext := (listUpdate_fresh hI.heap hlook.chain hup).1
    refine ⟨hlook.inv, ?_, fun he hx => ?_, hL.complete, fun hn hd => ?_⟩
    · rw [Cache.withHeap_heap, hnext]
      exact hL.next
    · obtain ⟨h₀, hlt, hinfo⟩ := hL.learned he hx
      rw [Cache.withHeap_heap, hnext]
      exact ⟨h₀, hlt, fun n hn => hinfo n (listUpdate_info hI.heap hlook.chain hup hn)⟩
    · exact hL.origin (listUpdate_info hI.heap hlook.chain hup hn) hd

end Adrift
