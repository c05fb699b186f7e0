import Adrift.Protocol.CacheInvariant
import Adrift.Protocol.Handle

/-!
# Runs of the cache

After its start the cache changes in two ways: a response pushes its records, one after the other,
and a lookup updates the list it finds. Runs are taken over any clock, and keep a log of the nodes
that the responses allocated.

## Main definitions

* `Logged`: a response processed at some time, with the nodes allocated for its records
* `Cache.Run c₀ log c`: responses and lookups lead from `c₀` to `c`
* `Cache.ClockedRun c₀ clock log c`: the same, with a clock that never runs backwards

## Main results

* `cacheRecord_cases`, `handleReadCache_cases`: what a record and a lookup do to the cache
* `cacheResponse_induction`: what the records of a response do, one after the other
* `Cache.Run.invariant`: what records and updates preserve, a run preserves
* `Cache.Run.inv`: a run keeps the invariant of the cache
-/

namespace Adrift

open Outcome

/-- The node that `handle_receive_response` allocates for a record. -/
def recordNode (now : ℤ) (rrType : RrType) (rr : DnsResourceRecord) : ListNode :=
  .ofInfo rr rrType now (minU32 180 rr.ttl).toNat

/-- **What a record does**: a node is allocated, and pushed when the type of the record is
cached. -/
theorem cacheRecord_cases {now : ℤ} {qname : CString} {rrType : RrType} {c c' : Cache}
    {rr : DnsResourceRecord} {p : ℕ} (hr : cacheRecord now qname rrType c rr = .ok (c', p)) :
    p = c.heap.nextNode ∧
      (cacheTypeOf rr.type = none ∧ c' = c.withHeap (c.heap.allocNode (recordNode now rrType rr)) ∨
        ∃ t, cacheTypeOf rr.type = some t ∧
          cacheInsert (c.withHeap (c.heap.allocNode (recordNode now rrType rr))) t qname p =
            .ok c') := by
  rw [cacheRecord] at hr
  simp only [listNodeCtorWithInfo] at hr
  cases ht : cacheTypeOf rr.type with
  | none =>
    rw [ht] at hr
    cases hr
    exact ⟨rfl, .inl ⟨rfl, rfl⟩⟩
  | some t =>
    rw [ht] at hr
    obtain ⟨c₁, hins, hr⟩ := bind_eq_ok.mp hr
    cases hr
    exact ⟨rfl, .inr ⟨t, rfl, hins⟩⟩

theorem questionList_eq_some {c : Cache} {question : DnsQuestion} {l : ℕ} :
    questionList c question = .ok (some l) ↔
      ∃ t, cacheTypeOf question.qtype = some t ∧ cacheFind c t question.qname = .ok (some l) := by
  rw [questionList]
  cases cacheTypeOf question.qtype <;> simp

/-- **What a lookup does**: nothing, or an update of the list it finds, and a reply from its
nodes. -/
theorem handleReadCache_cases {c c' : Cache} {now : ℤ} {header : DnsHeader}
    {question : DnsQuestion} {r : ReadCache}
    (hr : handleReadCache c now header question = .ok (c', r)) :
    c' = c ∧ r = .miss ∨
      ∃ t l heap size nodes, cacheTypeOf question.qtype = some t ∧
        cacheFind c t question.qname = .ok (some l) ∧
        listUpdate c.heap l now = .ok (heap, size) ∧ c' = c.withHeap heap ∧
        listNodes heap l = .ok nodes ∧ replyFrom c' now header question nodes = .ok r := by
  obtain ⟨list, hlist, hr⟩ := bind_eq_ok.mp hr
  cases list with
  | none =>
    cases hr
    exact .inl ⟨rfl, rfl⟩
  | some l =>
    obtain ⟨⟨heap, size⟩, hup, hr⟩ := bind_eq_ok.mp hr
    obtain ⟨nodes, hnodes, hr⟩ := bind_eq_ok.mp hr
    obtain ⟨r', hreply, hr⟩ := bind_eq_ok.mp hr
    obtain ⟨t, ht, hfind⟩ := questionList_eq_some.mp hlist
    cases hr
    exact .inr ⟨t, l, heap, size, nodes, ht, hfind, hup, rfl, hnodes, hreply⟩

/-- A response that was processed, with its time and the nodes of its records. -/
structure Logged where
  now : ℤ
  response : Response
  nodes : SectionNodes

/-- **Runs of the cache** from `c₀`, with the log of the responses. -/
inductive Cache.Run (c₀ : Cache) : List Logged → Cache → Prop
  | start : Run c₀ [] c₀
  | response {log : List Logged} {c c' : Cache} {now : ℤ} {r : Response} {nodes : SectionNodes}
      (hrun : Run c₀ log c) (hr : cacheResponse c now r = .ok (c', nodes)) :
      Run c₀ (log ++ [⟨now, r, nodes⟩]) c'
  | lookup {log : List Logged} {c c' : Cache} {now : ℤ} {header : DnsHeader}
      {question : DnsQuestion} {r : ReadCache} (hrun : Run c₀ log c)
      (hr : handleReadCache c now header question = .ok (c', r)) : Run c₀ log c'

/-- **Runs of the cache over a clock** that never runs backwards, and shows `clock` at the end. -/
inductive Cache.ClockedRun (c₀ : Cache) : ℤ → List Logged → Cache → Prop
  | start (clock : ℤ) : ClockedRun c₀ clock [] c₀
  | response {clock now : ℤ} {log : List Logged} {c c' : Cache} {r : Response}
      {nodes : SectionNodes} (hrun : ClockedRun c₀ clock log c) (hnow : clock ≤ now)
      (hr : cacheResponse c now r = .ok (c', nodes)) :
      ClockedRun c₀ now (log ++ [⟨now, r, nodes⟩]) c'
  | lookup {clock now : ℤ} {log : List Logged} {c c' : Cache} {header : DnsHeader}
      {question : DnsQuestion} {r : ReadCache} (hrun : ClockedRun c₀ clock log c)
      (hnow : clock ≤ now) (hr : handleReadCache c now header question = .ok (c', r)) :
      ClockedRun c₀ now log c'

theorem Cache.ClockedRun.run {c₀ c : Cache} {clock : ℤ} {log : List Logged}
    (hrun : c₀.ClockedRun clock log c) : c₀.Run log c := by
  induction hrun with
  | start => exact .start
  | response _ _ hr ih => exact ih.response hr
  | lookup _ _ hr ih => exact ih.lookup hr

/-- The records of a section of a response. -/
def Response.records (r : Response) : RrType → List DnsResourceRecord
  | .answer => r.answer
  | .authority => r.authority
  | .additional => r.additional

/-- **Induction over the records of a section**, which are processed in order behind `done`. -/
theorem cacheSection_induction {P : List DnsResourceRecord → Cache → Prop} {now : ℤ}
    {qname : CString} {rrType : RrType} {rrs : List DnsResourceRecord}
    (hrecord : ∀ {done rr c c' p}, rr ∈ rrs → P done c →
      cacheRecord now qname rrType c rr = .ok (c', p) → P (done ++ [rr]) c')
    {c c' : Cache} {done : List DnsResourceRecord} {ps : List ℕ} (hP : P done c)
    (hr : cacheSection now qname rrType c rrs = .ok (c', ps)) : P (done ++ rrs) c' := by
  induction rrs generalizing c done ps with
  | nil =>
    cases hr
    rwa [List.append_nil]
  | cons rr rrs ih =>
    obtain ⟨⟨c₁, p⟩, hrec, hr⟩ := bind_eq_ok.mp hr
    obtain ⟨⟨c₂, ps⟩, hsec, hr⟩ := bind_eq_ok.mp hr
    cases hr
    rw [List.append_cons]
    exact ih (fun hrr => hrecord (List.mem_cons_of_mem _ hrr))
      (hrecord List.mem_cons_self hP hrec) hsec

/-- **Induction over the records of a response** without an error. -/
theorem cacheResponse_induction {P : List DnsResourceRecord → Cache → Prop} {now : ℤ}
    {r : Response} (hcode : r.header.rcode = ReplyCode.noError.toBits)
    (hrecord : ∀ rrType {done rr c c' p}, rr ∈ r.records rrType → P done c →
      cacheRecord now r.question.qname rrType c rr = .ok (c', p) → P (done ++ [rr]) c')
    {c c' : Cache} {nodes : SectionNodes} (hP : P [] c)
    (hr : cacheResponse c now r = .ok (c', nodes)) :
    P (r.answer ++ r.authority ++ r.additional) c' := by
  rw [cacheResponse, if_pos hcode] at hr
  obtain ⟨⟨c₁, as⟩, h₁, hr⟩ := bind_eq_ok.mp hr
  obtain ⟨⟨c₂, ns⟩, h₂, hr⟩ := bind_eq_ok.mp hr
  obtain ⟨⟨c₃, rs⟩, h₃, hr⟩ := bind_eq_ok.mp hr
  cases hr
  have hP₁ : P r.answer c₁ := cacheSection_induction (hrecord .answer) hP h₁
  have hP₂ := cacheSection_induction (hrecord .authority) hP₁ h₂
  exact cacheSection_induction (hrecord .additional) hP₂ h₃

/-- A response with an error is not cached. -/
theorem cacheResponse_of_error {c c' : Cache} {now : ℤ} {r : Response} {nodes : SectionNodes}
    (hcode : r.header.rcode ≠ ReplyCode.noError.toBits)
    (hr : cacheResponse c now r = .ok (c', nodes)) : c' = c := by
  rw [cacheResponse, if_neg hcode] at hr
  cases hr
  rfl

/-- What the records of a response preserve, the response preserves. -/
theorem cacheResponse_invariant {P : Cache → Prop} {now : ℤ} {r : Response}
    (hrecord : ∀ {rrType rr c c' p}, P c →
      cacheRecord now r.question.qname rrType c rr = .ok (c', p) → P c')
    {c c' : Cache} {nodes : SectionNodes} (hP : P c)
    (hr : cacheResponse c now r = .ok (c', nodes)) : P c' := by
  by_cases hcode : r.header.rcode = ReplyCode.noError.toBits
  · exact cacheResponse_induction (P := fun _ => P) hcode (fun _ _ _ _ _ _ _ => hrecord) hP hr
  · rwa [cacheResponse_of_error hcode hr]

/-- **What records and updates preserve, a run preserves**. -/
theorem Cache.Run.invariant {P : Cache → Prop} {c₀ c : Cache} {log : List Logged}
    (hrun : c₀.Run log c) (h₀ : P c₀)
    (hrecord : ∀ {now qname rrType rr c c' p}, P c →
      cacheRecord now qname rrType c rr = .ok (c', p) → P c')
    (hupdate : ∀ {c t k l now heap size}, P c → cacheFind c t k = .ok (some l) →
      listUpdate c.heap l now = .ok (heap, size) → P (c.withHeap heap)) : P c := by
  induction hrun with
  | start => exact h₀
  | response _ hr ih => exact cacheResponse_invariant hrecord ih hr
  | lookup _ hr ih =>
    rcases handleReadCache_cases hr with ⟨rfl, -⟩ | ⟨t, l, heap, size, _, -, hfind, hup, rfl, -⟩
    · exact ih
    · exact hupdate ih hfind hup

/-- The node of a record, in the heap it was allocated in, is fresh. -/
theorem Cache.Inv.unlinked_record {S : Set ℕ} {c : Cache} (hI : c.Inv S) (now : ℤ)
    (rrType : RrType) (rr : DnsResourceRecord) :
    (c.heap.allocNode (recordNode now rrType rr)).Unlinked c.heap.nextNode :=
  hI.heap.unlinked_alloc rfl rfl

theorem cacheRecord_inv {S : Set ℕ} {now : ℤ} {qname : CString} {rrType : RrType} {c c' : Cache}
    {rr : DnsResourceRecord} {p : ℕ} (hI : c.Inv S)
    (hr : cacheRecord now qname rrType c rr = .ok (c', p)) : c'.Inv S := by
  have hI₁ := hI.alloc (n := recordNode now rrType rr) rfl rfl
  obtain ⟨rfl, ⟨-, rfl⟩ | ⟨t, -, hins⟩⟩ := cacheRecord_cases hr
  · exact hI₁
  · exact hI₁.insert (hI.unlinked_record now rrType rr) hins

/-- **A run keeps the invariant of the cache**. -/
theorem Cache.Run.inv {S : Set ℕ} {c₀ c : Cache} {log : List Logged} (hrun : c₀.Run log c)
    (h₀ : c₀.Inv S) : c.Inv S := by
  refine hrun.invariant h₀ cacheRecord_inv ?_
  intro c t k l now heap size hI hf hup
  exact hI.update (hI.index.live (cacheFind_eq_some hI.index hf).1) hup

end Adrift
