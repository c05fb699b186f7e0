import Adrift.Protocol.CacheRun

/-!
# Runs of the server

A server receives datagrams, its timers fire, and its waiting queries wake up, at any times. On
the cache, a run of the server is a run of the cache.

## Main definitions

* `Server.Run admits s₀ s`: the server reaches `s` from `s₀`, receiving datagrams that `admits`
  lets pass
* `DatagramSafe s datagram`: the datagram is parsed inside the receive buffer and handled inside the
  cache

## Main results

* `Server.Run.cache`: what a run of the server does to its cache
* `handleReadCache_ok`, `cacheResponse_ok`, `handleStream_ok`: safe datagrams are processed
-/

namespace Adrift

open Outcome

/-- **Runs of the server** that only receive datagrams `admits` lets pass at their time. -/
inductive Server.Run (admits : Server → ℤ → List UInt8 → Prop) (s₀ : Server) : Server → Prop
  | start : Run admits s₀ s₀
  | stream {s s' : Server} {now : ℤ} {client : SockAddr} {datagram : List UInt8}
      {sent : List Sent} (hrun : Run admits s₀ s) (hd : admits s now datagram)
      (hr : handleStream s now client datagram = .ok (s', sent)) : Run admits s₀ s'
  | timer {s : Server} (bufId : UInt16) (hrun : Run admits s₀ s) :
      Run admits s₀ (timerHandler s bufId)
  | wake {s s' : Server} {id : UInt16} (hrun : Run admits s₀ s)
      (hr : wakeSendQuery s id = some s') : Run admits s₀ s'

theorem wakeSendQuery_cache {s s' : Server} {id : UInt16} (hr : wakeSendQuery s id = some s') :
    s'.cache = s.cache := by
  rw [wakeSendQuery] at hr
  split_ifs at hr
  cases hr
  rfl

theorem answerQuery_cache {s s' : Server} {now : ℤ} {client : SockAddr} {header : DnsHeader}
    {question : DnsQuestion} {sent : List Sent}
    (hr : answerQuery s now client header question = .ok (s', sent)) :
    ∃ r, handleReadCache s.cache now header question = .ok (s'.cache, r) := by
  obtain ⟨⟨c, r⟩, hread, hr⟩ := bind_eq_ok.mp hr
  refine ⟨r, ?_⟩
  cases r <;> cases hr <;> exact hread

/-- A response is cached, whether it is relayed or rejected. -/
theorem relayResponse_cache {s s' : Server} {now : ℤ} {r : Response} {sent : List Sent}
    {nodes : SectionNodes} (hr : relayResponse s now r = .ok (s', sent, nodes)) :
    cacheResponse s.cache now r = .ok (s'.cache, nodes) := by
  obtain ⟨⟨c, nodes'⟩, hcache, hr⟩ := bind_eq_ok.mp hr
  dsimp only at hr
  split_ifs at hr <;> cases hr <;> exact hcache

/-- **What a datagram does to the cache**: nothing, a lookup, or a response. -/
theorem handleStream_cache {s s' : Server} {now : ℤ} {client : SockAddr} {datagram : List UInt8}
    {sent : List Sent} (hr : handleStream s now client datagram = .ok (s', sent)) :
    s'.cache = s.cache ∨
      (∃ header question r, handleReadCache s.cache now header question = .ok (s'.cache, r)) ∨
      ∃ r nodes, cacheResponse s.cache now r = .ok (s'.cache, nodes) := by
  obtain ⟨⟨header, buf⟩, -, hr⟩ := bind_eq_ok.mp hr
  dsimp only at hr
  split_ifs at hr
  · rw [handleReceiveQuery] at hr
    split_ifs at hr
    · cases hr
      exact .inl rfl
    · obtain ⟨⟨question, _⟩, -, hr⟩ := bind_eq_ok.mp hr
      exact .inr (.inl ⟨header, question, answerQuery_cache hr⟩)
  · obtain ⟨r, -, hr⟩ := bind_eq_ok.mp hr
    obtain ⟨⟨s₁, sent₁, nodes⟩, hrelay, hr⟩ := bind_eq_ok.mp hr
    cases hr
    exact .inr (.inr ⟨r, nodes, relayResponse_cache hrelay⟩)

/-- **A run of the server is a run of its cache**. -/
theorem Server.Run.cache {admits : Server → ℤ → List UInt8 → Prop} {s₀ s : Server}
    (hrun : s₀.Run admits s) : ∃ log, s₀.cache.Run log s.cache := by
  induction hrun with
  | start => exact ⟨[], .start⟩
  | stream _ _ hr ih =>
    obtain ⟨log, ih⟩ := ih
    rcases handleStream_cache hr with hc | ⟨header, question, r, hread⟩ | ⟨r, nodes, hresp⟩
    · exact ⟨log, hc ▸ ih⟩
    · exact ⟨log, ih.lookup hread⟩
    · exact ⟨_, ih.response hresp⟩
  | timer bufId _ ih => exact ih
  | wake _ hr ih => rwa [wakeSendQuery_cache hr]

/-! ## Safe datagrams -/

/-- The lookups of a query find their way. -/
def QuerySafe (c : Cache) (question : DnsQuestion) : Prop :=
  ∀ t, cacheTypeOf question.qtype = some t →
    c.LookupSafe t question.qname ∧ (t = .ipv4 → c.LookupSafe .cname question.qname)

/-- The records of a response can be pushed: the name of its question fits into the index, and
the lists under it have live tails. -/
def ResponseSafe (c : Cache) (r : Response) : Prop :=
  r.header.rcode = ReplyCode.noError.toBits →
    ∀ rr ∈ r.answer ++ r.authority ++ r.additional, ∀ t, cacheTypeOf rr.type = some t →
      KeySafe r.question.qname ∧ ∀ l, c.Has t r.question.qname l → c.heap.TailLive l

/-- **A safe datagram**: the parsers stay inside the receive buffer, and what it says is safe for
the cache. The send buffers are not asked for: nothing here bounds what is written for it. -/
def DatagramSafe (s : Server) (datagram : List UInt8) : Prop :=
  ∃ header buf, parseHeader (receiveBuffer datagram) = .ok (header, buf) ∧
    if header.qr = 0 then header.qdcount = 1 →
      ∃ question rest, parseQuestion buf = .ok (question, rest) ∧ QuerySafe s.cache question
    else ∃ r, parseResponse buf (receiveBuffer datagram) header = .ok r ∧ ResponseSafe s.cache r

variable {c : Cache} {S : Set ℕ} {now : ℤ}

theorem cnameNodes_ok (hI : c.Inv S) {question : DnsQuestion} (hq : QuerySafe c question) :
    ∃ nodes, cnameNodes c question = .ok nodes := by
  rw [cnameNodes]
  split_ifs with hA
  · obtain ⟨-, hsafe⟩ := hq .ipv4 (if_pos hA)
    obtain ⟨o, hf, ho⟩ := cacheFind_spec hI.index (hsafe rfl)
    rw [hf, ok_bind]
    cases o with
    | none => exact ⟨[], rfl⟩
    | some l =>
      obtain ⟨s, ids, hc⟩ := hI.chain ((ho l).mp rfl)
      exact ⟨_, Heap.listNodes_eq_ok.mpr ⟨_, hc, rfl⟩⟩
  · exact ⟨[], rfl⟩

theorem replyFrom_ok (now : ℤ) (hI : c.Inv S) {question : DnsQuestion} (hq : QuerySafe c question)
    (header : DnsHeader) (nodes : List (ℕ × ListNode)) :
    ∃ r, replyFrom c now header question nodes = .ok r := by
  obtain ⟨cname, hcname⟩ := cnameNodes_ok hI hq
  rw [replyFrom]
  split_ifs
  · exact ⟨_, rfl⟩
  · rw [hcname]
    exact ⟨_, rfl⟩
  · exact ⟨_, rfl⟩

/-- **A safe lookup succeeds**. -/
theorem handleReadCache_ok (now : ℤ) (hI : c.Inv S) {question : DnsQuestion}
    (hq : QuerySafe c question) (header : DnsHeader) :
    ∃ c' r, handleReadCache c now header question = .ok (c', r) := by
  rw [handleReadCache, questionList]
  cases ht : cacheTypeOf question.qtype with
  | none => exact ⟨c, .miss, rfl⟩
  | some t =>
    obtain ⟨o, hf, ho⟩ := cacheFind_spec hI.index (hq t ht).1
    simp only [hf, ok_bind]
    cases o with
    | none => exact ⟨c, .miss, rfl⟩
    | some l =>
      have hl := (ho l).mp rfl
      obtain ⟨s, ids, hc⟩ := hI.chain hl
      obtain ⟨heap, size, hup⟩ := listUpdate_ok hI.heap hc now
      have hI' : (c.withHeap heap).Inv S := hI.update (hI.index.live hl) hup
      have hnodes := Heap.listNodes_eq_ok.mpr ⟨_, (listUpdate_chain hI.heap hc hup).2, rfl⟩
      obtain ⟨r, hr⟩ := replyFrom_ok now hI' hq header
        (heap.nodesAt ((s :: ids).filter (!c.heap.expiredAt now ·)))
      refine ⟨c.withHeap heap, r, ?_⟩
      simp only [hup, ok_bind, hnodes]
      rw [show ({ c with heap } : Cache) = c.withHeap heap from rfl, hr]
      rfl

/-- What a section needs of the cache: the types of its records can be pushed. -/
def SectionSafe (c : Cache) (qname : CString) (rrs : List DnsResourceRecord) : Prop :=
  ∀ rr ∈ rrs, ∀ t, cacheTypeOf rr.type = some t →
    KeySafe qname ∧ ∀ l, c.Has t qname l → c.heap.TailLive l

/-- A record keeps the lists of its question ready for the next one. -/
theorem cacheRecord_ok (now : ℤ) (rrType : RrType) (hI : c.IndexInv) {qname : CString}
    {rr : DnsResourceRecord} {rrs : List DnsResourceRecord}
    (hs : SectionSafe c qname (rr :: rrs)) :
    ∃ c' p, cacheRecord now qname rrType c rr = .ok (c', p) ∧ c'.IndexInv ∧
      ∀ rrs', SectionSafe c qname rrs' → SectionSafe c' qname rrs' := by
  let c₁ := c.withHeap (c.heap.allocNode (recordNode now rrType rr))
  have hI₁ : c₁.IndexInv := hI.withHeap fun _ => rfl
  have hs₁ : ∀ rrs', SectionSafe c qname rrs' → SectionSafe c₁ qname rrs' :=
    fun rrs' h rr hrr t ht => ⟨(h rr hrr t ht).1, fun l hl => ((h rr hrr t ht).2 l hl).alloc⟩
  have hp : (c₁.heap.node c.heap.nextNode).isSome := by
    rw [Cache.withHeap_heap, Heap.allocNode_node, Function.update_self, Option.isSome_some]
  cases ht : cacheTypeOf rr.type with
  | none =>
    refine ⟨c₁, c.heap.nextNode, ?_, hI₁, hs₁⟩
    simp only [cacheRecord, listNodeCtorWithInfo, ht]
    rfl
  | some t =>
    obtain ⟨hk, htail⟩ := hs₁ _ hs rr List.mem_cons_self t ht
    obtain ⟨c', hr⟩ := cacheInsert_ok hI₁ hk hp htail
    refine ⟨c', c.heap.nextNode, ?_, cacheInsert_inv hI₁ hr, fun rrs' h rr' hrr' t' ht' => ?_⟩
    · simp only [cacheRecord, listNodeCtorWithInfo, ht]
      exact bind_eq_ok.mpr ⟨c', hr, rfl⟩
    · obtain ⟨hk', htail'⟩ := hs₁ _ h rr' hrr' t' ht'
      exact ⟨hk', fun l hl => cacheInsert_tailLive hI₁ hr hp htail' hl⟩

theorem cacheSection_ok (now : ℤ) (rrType : RrType) (hI : c.IndexInv) {qname : CString}
    {rrs : List DnsResourceRecord} (hs : SectionSafe c qname rrs) :
    ∃ c' ps, cacheSection now qname rrType c rrs = .ok (c', ps) ∧ c'.IndexInv ∧
      ∀ rrs', SectionSafe c qname rrs' → SectionSafe c' qname rrs' := by
  induction rrs generalizing c with
  | nil => exact ⟨c, [], rfl, hI, fun _ => id⟩
  | cons rr rrs ih =>
    obtain ⟨c₁, p, hr, hI₁, hs₁⟩ := cacheRecord_ok now rrType hI hs
    obtain ⟨c₂, ps, hr', hI₂, hs₂⟩ :=
      ih hI₁ (hs₁ _ fun rr hrr => hs rr (List.mem_cons_of_mem _ hrr))
    refine ⟨c₂, p :: ps, ?_, hI₂, fun rrs' h => hs₂ _ (hs₁ _ h)⟩
    simp only [cacheSection, hr, ok_bind, hr']
    rfl

/-- **A safe response is cached**. -/
theorem cacheResponse_ok (now : ℤ) (hI : c.IndexInv) {r : Response} (hs : ResponseSafe c r) :
    ∃ c' nodes, cacheResponse c now r = .ok (c', nodes) := by
  rw [cacheResponse]
  split_ifs with hcode
  · have hs := hs hcode
    have hsub : ∀ rrs, rrs ⊆ r.answer ++ r.authority ++ r.additional →
        SectionSafe c r.question.qname rrs := fun rrs h rr hrr => hs rr (h hrr)
    obtain ⟨c₁, as, h₁, hI₁, hs₁⟩ :=
      cacheSection_ok now .answer hI (hsub r.answer (by simp))
    obtain ⟨c₂, ns, h₂, hI₂, hs₂⟩ := cacheSection_ok now .authority hI₁
      (hs₁ _ (hsub r.authority (by simp)))
    obtain ⟨c₃, rs, h₃, -⟩ := cacheSection_ok now .additional hI₂
      (hs₂ _ (hs₁ _ (hsub r.additional (by simp))))
    refine ⟨c₃, ⟨as, ns, rs⟩, ?_⟩
    simp only [h₁, h₂, h₃, ok_bind]
    rfl
  · exact ⟨c, ⟨[], [], []⟩, rfl⟩

/-- **A safe datagram is processed**. -/
theorem handleStream_ok {s : Server} (hI : s.cache.Inv S) {datagram : List UInt8}
    (hd : DatagramSafe s datagram) (client : SockAddr) :
    ∃ s' sent, handleStream s now client datagram = .ok (s', sent) := by
  obtain ⟨header, buf, hparse, hd⟩ := hd
  rw [handleStream]
  simp only [hparse, ok_bind]
  split_ifs at hd ⊢
  · rw [handleReceiveQuery]
    split_ifs with hqd
    · exact ⟨_, _, rfl⟩
    · obtain ⟨question, rest, hq, hsafe⟩ := hd (not_not.mp hqd)
      obtain ⟨c', r, hread⟩ := handleReadCache_ok now hI hsafe header
      simp only [hq, ok_bind, answerQuery, hread]
      cases r <;> exact ⟨_, _, rfl⟩
  · obtain ⟨r, hresp, hsafe⟩ := hd
    obtain ⟨c', nodes, hcache⟩ := cacheResponse_ok now hI.index hsafe
    rw [handleReceiveResponse, hresp, ok_bind, relayResponse, hcache]
    simp only [ok_bind]
    split_ifs <;> exact ⟨_, _, rfl⟩

end Adrift
