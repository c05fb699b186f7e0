import Adrift.Protocol.Messages
import Adrift.Protocol.Replies
import Adrift.Protocol.Sizes

/-!
# Transactions

A client asks, the query goes upstream under a wire id, and the response with this wire id comes
back to the client. In between the server may receive anything: the slot of the wire id is written
again by the 65536th query that is forwarded after it, and is closed when the query wakes up.

## Main definitions

* `ServerEvent.forwards`: a query is forwarded
* `SlotKept n k origin s`: the slot `n` is open, and has been left alone by `k` forwarded queries

## Main results

* `handleStream_slots`: what a datagram does to the slots
* `SlotKept.trace`: a run leaves a slot alone that forwards at most 65535 queries
* `transaction_relayed`: the response to a query is relayed to its client, as a message with the id
  of the query, when both find room
-/

namespace Adrift

open BigEndian DnsMessage DomainName Outcome Transition

/-- The datagram goes upstream. -/
def Sent.isRelay : Sent → Bool
  | .relay _ => true
  | _ => false

/-- **A query is forwarded**. -/
def ServerEvent.forwards : ServerEvent → Bool
  | .stream _ _ sent => sent.any Sent.isRelay
  | _ => false

variable {s s₀ s₁ s₂ s' : Server} {now : ℤ} {client : SockAddr} {datagram up query msg : List UInt8}
  {header : DnsHeader} {question : DnsQuestion} {sent : List Sent} {es : List ServerEvent}
  {e : ServerEvent} {cache : Cache} {m m' : Message} {q q' : Question} {n k : ℕ}
  {origin : UInt16 × SockAddr}

/-- **What a datagram does to the slots**: nothing, or a query is forwarded. -/
theorem handleStream_slots (hr : handleStream s now client datagram = .ok (s', sent)) :
    SameSlots s s' ∧ s'.valid = s.valid ∧ sent.any Sent.isRelay = false ∨
      ∃ c header question, s' = (handleSendQuery { s with cache := c } client header question).1 ∧
        sent.any Sent.isRelay = true := by
  rw [handleStream_eq] at hr
  obtain ⟨⟨header, p⟩, -, hr⟩ := bind_eq_ok.mp hr
  cases p with
  | uncounted =>
    cases hr
    exact .inl ⟨⟨rfl, rfl⟩, rfl, rfl⟩
  | query question =>
    obtain ⟨⟨c, r⟩, -, hr⟩ := bind_eq_ok.mp hr
    cases r with
    | miss =>
      cases hr
      exact .inr ⟨c, header, question, rfl, rfl⟩
    | nameError datagram =>
      cases hr
      exact .inl ⟨⟨rfl, rfl⟩, rfl, rfl⟩
    | cached hd cname list datagram =>
      cases hr
      exact .inl ⟨⟨rfl, rfl⟩, rfl, rfl⟩
  | response r =>
    obtain ⟨⟨s₁, sent₁, nodes⟩, hrelay, hr⟩ := bind_eq_ok.mp hr
    cases hr
    refine .inl ⟨relayResponse_slots hrelay, relayResponse_valid hrelay, ?_⟩
    rcases relayResponse_cases hrelay with ⟨-, rfl, -⟩ | ⟨-, rfl, -⟩ <;> rfl

/-! ## Slots that are left alone -/

/-- **A slot is left alone**: it is open for its client and id, and the counter has moved on by `k`
queries, past the end of the table or not. -/
structure SlotKept (n k : ℕ) (origin : UInt16 × SockAddr) (s : Server) : Prop where
  origin : s.origins n = origin
  valid : s.valid n ≠ 0
  counter : s.buf1Len = n + 1 + k ∧ s.buf1Len ≤ mapLen ∨ s.buf1Len + 0x10000 = n + 1 + k

namespace SlotKept

theorem of_same (h : SlotKept n k origin s) (hslots : SameSlots s s')
    (hvalid : s'.valid n = s.valid n) : SlotKept n k origin s' := by
  obtain ⟨hlen, horigins⟩ := hslots
  refine ⟨?_, ?_, ?_⟩
  · rw [horigins]
    exact h.origin
  · rw [hvalid]
    exact h.valid
  · rw [hlen]
    exact h.counter

/-- **Another query is forwarded**, not yet into the slot. -/
theorem send (h : SlotKept n k origin s) (hn : n < 0x10000) (hk : k < 0xffff) (client : SockAddr)
    (header : DnsHeader) (question : DnsQuestion) :
    SlotKept n (k + 1) origin (handleSendQuery s client header question).1 := by
  have hcounter := h.counter
  refine ⟨?_, ?_, ?_⟩
  · rw [handleSendQuery_origins, Function.update_of_ne (by omega)]
    exact h.origin
  · rw [handleSendQuery_valid]
    by_cases hn : n = s.nextId.toNat
    · rw [hn, Function.update_self]
      decide
    · rw [Function.update_of_ne hn]
      exact h.valid
  · rw [handleSendQuery_buf1Len]
    have hmap : mapLen = 0x10001 := rfl
    split_ifs with hwrap <;> omega

/-- **A step** leaves the slot alone, when the query of the slot does not wake up. -/
theorem step (h : SlotKept n k origin s) (hs : s.Step e s') (hn : n < 0x10000)
    (hwake : e ≠ .wake (.ofNat n)) (hk : k + (if e.forwards then 1 else 0) ≤ 0xffff) :
    SlotKept n (k + if e.forwards then 1 else 0) origin s' := by
  cases hs with
  | stream hr =>
    rcases handleStream_slots hr with ⟨hslots, hvalid, hnone⟩ | ⟨c, header, question, rfl, hsome⟩
    · rw [ServerEvent.forwards, hnone, if_neg Bool.false_ne_true]
      exact h.of_same hslots (congrFun hvalid n)
    · rw [ServerEvent.forwards, hsome, if_pos rfl] at hk ⊢
      have hcache : SlotKept n k origin { s with cache := c } := h.of_same ⟨rfl, rfl⟩ rfl
      exact hcache.send hn (by omega) _ header question
  | timer bufId =>
    exact h.of_same (timerHandler_slots s bufId) (congrFun (timerHandler_valid s bufId) n)
  | @wake _ id hr =>
    refine h.of_same (wakeSendQuery_slots hr) ?_
    obtain ⟨-, -, hvalid⟩ := wakeSendQuery_eq_some hr
    rw [hvalid, Function.update_of_ne]
    rintro rfl
    exact hwake (by rw [UInt16.ofNat_toNat])

/-- **A run** leaves the slot alone that forwards at most 65535 queries. -/
theorem trace (h : SlotKept n 0 origin s₀) (hn : n < 0x10000)
    (hrun : Trace Server.Step s₀ es s) (hwake : .wake (.ofNat n) ∉ es)
    (hfew : es.countP ServerEvent.forwards ≤ 0xffff) :
    SlotKept n (es.countP ServerEvent.forwards) origin s := by
  induction hrun with
  | start => exact h
  | @step es s s' e _ hs ih =>
    rw [List.countP_append, List.countP_singleton] at hfew ⊢
    simp only [List.mem_append, List.mem_singleton, not_or] at hwake
    exact (ih hwake.1 (by omega)).step hs hn (Ne.symm hwake.2) hfew

end SlotKept

/-- **A forwarded query opens its slot**, before the counter has left the 16 bits. -/
theorem SlotKept.opened (hcount : s.buf1Len ≤ 0xffff) (client : SockAddr) (header : DnsHeader)
    (question : DnsQuestion) :
    SlotKept s.buf1Len 0 (header.id, client) (handleSendQuery s client header question).1 := by
  have hmap : mapLen = 0x10001 := rfl
  have hnext : s.nextId.toNat = s.buf1Len := by
    rw [Server.nextId, if_neg (by omega), UInt16.toNat_ofNat']
    omega
  refine ⟨?_, ?_, .inl ?_⟩
  · rw [handleSendQuery_origins, Function.update_self]
  · rw [handleSendQuery_valid, hnext, Function.update_self]
    decide
  · rw [handleSendQuery_buf1Len, if_neg (by omega)]
    omega

/-! ## Transactions -/

/-- **A query is forwarded as a message**: with its question, under the wire id. -/
theorem handleSendQuery_message (client : SockAddr) (hH : HeaderOf header m) (hq : m.question = [q])
    (hls : ∀ l ∈ q.qname, IsPlainLabel l) (hnone : recordsOf m = []) :
    Says (handleSendQuery s client header (questionOf q)).2 { m with id := s.nextId } := by
  obtain ⟨id, flags, question, answer, authority, additional⟩ := m
  obtain ⟨rfl, hnone⟩ := List.append_eq_nil_iff.mp hnone
  obtain ⟨rfl, rfl⟩ := List.append_eq_nil_iff.mp hnone
  subst hq
  have hwritten : (handleSendQuery s client header (questionOf q)).2 =
      (Message.mk s.nextId flags [q] [] [] []).written := by
    show dumpHeader { header with id := s.nextId } ++ dumpQuestion (questionOf q) = _
    rw [hH.dump, dumpQuestion_questionOf hls, questionOctets]
    simp [Message.written, Question.written]
  have hone : 1 < 2 ^ 16 := Nat.one_lt_two_pow (Nat.succ_ne_zero 15)
  have hzero : 0 < 2 ^ 16 := Nat.two_pow_pos 16
  have hempty : ∀ r ∈ ([] : List Record), r.Writable := List.forall_mem_nil _
  rw [hwritten]
  apply Message.Writable.says_written
  refine ⟨?_, hempty, hempty, hempty, hone, hzero, hzero, hzero⟩
  intro q' hq' l hl
  obtain rfl := List.mem_singleton.mp hq'
  exact (hls l hl).1

/-- A forwarded query is the one that was received, and its slot is opened. -/
theorem forwarded_query (hquery : Says query m) (hq : m.question = [q])
    (hqr : m.flags.1.toNat < 128) (hcount : s.buf1Len ≤ 0xffff)
    (hr : handleStream s now client query = .ok (s', [.relay up])) :
    ∃ header, HeaderOf header m ∧ up = (handleSendQuery s client header (questionOf q)).2 ∧
      parseStream query = .ok (header, .query (questionOf q)) ∧
      SlotKept s.buf1Len 0 (m.id, client) s' := by
  obtain ⟨header, hH, hparse⟩ := parseStream_query_reads hquery hq hqr
  rw [handleStream_of_parse hparse] at hr
  obtain ⟨⟨c, r⟩, -, hr⟩ := bind_eq_ok.mp hr
  cases r with
  | nameError datagram => cases hr
  | cached hd cname list datagram => cases hr
  | miss =>
    cases hr
    have hslot := @SlotKept.opened { s with cache := c } hcount client header (questionOf q)
    exact ⟨header, hH, rfl, hparse, hH.id ▸ hslot⟩

/-- **A transaction**: a query without records is forwarded as a message under its wire id; and
when at most 65535 other queries were forwarded since, and it has not woken up, a response with
this wire id is relayed to its client as a message with the id of the query. Both datagrams fit into
the send buffers, if those received find room. -/
theorem transaction_relayed {now' : ℤ} {addr : SockAddr} (hcount : s.buf1Len ≤ 0xffff)
    (hquery : Says query m) (hq : m.question = [q])
    (hqr : m.flags.1.toNat < 128) (hls : ∀ l ∈ q.qname, IsPlainLabel l) (hnone : recordsOf m = [])
    (hask : handleStream s now client query = .ok (s₁, [.relay up]))
    (hrun : Trace Server.Step s₁ es s₂) (hfew : es.countP ServerEvent.forwards ≤ 0xffff)
    (hwake : .wake (wireId up) ∉ es) (hmsg : Says msg m') (hq' : m'.question = [q'])
    (hqr' : 128 ≤ m'.flags.1.toNat) (hplace : RelaysInPlace msg m' q') (hid : m'.id = wireId up)
    (hanswer : handleStream s₂ now' addr msg = .ok (s', sent)) (hroom : HasRoom s now query)
    (hroom' : HasRoom s₂ now' msg) :
    up.length ≤ bufferLen ∧ Says up { m with id := wireId up } ∧
      ∃ datagram, sent = [.reply client datagram] ∧ datagram.length ≤ bufferLen ∧
        Says datagram { m' with id := m.id } := by
  obtain ⟨header, hH, rfl, hparse₀, hslot⟩ := forwarded_query hquery hq hqr hcount hask
  have hwire : wireId (handleSendQuery s client header (questionOf q)).2 = s.nextId :=
    wireId_handleSendQuery
  have hmap : mapLen = 0x10001 := rfl
  have hnext : s.nextId = .ofNat s.buf1Len := by rw [Server.nextId, if_neg (by omega)]
  rw [hwire] at hwake hid ⊢
  rw [hnext] at hwake
  refine ⟨?_, handleSendQuery_message client hH hq hls hnone, ?_⟩
  · rw [handleSendQuery_length]
    exact parseStream_query_size hroom.received hparse₀
  have hkept := hslot.trace (by omega) hrun hwake hfew
  obtain ⟨hlabels, K, octets, hin, hsection⟩ := hplace
  obtain ⟨hd, r, hHd, ⟨t, hbuf⟩, hparse, hsend⟩ :=
    relayedResponse_eq hmsg hq' hqr' hlabels hsection.sectionAt
  have hrid : r.header.id = s.nextId := by
    obtain ⟨rest, hparse', -⟩ := isResponse_of_parseStream hparse
    rw [receiveBuffer, hbuf, List.append_assoc, parseHeader_dumpHeader] at hparse'
    cases hparse'
    exact hHd.id.trans hid
  rw [handleStream_of_parse hparse] at hanswer
  obtain ⟨⟨s₃, sent₃, nodes⟩, hrelay, hr⟩ := bind_eq_ok.mp hanswer
  cases hr
  -- the slot of the wire id is open, and holds the client and its id
  have hslotId : s.nextId.toNat = s.buf1Len := by
    rw [hnext, UInt16.toNat_ofNat']
    omega
  obtain ⟨horiginId, horiginClient⟩ := Prod.mk.inj hkept.origin
  have hfits := (relayResponse_fits_iff hrelay).mpr (hroom'.fits _ hparse)
  rcases relayResponse_cases hrelay with ⟨hclosed, -⟩ | ⟨-, rfl, -⟩
  · rw [hrid, hslotId] at hclosed
    exact absurd hclosed hkept.valid
  · have hle := hfits _ (List.mem_singleton_self _)
    rw [hsend s₂, hid, hslotId, horiginId, horiginClient] at hle ⊢
    exact ⟨_, rfl, hle,
      says_written hHd hq' (fun l hl => (hlabels l hl).1) hbuf hin hsection m.id⟩

theorem servedMessage_inPlace :
    RelaysInPlace servedMessage.written servedMessage sampleQuestion := by
  have howner : PlainAt servedMessage.written 21 [ascii "a", ascii "b"] 26 :=
    ⟨by decide, by decide, rfl⟩
  have hkept : RecordKept servedMessage.written ∅ 21 21
      ⟨[ascii "a", ascii "b"], 1, 1, 60, .octets [10, 3, 9, 44]⟩ 26 4 :=
    { labels := by decide
      owner := .inl howner
      fixed := by decide
      inside := by decide
      data := .octets (by decide) (by decide) (by decide) (by decide) rfl
      keptOwner := fun i hi => absurd hi (Set.notMem_empty i)
      keptData := fun i hi => absurd hi (Set.notMem_empty i) }
  exact ⟨by decide, ∅, _, fun i hi => absurd hi (Set.notMem_empty i), .cons hkept .nil⟩

theorem transaction_relayed_first : ∃ s₁ up s' sent,
    handleStream (.init .init) 0 localClient askingMessage.written = .ok (s₁, [.relay up]) ∧
      handleStream s₁ 0 ⟨0x0a030944, 53⟩ servedMessage.written = .ok (s', sent) ∧
        up.length ≤ bufferLen ∧ Says up { askingMessage with id := wireId up } ∧
          ∃ datagram, sent = [.reply localClient datagram] ∧ datagram.length ≤ bufferLen ∧
            Says datagram { servedMessage with id := 7 } := by
  obtain ⟨header, hH, hparse⟩ :=
    @parseStream_query_reads _ _ sampleQuestion askingMessage_writable.says_written rfl (by decide)
  have hmiss : handleReadCache .init 0 header (questionOf sampleQuestion) = .ok (.init, .miss) :=
    rfl
  obtain ⟨s₁, up, hs₁, hid, hask⟩ : ∃ s₁ up,
      s₁ = (handleSendQuery (.init .init) localClient header (questionOf sampleQuestion)).1 ∧
        wireId up = 1 ∧
        handleStream (.init .init) 0 localClient askingMessage.written = .ok (s₁, [.relay up]) := by
    refine ⟨_, (handleSendQuery (.init .init) localClient header (questionOf sampleQuestion)).2,
      rfl, wireId_handleSendQuery, ?_⟩
    rw [handleStream_of_parse hparse, processStream, answerQuery]
    show (handleReadCache .init 0 header (questionOf sampleQuestion) >>= _) = _
    rw [hmiss]
    rfl
  have hreads : Reads servedMessage.written (OwnerAt servedMessage.written)
      (PlainAt servedMessage.written) servedMessage :=
    servedMessage_writable.reads.mono (fun _ _ _ h => ⟨h.nameAt, .inl h⟩) fun _ _ _ h => h
  obtain ⟨hd, response, hparse', hholds⟩ :=
    @parseStream_response_reads _ _ sampleQuestion hreads rfl (by decide)
  have hsafe : ResponseSafe s₁.cache response := by
    have hname : questionOf sampleQuestion = response.question :=
      List.singleton_injective hholds.question
    intro _ _ _ t _
    rw [hs₁, ← hname]
    exact ⟨by decide, fun l hl => absurd hl (Cache.init_has t _ l)⟩
  have hindex : s₁.cache.IndexInv := by
    rw [hs₁]
    exact Cache.Inv.init.index
  obtain ⟨c, nodes, hcache⟩ := cacheResponse_ok 0 hindex hsafe
  obtain ⟨s', sent, hanswer⟩ : ∃ s' sent,
      handleStream s₁ 0 ⟨0x0a030944, 53⟩ servedMessage.written = .ok (s', sent) := by
    rw [handleStream_of_parse hparse', processStream]
    simp only [relayResponse, hcache, ok_bind]
    split_ifs <;> exact ⟨_, _, rfl⟩
  have hcount : (Server.init .init).buf1Len ≤ 0xffff := by decide
  have hone : 1 < mapLen := by decide
  have hroom : HasRoom (.init .init) 0 askingMessage.written :=
    hasRoom_query (by decide) hparse (fun _ _ _ _ _ hf => by cases hf) hone
  have hroom' : HasRoom s₁ 0 servedMessage.written := by
    obtain ⟨hd₀, response₀, hparse₀, hsize⟩ : ∃ hd response,
        parseStream servedMessage.written = .ok (hd, .response response) ∧
          responseSize response = 40 := by
      obtain ⟨zs, hzs⟩ : ∃ zs,
        receiveBuffer servedMessage.written = servedMessage.written ++ zs := ⟨_, rfl⟩
      rw [parseStream, hzs]
      exact ⟨_, _, rfl, rfl⟩
    have hle : 40 ≤ bufferLen := by decide
    exact hasRoom_response (by decide) hparse₀ (hsize.trans_le hle)
  have htransaction := @transaction_relayed (.init .init) s₁ s₁ s' 0 localClient up _
    servedMessage.written sent [] askingMessage servedMessage sampleQuestion sampleQuestion 0
    ⟨0x0a030944, 53⟩ hcount askingMessage_writable.says_written rfl (by decide) (by decide) rfl hask
    .start (by decide) List.not_mem_nil servedMessage_writable.says_written rfl (by decide)
    servedMessage_inPlace hid.symm hanswer hroom hroom'
  exact ⟨s₁, up, s', sent, hask, hanswer, htransaction⟩

end Adrift
