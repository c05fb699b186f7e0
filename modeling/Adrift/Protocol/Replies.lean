import Adrift.Protocol.Echo
import Adrift.Protocol.Relay

/-!
# Who is answered

The server sends at most one datagram for every one it receives. What it sends to a client answers
a query of this client, under the id of that query: at once from the cache, or later from the slot
that was written when the query was forwarded. Only the wire id zero has a slot that is never
written.

## Main definitions

* `Server.Step`: received datagrams with what is sent for them, timers and wake-ups
* `Asked es client id`: the client has sent a query with this id

## Main results

* `processStream_replies`: what is sent for one datagram
* `replies_asked`: who is answered, in any run
-/

namespace Adrift

open Outcome Transition

/-- What happens to the server. -/
inductive ServerEvent
  | stream (client : SockAddr) (datagram : List UInt8) (sent : List Sent)
  | timer (bufId : UInt16)
  | wake (id : UInt16)

/-- **The steps of the server**: a datagram is received, a timer fires, or a waiting query wakes
up. -/
inductive Server.Step : Server → ServerEvent → Server → Prop
  | stream {s s' : Server} {now : ℤ} {client : SockAddr} {datagram : List UInt8}
      {sent : List Sent} (hr : handleStream s now client datagram = .ok (s', sent)) :
      Step s (.stream client datagram sent) s'
  | timer {s : Server} (bufId : UInt16) : Step s (.timer bufId) (timerHandler s bufId)
  | wake {s s' : Server} {id : UInt16} (hr : wakeSendQuery s id = some s') : Step s (.wake id) s'

/-- The datagram is a query with the id. -/
def IsQuery (datagram : List UInt8) (id : UInt16) : Prop :=
  ∃ header rest, parseHeader (receiveBuffer datagram) = .ok (header, rest) ∧ header.qr = 0 ∧
    header.id = id

/-- **The client has sent a query** with the id. -/
def Asked (es : List ServerEvent) (client : SockAddr) (id : UInt16) : Prop :=
  ∃ datagram sent, .stream client datagram sent ∈ es ∧ IsQuery datagram id

variable {s s' : Server} {now : ℤ} {client addr : SockAddr} {datagram reply : List UInt8}
  {header : DnsHeader} {question : DnsQuestion} {sent : List Sent} {es fs : List ServerEvent}
  {e : ServerEvent} {cache : Cache} {p : Parsed}

theorem Asked.mono {id : UInt16} (h : Asked es client id) (hsub : es ⊆ fs) :
    Asked fs client id := by
  obtain ⟨datagram, sent, hmem, hq⟩ := h
  exact ⟨datagram, sent, hsub hmem, hq⟩

/-- A datagram that is no response is a query. -/
theorem isQuery_of_parseStream (hp : parseStream datagram = .ok (header, p))
    (hr : ∀ r, p ≠ .response r) : IsQuery datagram header.id := by
  obtain ⟨⟨header', rest⟩, hparse, hp⟩ := bind_eq_ok.mp hp
  dsimp only at hp
  split_ifs at hp with hqr hqd
  · cases hp
    exact ⟨header, rest, hparse, hqr, rfl⟩
  · obtain ⟨⟨question, rest'⟩, -, hp⟩ := bind_eq_ok.mp hp
    cases hp
    exact ⟨header, rest, hparse, hqr, rfl⟩
  · obtain ⟨r, -, hp⟩ := bind_eq_ok.mp hp
    cases hp
    exact absurd rfl (hr r)

/-- A response is a datagram with its header. -/
theorem isResponse_of_parseStream {r : Response}
    (hp : parseStream datagram = .ok (header, .response r)) :
    ∃ rest, parseHeader (receiveBuffer datagram) = .ok (r.header, rest) ∧ r.header.qr ≠ 0 := by
  obtain ⟨⟨header', rest⟩, hheader, hp⟩ := bind_eq_ok.mp hp
  dsimp only at hp
  split_ifs at hp with hqr hqd
  · cases hp
  · obtain ⟨⟨question, rest'⟩, -, hp⟩ := bind_eq_ok.mp hp
    cases hp
  · obtain ⟨r', hparse, hp⟩ := bind_eq_ok.mp hp
    cases hp
    obtain ⟨⟨question, buf⟩, -, hparse⟩ := bind_eq_ok.mp hparse
    obtain ⟨⟨answer, buf⟩, -, hparse⟩ := bind_eq_ok.mp hparse
    obtain ⟨⟨authority, buf⟩, -, hparse⟩ := bind_eq_ok.mp hparse
    obtain ⟨⟨additional, buf⟩, -, hparse⟩ := bind_eq_ok.mp hparse
    cases hparse
    exact ⟨rest, hheader, hqr⟩

/-- **What is sent for one datagram**: at most one, and what goes to a client answers the query
that was received, or comes from the valid slot of the wire id of a response. -/
theorem processStream_replies (hr : processStream s now client (header, p) = .ok (s', sent)) :
    sent.length ≤ 1 ∧ ∀ addr reply, .reply addr reply ∈ sent →
      (∀ r, p ≠ .response r) ∧ addr = client ∧
          (wireId reply = header.id ∨ reply = dumpHeader (getErrorHeader .formatError)) ∨
        ∃ r, p = .response r ∧ s.valid r.header.id.toNat ≠ 0 ∧
          s.origins r.header.id.toNat = (wireId reply, addr) := by
  cases p with
  | uncounted =>
    cases hr
    refine ⟨le_rfl, ?_⟩
    intro addr reply hmem
    cases List.mem_singleton.mp hmem
    exact .inl ⟨by rintro r ⟨⟩, rfl, .inr rfl⟩
  | query question =>
    obtain ⟨⟨c, r⟩, hread, hr⟩ := bind_eq_ok.mp hr
    have hreply : ∀ {hd : DnsHeader} {t : List UInt8}, hd.id = header.id →
        ∀ addr reply, Sent.reply addr reply ∈ [Sent.reply client (dumpHeader hd ++ t)] →
          (∀ r, Parsed.query question ≠ .response r) ∧ addr = client ∧
            (wireId reply = header.id ∨ reply = dumpHeader (getErrorHeader .formatError)) := by
      intro hd t hid addr reply hmem
      cases List.mem_singleton.mp hmem
      exact ⟨by rintro r ⟨⟩, rfl, .inl (by rw [wireId_dumpHeader, hid])⟩
    have hnone : ∀ {d : List UInt8} addr reply, Sent.reply addr reply ∉ [Sent.relay d] := by
      intro d addr reply hmem
      cases List.mem_singleton.mp hmem
    rcases handleReadCache_cases hread with ⟨-, rfl⟩ |
      ⟨t, l, heap, size, nodes, -, -, -, -, -, hfrom⟩
    · cases hr
      exact ⟨le_rfl, fun addr reply hmem => absurd hmem (hnone addr reply)⟩
    · rcases replyFrom_cases hfrom with rfl | ⟨hd, t, -, hid, -, rfl | ⟨cname, list, rfl⟩⟩
      · cases hr
        exact ⟨le_rfl, fun addr reply hmem => absurd hmem (hnone addr reply)⟩
      · cases hr
        exact ⟨le_rfl, fun addr reply hmem => .inl (hreply hid addr reply hmem)⟩
      · cases hr
        exact ⟨le_rfl, fun addr reply hmem => .inl (hreply hid addr reply hmem)⟩
  | response r =>
    obtain ⟨⟨s₁, sent₁, nodes⟩, hrelay, hr⟩ := bind_eq_ok.mp hr
    cases hr
    rcases relayResponse_cases hrelay with ⟨-, rfl, -⟩ | ⟨hvalid, rfl, -⟩
    · exact ⟨Nat.zero_le 1, fun addr reply hmem => absurd hmem List.not_mem_nil⟩
    · refine ⟨le_rfl, ?_⟩
      intro addr reply hmem
      cases List.mem_singleton.mp hmem
      refine .inr ⟨r, rfl, hvalid, ?_⟩
      simp only [List.append_assoc, wireId_dumpHeader]
      rfl

/-! ## The slots -/

/-- **The slots were written for queries**: all but the first, and the valid ones but for slot
zero. -/
structure SlotsAsked (es : List ServerEvent) (s : Server) : Prop where
  pos : 1 ≤ s.buf1Len
  first : 1 < s.buf1Len → Asked es (s.origins 1).2 (s.origins 1).1
  slot : ∀ i, Asked es (s.origins i).2 (s.origins i).1 ∨
    s.origins i = (0, ⟨0, 0⟩) ∧ (i = 0 ∨ s.valid i = 0)

namespace SlotsAsked

theorem init (cache : Cache) : SlotsAsked [] (.init cache) where
  pos := le_rfl
  first h := absurd h (lt_irrefl 1)
  slot _ := .inr ⟨rfl, .inr rfl⟩

/-- The slots stay as they are, and none becomes valid. -/
theorem of_same (h : SlotsAsked es s) (hslots : SameSlots s s')
    (hvalid : ∀ i, s'.valid i = s.valid i ∨ s'.valid i = 0) (hsub : es ⊆ fs) :
    SlotsAsked fs s' := by
  obtain ⟨hlen, horigins⟩ := hslots
  refine ⟨?_, ?_, ?_⟩
  · rw [hlen]
    exact h.pos
  · intro hlt
    rw [hlen] at hlt
    rw [horigins]
    exact (h.first hlt).mono hsub
  · intro i
    rw [horigins]
    rcases h.slot i with hasked | ⟨hzero, hi⟩
    · exact .inl (hasked.mono hsub)
    · refine .inr ⟨hzero, hi.imp_right fun hi => ?_⟩
      rcases hvalid i with hv | hv
      · rw [hv, hi]
      · exact hv

/-- **A query is forwarded**: its slot is written, and the one of its wire id becomes valid, which
is the same, or slot zero, or the first one again. -/
theorem send (h : SlotsAsked es s) (hsub : es ⊆ fs) (question : DnsQuestion)
    (hasked : Asked fs client header.id) :
    SlotsAsked fs (handleSendQuery s client header question).1 := by
  refine ⟨Nat.le_add_left 1 _, ?_, ?_⟩
  · rintro -
    rw [handleSendQuery_origins]
    by_cases hone : s.buf1Len = 1
    · rw [hone, Function.update_self]
      exact hasked
    · rw [Function.update_of_ne (Ne.symm hone)]
      exact (h.first (lt_of_le_of_ne h.pos (Ne.symm hone))).mono hsub
  · intro i
    rw [handleSendQuery_origins]
    by_cases hi : i = s.buf1Len
    · rw [hi, Function.update_self]
      exact .inl hasked
    rw [Function.update_of_ne hi]
    rcases h.slot i with hold | ⟨hzero, hvalid⟩
    · exact .inl (hold.mono hsub)
    rw [handleSendQuery_valid]
    by_cases hnext : i = s.nextId.toNat
    · rw [Server.nextId, UInt16.toNat_ofNat'] at hnext
      by_cases hwrap : mapLen ≤ s.buf1Len
      · -- the first slot again
        rw [if_pos hwrap] at hnext
        have hlt : 1 < s.buf1Len := lt_of_lt_of_le (by decide) hwrap
        exact .inl (hnext ▸ (h.first hlt).mono hsub)
      · rw [if_neg hwrap] at hnext
        rw [mapLen] at hwrap
        exact .inr ⟨hzero, .inl (by omega)⟩
    · rw [Function.update_of_ne hnext]
      exact .inr ⟨hzero, hvalid⟩

theorem step (h : SlotsAsked es s) (hs : s.Step e s') : SlotsAsked (es ++ [e]) s' := by
  have hsub : es ⊆ es ++ [e] := List.subset_append_left es [e]
  cases hs with
  | @stream _ now client datagram sent hr =>
    rw [handleStream_eq] at hr
    obtain ⟨⟨header, p⟩, hp, hr⟩ := bind_eq_ok.mp hr
    cases p with
    | uncounted =>
      cases hr
      exact h.of_same ⟨rfl, rfl⟩ (fun i => .inl rfl) hsub
    | query question =>
      obtain ⟨⟨c, r⟩, -, hr⟩ := bind_eq_ok.mp hr
      have hcache : SlotsAsked es { s with cache := c } := ⟨h.pos, h.first, h.slot⟩
      cases r with
      | miss =>
        cases hr
        exact hcache.send hsub question ⟨datagram, _,
          List.mem_append_right es (List.mem_singleton_self _),
          isQuery_of_parseStream hp (by rintro r ⟨⟩)⟩
      | nameError datagram =>
        cases hr
        exact hcache.of_same ⟨rfl, rfl⟩ (fun i => .inl rfl) hsub
      | cached hd cname list datagram =>
        cases hr
        exact hcache.of_same ⟨rfl, rfl⟩ (fun i => .inl rfl) hsub
    | response r =>
      obtain ⟨⟨s₁, sent₁, nodes⟩, hrelay, hr⟩ := bind_eq_ok.mp hr
      cases hr
      exact h.of_same (relayResponse_slots hrelay)
        (fun i => .inl (congrFun (relayResponse_valid hrelay) i)) hsub
  | timer bufId =>
    exact h.of_same (timerHandler_slots s bufId)
      (fun i => .inl (congrFun (timerHandler_valid s bufId) i)) hsub
  | @wake _ id hr =>
    refine h.of_same (wakeSendQuery_slots hr) (fun i => ?_) hsub
    obtain ⟨-, -, hvalid⟩ := wakeSendQuery_eq_some hr
    rw [hvalid]
    by_cases hi : i = id.toNat
    · rw [hi, Function.update_self]
      exact .inr rfl
    · rw [Function.update_of_ne hi]
      exact .inl rfl

theorem trace (h : Trace Server.Step (.init cache) es s) : SlotsAsked es s := by
  induction h with
  | start => exact .init cache
  | step _ hs ih => exact ih.step hs

end SlotsAsked

/-- **Only who has asked is answered**, and at most once for every datagram: in any run of the
server, what it sends to a client has the id of a query that this client has sent before, but for
the format error, which has the id zero, and for responses with the wire id zero, whose slot is
never written. -/
theorem replies_asked
    (h : Trace Server.Step (.init cache) (es ++ .stream client datagram sent :: fs) s) :
    sent.length ≤ 1 ∧ ∀ addr reply, .reply addr reply ∈ sent →
      Asked (es ++ [.stream client datagram sent]) addr (wireId reply) ∨
        (∃ id, Asked (es ++ [.stream client datagram sent]) addr id) ∧
            reply = dumpHeader (getErrorHeader .formatError) ∨
          (∃ header rest, parseHeader (receiveBuffer datagram) = .ok (header, rest) ∧
            header.qr ≠ 0 ∧ header.id = 0) ∧ wireId reply = 0 ∧ addr = ⟨0, 0⟩ := by
  obtain ⟨s₁, s₂, hes, hs, -⟩ := h.split
  have hslots := SlotsAsked.trace hes
  cases hs with
  | stream hr =>
    rw [handleStream_eq] at hr
    obtain ⟨⟨header, p⟩, hp, hr⟩ := bind_eq_ok.mp hr
    obtain ⟨hlength, hreplies⟩ := processStream_replies hr
    refine ⟨hlength, ?_⟩
    intro addr reply hmem
    rcases hreplies addr reply hmem with ⟨hquery, rfl, hid⟩ | ⟨r, rfl, hvalid, hi⟩
    · have hasked : Asked (es ++ [.stream addr datagram sent]) addr header.id :=
        ⟨datagram, sent, List.mem_append_right es (List.mem_singleton_self _),
          isQuery_of_parseStream hp hquery⟩
      rcases hid with hid | hformat
      · exact .inl (hid ▸ hasked)
      · exact .inr (.inl ⟨⟨_, hasked⟩, hformat⟩)
    · rcases hslots.slot r.header.id.toNat with hasked | ⟨hzero, hid | hinvalid⟩
      · rw [hi] at hasked
        exact .inl (hasked.mono (List.subset_append_left es _))
      · obtain ⟨hwire, haddr⟩ := Prod.mk.inj (hi.symm.trans hzero)
        obtain ⟨rest, hheader, hqr⟩ := isResponse_of_parseStream hp
        have hid : r.header.id = 0 := UInt16.toNat_inj.mp hid
        exact .inr (.inr ⟨⟨r.header, rest, hheader, hqr, hid⟩, hwire, haddr⟩)
      · exact absurd hinvalid hvalid

/-- A response without records to the first forwarded query, which asks for `a.b.`. -/
def firstResponse : List UInt8 :=
  [0, 1, 129, 128, 0, 1, 0, 0, 0, 0, 0, 0] ++ [1, 97, 1, 98, 0, 0, 1, 0, 1]

theorem replies_asked_first : ∃ es s sent,
    Trace Server.Step (.init .init) (es ++ [.stream ⟨0x2c09030a, 53⟩ firstResponse sent]) s ∧
      (∃ reply, sent = [.reply ⟨0x7f000001, 5353⟩ reply]) ∧
      sent.length ≤ 1 ∧ ∀ addr reply, .reply addr reply ∈ sent →
        Asked (es ++ [.stream ⟨0x2c09030a, 53⟩ firstResponse sent]) addr (wireId reply) ∨
          (∃ id, Asked (es ++ [.stream ⟨0x2c09030a, 53⟩ firstResponse sent]) addr id) ∧
              reply = dumpHeader (getErrorHeader .formatError) ∨
            (∃ header rest, parseHeader (receiveBuffer firstResponse) = .ok (header, rest) ∧
              header.qr ≠ 0 ∧ header.id = 0) ∧ wireId reply = 0 ∧ addr = ⟨0, 0⟩ := by
  obtain ⟨s₁, s₂, sent₁, sent₂, hquery, hresponse, hsent⟩ : ∃ s₁ s₂ sent₁ sent₂,
      handleStream (.init .init) 0 ⟨0x7f000001, 5353⟩ optQuery = .ok (s₁, sent₁) ∧
        handleStream s₁ 0 ⟨0x2c09030a, 53⟩ firstResponse = .ok (s₂, sent₂) ∧
          ∃ reply, sent₂ = [.reply ⟨0x7f000001, 5353⟩ reply] :=
    ⟨_, _, _, _, rfl, rfl, _, rfl⟩
  have hes : Trace Server.Step (.init .init) [.stream ⟨0x7f000001, 5353⟩ optQuery sent₁] s₁ :=
    .single (.stream hquery)
  have h := hes.step (.stream hresponse)
  exact ⟨_, _, sent₂, h, hsent, replies_asked h⟩

end Adrift
