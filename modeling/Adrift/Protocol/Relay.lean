import Adrift.Lib.Transition
import Adrift.Protocol.Bounds
import Adrift.Protocol.Forward

/-!
# The relay

Every forwarded query waits on the semaphore of its wire id until its response or its timer posts
it. A query is forwarded in one step, up to its wait, and wakes up in one step, which clears the
valid flag of its slot and cancels its timer. Responses may come late, in any order and several
times, and a timer fires again until it is cancelled.

## Main definitions

* `Query`: a forwarded query, with what happened on its behalf
* `Relay`: the server and the queries it forwarded, the last one first
* `Relay.Step`: forwarding, responses, timers, wake-ups, and changes of the cache

## Main results

* `relayResponse_cases`, `wakeSendQuery_eq_some`: what the handlers do to flags and semaphores
* `handleStream_relay`: a received datagram is processed by these steps
-/

namespace Adrift

open Outcome Transition

/-! ## The slots -/

/-- The valid flags of the slots. -/
def Server.valid (s : Server) (i : ℕ) : UInt8 := (s.convertTable i).valid

/-- The semaphore counts of the slots. -/
def Server.sem (s : Server) (i : ℕ) : ℕ := (s.convertTable i).sem

variable {s s' : Server} {client : SockAddr} {header : DnsHeader} {question : DnsQuestion}

/-- The wire id that the next forwarded query gets. -/
def Server.nextId (s : Server) : UInt16 := .ofNat (if mapLen ≤ s.buf1Len then 1 else s.buf1Len)

theorem Server.sem_update (table : ℕ → Convert) (c : Cache) (i n : ℕ) (entry : Convert) :
    Server.sem ⟨c, Function.update table i entry, n⟩ =
      Function.update (Server.sem ⟨c, table, n⟩) i entry.sem :=
  Function.comp_update Convert.sem table i entry

theorem Server.valid_update (table : ℕ → Convert) (c : Cache) (i n : ℕ) (entry : Convert) :
    Server.valid ⟨c, Function.update table i entry, n⟩ =
      Function.update (Server.valid ⟨c, table, n⟩) i entry.valid :=
  Function.comp_update Convert.valid table i entry

/-- **Forwarding a query** posts nothing. -/
theorem handleSendQuery_sem : (handleSendQuery s client header question).1.sem = s.sem := by
  refine (Server.sem_update ..).trans ?_
  refine (Function.update_eq_self _ _).trans ((Server.sem_update ..).trans ?_)
  exact Function.update_eq_self _ _

/-- **Forwarding a query** makes the slot of its wire id valid. -/
theorem handleSendQuery_valid : (handleSendQuery s client header question).1.valid =
    Function.update s.valid s.nextId.toNat 1 := by
  refine (Server.valid_update ..).trans ?_
  congr 1
  exact (Server.valid_update ..).trans (Function.update_eq_self _ _)

theorem wireId_handleSendQuery :
    wireId (handleSendQuery s client header question).2 = s.nextId :=
  wireId_dumpHeader ..

theorem handleSendQuery_buf1Len : (handleSendQuery s client header question).1.buf1Len =
    (if mapLen ≤ s.buf1Len then 1 else s.buf1Len) + 1 := rfl

/-- **A timer** posts the semaphore of its wire id. -/
theorem timerHandler_sem (s : Server) (id : UInt16) :
    (timerHandler s id).sem = Function.update s.sem id.toNat (s.sem id.toNat + 1) :=
  Server.sem_update ..

theorem timerHandler_valid (s : Server) (id : UInt16) : (timerHandler s id).valid = s.valid :=
  (Server.valid_update ..).trans (Function.update_eq_self _ _)

/-- **A wake-up** takes a token of the semaphore, and clears the valid flag. -/
theorem wakeSendQuery_eq_some {id : UInt16} (hr : wakeSendQuery s id = some s') :
    s.sem id.toNat ≠ 0 ∧ s'.sem = Function.update s.sem id.toNat (s.sem id.toNat - 1) ∧
      s'.valid = Function.update s.valid id.toNat 0 := by
  rw [wakeSendQuery] at hr
  split_ifs at hr with h
  cases hr
  exact ⟨h, Server.sem_update .., Server.valid_update ..⟩

/-- **What a response does**: it is rejected, or relayed with a token posted for the waiter. -/
theorem relayResponse_cases {now : ℤ} {r : Response} {sent : List Sent} {nodes : SectionNodes}
    (hr : relayResponse s now r = .ok (s', sent, nodes)) :
    s.valid r.header.id.toNat = 0 ∧ sent = [] ∧ s'.convertTable = s.convertTable ∨
      s.valid r.header.id.toNat ≠ 0 ∧ sent = [handleSendResponse s r.header.id r] ∧
        s'.sem = Function.update s.sem r.header.id.toNat (s.sem r.header.id.toNat + 1) ∧
          s'.valid = s.valid := by
  obtain ⟨⟨c, nodes⟩, -, hr⟩ := bind_eq_ok.mp hr
  dsimp only at hr
  split_ifs at hr with h
  · cases hr
    exact .inl ⟨h, rfl, rfl⟩
  · cases hr
    exact .inr ⟨h, rfl, Server.sem_update ..,
      (Server.valid_update ..).trans (Function.update_eq_self _ _)⟩

/-- A response changes no valid flag. -/
theorem relayResponse_valid {now : ℤ} {r : Response} {sent : List Sent} {nodes : SectionNodes}
    (hr : relayResponse s now r = .ok (s', sent, nodes)) : s'.valid = s.valid := by
  rcases relayResponse_cases hr with ⟨-, -, htable⟩ | ⟨-, -, -, hvalid⟩
  · funext i
    rw [Server.valid, htable, Server.valid]
  · exact hvalid

/-! ## The relay -/

/-- **A forwarded query**: its wire id, whether it still waits, and how often
`handle_send_response` was executed on its behalf. -/
structure Query where
  id : UInt16
  waiting : Bool
  relays : ℕ

/-- A query when it is forwarded. -/
def Query.forwarded (id : UInt16) : Query := ⟨id, true, 0⟩

/-- A query after a response with its wire id, which was relayed `n` times. -/
def Query.answer (q : Query) (n : ℕ) : Query := { q with relays := q.relays + n }

/-- A query after its wake-up. -/
def Query.wake (q : Query) : Query := { q with waiting := false }

/-- The server and the queries it forwarded, the last one first. -/
structure Relay where
  server : Server
  queries : List Query

/-- The relay before the first datagram. -/
def Relay.init (cache : Cache) : Relay := ⟨.init cache, []⟩

/-- A change of the holder of a wire id, the query that was forwarded last under it. -/
def onHolder (id : UInt16) (f : Query → Query) : List Query → List Query
  | [] => []
  | q :: qs => if q.id = id then f q :: qs else q :: onHolder id f qs

/-- The events of the relay. Timers and wake-ups are those of the query that `age` queries were
forwarded after. -/
inductive RelayEvent
  | forward (client : SockAddr) (header : DnsHeader) (question : DnsQuestion)
  | response (now : ℤ) (r : Response)
  | timer (age : ℕ)
  | wake (age : ℕ)
  | cache (cache : Cache)

/-- **The steps of the relay**. -/
inductive Relay.Step : Relay → RelayEvent → Relay → Prop
  /-- A query is forwarded, up to its wait. -/
  | forward {s : Server} {qs : List Query} (client : SockAddr) (header : DnsHeader)
      (question : DnsQuestion) :
      Step ⟨s, qs⟩ (.forward client header question)
        ⟨(handleSendQuery s client header question).1,
          .forwarded (wireId (handleSendQuery s client header question).2) :: qs⟩
  /-- A response is processed, on behalf of the holder of its wire id. -/
  | response {s s' : Server} {qs : List Query} {now : ℤ} {r : Response} {sent : List Sent}
      {nodes : SectionNodes} (hr : relayResponse s now r = .ok (s', sent, nodes)) :
      Step ⟨s, qs⟩ (.response now r) ⟨s', onHolder r.header.id (·.answer sent.length) qs⟩
  /-- The timer of a waiting query fires. -/
  | timer {s : Server} {qs : List Query} {age : ℕ} {q : Query} (hq : qs[age]? = some q)
      (hw : q.waiting) : Step ⟨s, qs⟩ (.timer age) ⟨timerHandler s q.id, qs⟩
  /-- A waiting query wakes up, and its timer is cancelled. -/
  | wake {s s' : Server} {qs : List Query} {age : ℕ} {q : Query} (hq : qs[age]? = some q)
      (hw : q.waiting) (hr : wakeSendQuery s q.id = some s') :
      Step ⟨s, qs⟩ (.wake age) ⟨s', qs.set age q.wake⟩
  /-- Queries answered from the cache change the cache only. -/
  | cache {s : Server} {qs : List Query} (cache : Cache) :
      Step ⟨s, qs⟩ (.cache cache) ⟨{ s with cache }, qs⟩

/-- A client on the host itself. -/
def localClient : SockAddr := ⟨0x7f000001, 5353⟩

/-- A question for an address. -/
def localQuestion : DnsQuestion := ⟨.ofBlock (ascii "a.b."), 1, 1⟩

/-- The relay after the first forwarded query. -/
def Relay.first : Relay :=
  ⟨(handleSendQuery (.init .init) localClient getDefaultHeader localQuestion).1, [.forwarded 1]⟩

theorem Relay.first_step : Relay.Step (.init .init)
    (.forward localClient getDefaultHeader localQuestion) .first :=
  .forward localClient getDefaultHeader localQuestion

/-- A response without records. -/
def emptyResponse (id : UInt16) : Response where
  header := { getDefaultHeader with id }
  question := localQuestion
  answer := []
  authority := []
  additional := []
  answer_length := List.length_nil
  authority_length := List.length_nil
  additional_length := List.length_nil

/-- A response without records is processed in every state. -/
theorem relayResponse_emptyResponse (s : Server) (now : ℤ) (id : UInt16) :
    ∃ s' sent nodes, relayResponse s now (emptyResponse id) = .ok (s', sent, nodes) := by
  have hcache : cacheResponse s.cache now (emptyResponse id) = .ok (s.cache, ⟨[], [], []⟩) := rfl
  rw [relayResponse, hcache, ok_bind]
  by_cases h : s.valid id.toNat = 0
  · exact ⟨_, _, _, if_pos h⟩
  · exact ⟨_, _, _, if_neg h⟩

/-- A response without records is relayed by a valid slot. -/
theorem exists_emptyResponse (s : Server) (qs : List Query) (now : ℤ) (id : UInt16)
    (h : s.valid id.toNat ≠ 0) : ∃ s',
      Relay.Step ⟨s, qs⟩ (.response now (emptyResponse id)) ⟨s', onHolder id (·.answer 1) qs⟩ ∧
        s'.sem = Function.update s.sem id.toNat (s.sem id.toNat + 1) ∧ s'.valid = s.valid := by
  obtain ⟨s', sent, nodes, hr⟩ := relayResponse_emptyResponse s now id
  rcases relayResponse_cases hr with ⟨hzero, -⟩ | ⟨-, rfl, hsem, hvalid⟩
  · exact absurd hzero h
  · exact ⟨s', .response hr, hsem, hvalid⟩

/-- **A received datagram** is processed by steps of the relay. -/
theorem handleStream_relay {now : ℤ} {datagram : List UInt8} {sent : List Sent}
    (hr : handleStream s now client datagram = .ok (s', sent)) (qs : List Query) :
    ∃ es qs', Trace Relay.Step ⟨s, qs⟩ es ⟨s', qs'⟩ := by
  rw [handleStream_eq] at hr
  obtain ⟨p, -, hr⟩ := bind_eq_ok.mp hr
  match p with
  | (header, .uncounted) =>
    cases hr
    exact ⟨_, _, .start⟩
  | (header, .query question) =>
    -- the lookup changes the cache, and a miss is forwarded
    obtain ⟨⟨c, r⟩, -, hr⟩ := bind_eq_ok.mp hr
    have hcache : Trace Relay.Step ⟨s, qs⟩ _ ⟨{ s with cache := c }, qs⟩ := .single (.cache c)
    cases r with
    | miss =>
      cases hr
      exact ⟨_, _, hcache.step (.forward client header question)⟩
    | nameError datagram =>
      cases hr
      exact ⟨_, _, hcache⟩
    | cached hd cname list datagram =>
      cases hr
      exact ⟨_, _, hcache⟩
  | (header, .response r) =>
    obtain ⟨⟨s₁, sent₁, nodes⟩, hrelay, hr⟩ := bind_eq_ok.mp hr
    cases hr
    exact ⟨_, _, .single (.response hrelay)⟩

end Adrift
