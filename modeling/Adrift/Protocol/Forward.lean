import Adrift.Protocol.ServerRun

/-!
# Forwarded queries

A query that the cache does not answer is forwarded under a new wire id, and its client and id are
kept in a slot of the convert table until the response comes. The slot is the counter before the
wrap test and the wire id is the counter after it, cut to 16 bits: they agree until the counter
leaves the 16 bits.

## Main definitions

* `Forwarded`: a call of `handle_send_query`, with its slot and its datagram
* `Server.SendRun s₀ log s`: a run of the server with the calls it makes
* `Faithful log s`: the slots are the wire ids, and responses find their clients

## Main results

* `Server.Run.sendRun`: the runs of the server are such runs
* `Server.SendRun.slots`: the slots of the first 65536 calls
* `faithful_iff`: forwarding is faithful up to 65535 calls, and no further
-/

namespace Adrift

open Outcome

/-- A call of `handle_send_query`: the slot it writes, the client and header it is given, and the
datagram it sends upstream. -/
structure Forwarded where
  slot : ℕ
  client : SockAddr
  header : DnsHeader
  datagram : List UInt8

/-- What a call of `handle_send_query` leaves behind. -/
def forward (s : Server) (client : SockAddr) (header : DnsHeader) (question : DnsQuestion) :
    Forwarded where
  slot := s.buf1Len
  client := client
  header := header
  datagram := (handleSendQuery s client header question).2

/-- **Runs of the server with the queries it forwards**: in between, the cache changes in any way,
responses are relayed, timers fire and waiting queries wake up. -/
inductive Server.SendRun (s₀ : Server) : List Forwarded → Server → Prop
  | start : s₀.SendRun [] s₀
  | send {log : List Forwarded} {s : Server} (client : SockAddr) (header : DnsHeader)
      (question : DnsQuestion) (hrun : s₀.SendRun log s) :
      s₀.SendRun (log ++ [forward s client header question])
        (handleSendQuery s client header question).1
  | cache {log : List Forwarded} {s : Server} (cache : Cache) (hrun : s₀.SendRun log s) :
      s₀.SendRun log { s with cache }
  | response {log : List Forwarded} {s s' : Server} {now : ℤ} {r : Response} {sent : List Sent}
      {nodes : SectionNodes} (hrun : s₀.SendRun log s)
      (hr : relayResponse s now r = .ok (s', sent, nodes)) : s₀.SendRun log s'
  | timer {log : List Forwarded} {s : Server} (bufId : UInt16) (hrun : s₀.SendRun log s) :
      s₀.SendRun log (timerHandler s bufId)
  | wake {log : List Forwarded} {s s' : Server} {id : UInt16} (hrun : s₀.SendRun log s)
      (hr : wakeSendQuery s id = some s') : s₀.SendRun log s'

/-- **Faithful forwarding**: the slot of a call is in the table and is the id on the wire; and as
long as no later call took the wire id, a response with it is sent to the client of the call under
the id of its query. -/
def Faithful (log : List Forwarded) (s : Server) : Prop :=
  (∀ f ∈ log, f.slot < mapLen ∧ f.slot = (wireId f.datagram).toNat) ∧
    ∀ before f after, log = before ++ f :: after →
      (∀ g ∈ after, wireId g.datagram ≠ wireId f.datagram) →
        ∀ r : Response, r.header.id = wireId f.datagram →
          ∃ datagram, handleSendResponse s r.header.id r = .reply f.client datagram ∧
            wireId datagram = f.header.id

variable {s₀ s s' : Server} {log : List Forwarded}

theorem Server.SendRun.answerQuery {now : ℤ} {client : SockAddr} {header : DnsHeader}
    {question : DnsQuestion} {sent : List Sent} (hrun : s₀.SendRun log s)
    (hr : answerQuery s now client header question = .ok (s', sent)) :
    ∃ log, s₀.SendRun log s' := by
  obtain ⟨⟨c, r⟩, -, hr⟩ := bind_eq_ok.mp hr
  cases r with
  | miss =>
    cases hr
    exact ⟨_, (hrun.cache c).send client header question⟩
  | nameError datagram =>
    cases hr
    exact ⟨_, hrun.cache c⟩
  | cached hd cname list datagram =>
    cases hr
    exact ⟨_, hrun.cache c⟩

theorem Server.SendRun.handleStream {now : ℤ} {client : SockAddr} {datagram : List UInt8}
    {sent : List Sent} (hrun : s₀.SendRun log s)
    (hr : handleStream s now client datagram = .ok (s', sent)) : ∃ log, s₀.SendRun log s' := by
  obtain ⟨⟨header, buf⟩, -, hr⟩ := bind_eq_ok.mp hr
  dsimp only at hr
  split_ifs at hr
  · rw [handleReceiveQuery] at hr
    split_ifs at hr
    · cases hr
      exact ⟨log, hrun⟩
    · obtain ⟨⟨question, _⟩, -, hr⟩ := bind_eq_ok.mp hr
      exact hrun.answerQuery hr
  · obtain ⟨r, -, hr⟩ := bind_eq_ok.mp hr
    obtain ⟨⟨s₁, sent₁, nodes⟩, hrelay, hr⟩ := bind_eq_ok.mp hr
    cases hr
    exact ⟨log, hrun.response hrelay⟩

/-- **The runs of the server** are runs with the queries they forward. -/
theorem Server.Run.sendRun {admits : Server → ℤ → List UInt8 → Prop} (hrun : s₀.Run admits s) :
    ∃ log, s₀.SendRun log s := by
  induction hrun with
  | start => exact ⟨[], .start⟩
  | stream _ _ hr ih =>
    obtain ⟨log, ih⟩ := ih
    exact ih.handleStream hr
  | timer bufId _ ih =>
    obtain ⟨log, ih⟩ := ih
    exact ⟨log, ih.timer bufId⟩
  | wake _ hr ih =>
    obtain ⟨log, ih⟩ := ih
    exact ⟨log, ih.wake hr⟩

/-! ## Slots -/

/-- The ids and clients kept in the slots. -/
def Server.origins (s : Server) (i : ℕ) : UInt16 × SockAddr :=
  ((s.convertTable i).bufReqId, (s.convertTable i).bufSock)

/-- The counter and the slots are as they were. -/
def SameSlots (s s' : Server) : Prop := s'.buf1Len = s.buf1Len ∧ s'.origins = s.origins

theorem origins_update (table : ℕ → Convert) (c : Cache) (i n : ℕ) (entry : Convert) :
    Server.origins ⟨c, Function.update table i entry, n⟩ =
      Function.update (Server.origins ⟨c, table, n⟩) i (entry.bufReqId, entry.bufSock) :=
  Function.comp_update (fun e : Convert => (e.bufReqId, e.bufSock)) table i entry

/-- An update of an entry that keeps its slot keeps the slots. -/
theorem origins_update_self (table : ℕ → Convert) (c : Cache) (i n : ℕ) {entry : Convert}
    (hid : entry.bufReqId = (table i).bufReqId) (hsock : entry.bufSock = (table i).bufSock) :
    Server.origins ⟨c, Function.update table i entry, n⟩ = Server.origins ⟨c, table, n⟩ := by
  rw [origins_update, hid, hsock]
  exact Function.update_eq_self i _

theorem timerHandler_slots (s : Server) (bufId : UInt16) : SameSlots s (timerHandler s bufId) :=
  ⟨rfl, origins_update_self s.convertTable s.cache _ _ rfl rfl⟩

theorem wakeSendQuery_slots {id : UInt16} (hr : wakeSendQuery s id = some s') :
    SameSlots s s' := by
  rw [wakeSendQuery] at hr
  split_ifs at hr
  cases hr
  exact ⟨rfl, origins_update_self s.convertTable s.cache _ _ rfl rfl⟩

theorem relayResponse_slots {now : ℤ} {r : Response} {sent : List Sent} {nodes : SectionNodes}
    (hr : relayResponse s now r = .ok (s', sent, nodes)) : SameSlots s s' := by
  obtain ⟨⟨c, nodes⟩, -, hr⟩ := bind_eq_ok.mp hr
  dsimp only at hr
  split_ifs at hr
  · cases hr
    exact ⟨rfl, rfl⟩
  · cases hr
    exact ⟨rfl, origins_update_self s.convertTable c _ _ rfl rfl⟩

/-- **A call of `handle_send_query`** keeps the id and the client in the slot of the counter. -/
theorem handleSendQuery_origins (client : SockAddr) (header : DnsHeader)
    (question : DnsQuestion) : (handleSendQuery s client header question).1.origins =
      Function.update s.origins s.buf1Len (header.id, client) := by
  refine (origins_update_self _ s.cache _ _ ?_ ?_).trans (origins_update s.convertTable ..)
  · rfl
  · rfl

/-- Before the wrap the wire id is the counter, which moves on by one. -/
theorem handleSendQuery_wireId (client : SockAddr) (header : DnsHeader) (question : DnsQuestion)
    (hs : s.buf1Len < mapLen) :
    wireId (handleSendQuery s client header question).2 = .ofNat s.buf1Len ∧
      (handleSendQuery s client header question).1.buf1Len = s.buf1Len + 1 := by
  simp only [handleSendQuery, if_neg (not_le.mpr hs), wireId_dumpHeader, and_self]

/-- **The first calls**: their slots are counted from one, and cut to 16 bits they are the wire
ids. -/
def SlotsFrom (log : List Forwarded) : Prop :=
  ∀ (i : ℕ) (hi : i < log.length), i ≤ 0xffff →
    log[i].slot = i + 1 ∧ wireId log[i].datagram = .ofNat (i + 1)

/-- Up to 65536 calls, the counter counts them. -/
theorem Server.SendRun.counter (hrun : s₀.SendRun log s) (h₀ : s₀.buf1Len = 1)
    (hlog : log.length ≤ 0x10000) : s.buf1Len = log.length + 1 := by
  induction hrun with
  | start => exact h₀
  | @send log s client header question hrun ih =>
    rw [List.length_append, List.length_singleton] at hlog ⊢
    have ih := ih (by omega)
    rw [(handleSendQuery_wireId client header question (by rw [ih, mapLen]; omega)).2, ih]
  | cache c hrun ih => exact ih hlog
  | response hrun hr ih => rw [(relayResponse_slots hr).1, ih hlog]
  | timer bufId hrun ih => rw [(timerHandler_slots _ bufId).1, ih hlog]
  | wake hrun hr ih => rw [(wakeSendQuery_slots hr).1, ih hlog]

/-- **A run keeps the slots of its first calls**. -/
theorem Server.SendRun.slots (hrun : s₀.SendRun log s) (h₀ : s₀.buf1Len = 1) :
    SlotsFrom log := by
  induction hrun with
  | start => exact fun i hi => nomatch hi
  | @send log s client header question hrun ih =>
    intro i hi hle
    rcases lt_or_ge i log.length with hlt | hge
    · rw [List.getElem_append_left hlt]
      exact ih i hlt hle
    · rw [List.length_append, List.length_singleton] at hi
      obtain rfl : i = log.length := by omega
      have hcount := hrun.counter h₀ (by omega)
      obtain ⟨hwire, -⟩ := handleSendQuery_wireId client header question
        (s := s) (by rw [hcount, mapLen]; omega)
      rw [List.getElem_concat_length rfl]
      exact ⟨hcount, hwire.trans (congrArg _ hcount)⟩
  | cache c hrun ih => exact ih
  | response hrun hr ih => exact ih
  | timer bufId hrun ih => exact ih
  | wake hrun hr ih => exact ih

/-- Up to 65535 calls, each slot keeps the id and the client of its call. -/
theorem Server.SendRun.kept (hrun : s₀.SendRun log s) (h₀ : s₀.buf1Len = 1)
    (hlog : log.length ≤ 0xffff) : ∀ f ∈ log, s.origins f.slot = (f.header.id, f.client) := by
  induction hrun with
  | start => exact fun f hf => nomatch hf
  | @send log s client header question hrun ih =>
    rw [List.length_append, List.length_singleton] at hlog
    intro f hf
    rw [handleSendQuery_origins]
    rcases List.mem_append.mp hf with hf | hf
    · -- the earlier calls have smaller slots
      obtain ⟨i, hi, rfl⟩ := List.mem_iff_getElem.mp hf
      have hslot := (hrun.slots h₀ i hi (by omega)).1
      have hcount := hrun.counter h₀ (by omega)
      rw [Function.update_of_ne (by omega)]
      exact ih (by omega) _ hf
    · obtain rfl := List.mem_singleton.mp hf
      exact Function.update_self ..
  | cache c hrun ih => exact ih hlog
  | response hrun hr ih => rw [(relayResponse_slots hr).2]; exact ih hlog
  | timer bufId hrun ih => rw [(timerHandler_slots _ bufId).2]; exact ih hlog
  | wake hrun hr ih => rw [(wakeSendQuery_slots hr).2]; exact ih hlog

/-! ## Faithful forwarding -/

/-- The 65536th call writes the slot behind the last wire id. -/
theorem Server.SendRun.length_of_faithful (hrun : s₀.SendRun log s) (h₀ : s₀.buf1Len = 1)
    (hf : Faithful log s) : log.length ≤ 0xffff := by
  by_contra hlen
  have hlt : 0xffff < log.length := by omega
  obtain ⟨hslot, hwire⟩ := hrun.slots h₀ 0xffff hlt le_rfl
  have hagree := (hf.1 _ (List.getElem_mem hlt)).2
  rw [hslot, hwire] at hagree
  exact absurd hagree (by decide)

/-- **Forwarding is faithful** up to 65535 calls, and no further: the slots are in the table and
are the wire ids, and a response finds the client and the id of the last call with its wire id. -/
theorem faithful_iff (h₀ : s₀.buf1Len = 1) (hrun : s₀.SendRun log s) :
    Faithful log s ↔ log.length ≤ 0xffff := by
  refine ⟨hrun.length_of_faithful h₀, fun hlog => ?_⟩
  have hagree : ∀ f ∈ log, f.slot < mapLen ∧ f.slot = (wireId f.datagram).toNat := by
    intro f hf
    obtain ⟨i, hi, rfl⟩ := List.mem_iff_getElem.mp hf
    obtain ⟨hslot, hwire⟩ := hrun.slots h₀ i hi (by omega)
    rw [hslot, hwire, mapLen, UInt16.toNat_ofNat']
    omega
  refine ⟨hagree, ?_⟩
  rintro before f after rfl - r hr
  have hf : f ∈ before ++ f :: after := List.mem_append_right _ List.mem_cons_self
  have horigin := hrun.kept h₀ hlog f hf
  rw [(hagree f hf).2, ← hr] at horigin
  obtain ⟨hid, hclient⟩ := Prod.mk.inj horigin
  refine ⟨_, congrArg (Sent.reply · _) hclient, ?_⟩
  rw [← hid]
  simp only [List.append_assoc, wireId_dumpHeader]

/-- Queries can be forwarded any number of times. -/
theorem Server.SendRun.exists_length (s₀ : Server) (client : SockAddr) (header : DnsHeader)
    (question : DnsQuestion) (n : ℕ) : ∃ log s, s₀.SendRun log s ∧ log.length = n := by
  induction n with
  | zero => exact ⟨[], s₀, .start, rfl⟩
  | succ n ih =>
    obtain ⟨log, s, hrun, rfl⟩ := ih
    exact ⟨_, _, hrun.send client header question, by simp⟩

theorem faithful_init : ∃ log s, (Server.init Cache.init).SendRun log s ∧
    log.length = 0xffff ∧ (Faithful log s ↔ log.length ≤ 0xffff) := by
  obtain ⟨log, s, hrun, hlen⟩ := Server.SendRun.exists_length (.init .init) ⟨0x7f000001, 5353⟩
    getDefaultHeader ⟨.ofBlock (ascii "a.b."), 1, 1⟩ 0xffff
  exact ⟨log, s, hrun, hlen, faithful_iff rfl hrun⟩

theorem not_faithful_wrap : ¬ ∀ log s, (Server.init Cache.init).SendRun log s →
    Faithful log s := by
  intro hall
  obtain ⟨log, s, hrun, hlen⟩ := Server.SendRun.exists_length (.init .init) ⟨0x7f000001, 5353⟩
    getDefaultHeader ⟨.ofBlock (ascii "a.b."), 1, 1⟩ 0x10000
  have := hrun.length_of_faithful rfl (hall log s hrun)
  omega

end Adrift
