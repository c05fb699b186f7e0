import Adrift.Protocol.Outstanding

/-!
# Timely responses

Between the sending of a query and its wait, its slot is made valid, and after the wait the flag is
cleared and the timer cancelled, each in a step of its own. A response that is processed before the
slot is valid is rejected, although its query has just been sent.

## Main definitions

* `sendQuery`, `armQuery`, `passQuery`, `clearQuery`: the parts of `handle_send_query`
* `Pending`, `Upstream`: a sent query with its progress, and the server with the sent queries
* `Upstream.Step`: the parts of the queries, their timers and their responses, in any order
* `Upstream.Clean u e`: a query is sent on an unused slot, and a response to a finished query finds
  its slot not valid

## Main results

* `handleSendQuery_eq`, `wakeSendQuery_eq`: the parts make up `handle_send_query`
* `Upstream.Slots.step`: the slot of a query without response and timeout belongs to it alone
* `timely_relayed_iff`: on clean slots, a response before the timeout is relayed exactly when its
  slot was made valid before
-/

namespace Adrift

open Transition

/-! ## The parts of `handle_send_query` -/

/-- `handle_send_query` up to its `sendto`. -/
def sendQuery (s : Server) (client : SockAddr) (header : DnsHeader) (question : DnsQuestion) :
    Server × List UInt8 :=
  let entry := s.convertTable s.buf1Len
  let table := Function.update s.convertTable s.buf1Len
    { entry with bufReqId := header.id, bufSock := client }
  let buf1Len := if mapLen ≤ s.buf1Len then 1 else s.buf1Len
  let id : UInt16 := .ofNat buf1Len
  ({ s with convertTable := table, buf1Len := buf1Len + 1 },
    dumpHeader { header with id } ++ dumpQuestion question)

/-- The assignment `valid = 1`. -/
def armQuery (s : Server) (id : UInt16) : Server :=
  let entry := s.convertTable id.toNat
  { s with convertTable := Function.update s.convertTable id.toNat { entry with valid := 1 } }

/-- The end of the wait. -/
def passQuery (s : Server) (id : UInt16) : Option Server :=
  let entry := s.convertTable id.toNat
  if entry.sem = 0 then none
  else some { s with convertTable :=
      Function.update s.convertTable id.toNat { entry with sem := entry.sem - 1 } }

/-- The assignment `valid = 0`. -/
def clearQuery (s : Server) (id : UInt16) : Server :=
  let entry := s.convertTable id.toNat
  { s with convertTable := Function.update s.convertTable id.toNat { entry with valid := 0 } }

variable {s s' : Server} {client : SockAddr} {header : DnsHeader} {question : DnsQuestion}
  {id : UInt16}

/-- **Forwarding a query** is sending it and making its slot valid. -/
theorem handleSendQuery_eq : handleSendQuery s client header question =
    (armQuery (sendQuery s client header question).1 s.nextId,
      (sendQuery s client header question).2) := rfl

/-- **A wake-up** is the end of the wait and the clearing of the flag. -/
theorem wakeSendQuery_eq : wakeSendQuery s id = (passQuery s id).map (clearQuery · id) := by
  rw [wakeSendQuery, passQuery]
  split_ifs
  · rfl
  · simp only [Option.map_some, clearQuery, Function.update_self, Function.update_idem]

theorem wireId_sendQuery : wireId (sendQuery s client header question).2 = s.nextId :=
  wireId_dumpHeader ..

theorem sendQuery_sem : (sendQuery s client header question).1.sem = s.sem :=
  (Server.sem_update ..).trans (Function.update_eq_self _ _)

theorem sendQuery_valid : (sendQuery s client header question).1.valid = s.valid :=
  (Server.valid_update ..).trans (Function.update_eq_self _ _)

theorem armQuery_sem : (armQuery s id).sem = s.sem :=
  (Server.sem_update ..).trans (Function.update_eq_self _ _)

theorem armQuery_valid : (armQuery s id).valid = Function.update s.valid id.toNat 1 :=
  Server.valid_update ..

theorem clearQuery_sem : (clearQuery s id).sem = s.sem :=
  (Server.sem_update ..).trans (Function.update_eq_self _ _)

theorem clearQuery_valid : (clearQuery s id).valid = Function.update s.valid id.toNat 0 :=
  Server.valid_update ..

theorem passQuery_eq_some (hr : passQuery s id = some s') :
    s.sem id.toNat ≠ 0 ∧ s'.sem = Function.update s.sem id.toNat (s.sem id.toNat - 1) ∧
      s'.valid = s.valid ∧ s'.buf1Len = s.buf1Len := by
  rw [passQuery] at hr
  split_ifs at hr with h
  cases hr
  exact ⟨h, Server.sem_update ..,
    (Server.valid_update ..).trans (Function.update_eq_self _ _), rfl⟩

/-! ## The steps -/

/-- **How far a sent query is**: sent, waiting in a valid slot, after its wait, with its flag
cleared, and with its timer cancelled. -/
inductive Phase
  | sent
  | armed
  | passed
  | cleared
  | done
  deriving DecidableEq

/-- **A sent query**: its wire id, how far it is, whether it was answered by the upstream server,
and whether its timer has fired. -/
structure Pending where
  id : UInt16
  phase : Phase
  answered : Bool
  fired : Bool

/-- The server and the queries it sent, the last one first. -/
structure Upstream where
  server : Server
  queries : List Pending

/-- Before the first datagram. -/
def Upstream.init (cache : Cache) : Upstream := ⟨.init cache, []⟩

/-- The events. All but the sending of a query and a change of the cache concern the query that
`age` queries were sent after. -/
inductive UpstreamEvent
  | send (client : SockAddr) (header : DnsHeader) (question : DnsQuestion)
  | arm (age : ℕ)
  | timer (age : ℕ)
  | pass (age : ℕ)
  | clear (age : ℕ)
  | cancel (age : ℕ)
  | response (age : ℕ) (now : ℤ) (r : Response)
  | cache (cache : Cache)

/-- **The steps**, in any order. A timer runs from the wait on until it is cancelled, and a response
carries the wire id of the query it answers. -/
inductive Upstream.Step : Upstream → UpstreamEvent → Upstream → Prop
  | send {s : Server} {qs : List Pending} (client : SockAddr) (header : DnsHeader)
      (question : DnsQuestion) :
      Step ⟨s, qs⟩ (.send client header question)
        ⟨(sendQuery s client header question).1,
          ⟨wireId (sendQuery s client header question).2, .sent, false, false⟩ :: qs⟩
  | arm {s : Server} {qs : List Pending} {age : ℕ} {q : Pending} (hq : qs[age]? = some q)
      (hphase : q.phase = .sent) :
      Step ⟨s, qs⟩ (.arm age) ⟨armQuery s q.id, qs.set age { q with phase := .armed }⟩
  | timer {s : Server} {qs : List Pending} {age : ℕ} {q : Pending} (hq : qs[age]? = some q)
      (hphase : q.phase ≠ .sent ∧ q.phase ≠ .done) :
      Step ⟨s, qs⟩ (.timer age) ⟨timerHandler s q.id, qs.set age { q with fired := true }⟩
  | pass {s s' : Server} {qs : List Pending} {age : ℕ} {q : Pending} (hq : qs[age]? = some q)
      (hphase : q.phase = .armed) (hr : passQuery s q.id = some s') :
      Step ⟨s, qs⟩ (.pass age) ⟨s', qs.set age { q with phase := .passed }⟩
  | clear {s : Server} {qs : List Pending} {age : ℕ} {q : Pending} (hq : qs[age]? = some q)
      (hphase : q.phase = .passed) :
      Step ⟨s, qs⟩ (.clear age) ⟨clearQuery s q.id, qs.set age { q with phase := .cleared }⟩
  | cancel {s : Server} {qs : List Pending} {age : ℕ} {q : Pending} (hq : qs[age]? = some q)
      (hphase : q.phase = .cleared) :
      Step ⟨s, qs⟩ (.cancel age) ⟨s, qs.set age { q with phase := .done }⟩
  | response {s s' : Server} {qs : List Pending} {age : ℕ} {q : Pending} {now : ℤ} {r : Response}
      {sent : List Sent} {nodes : SectionNodes} (hq : qs[age]? = some q) (hid : r.header.id = q.id)
      (hr : relayResponse s now r = .ok (s', sent, nodes)) :
      Step ⟨s, qs⟩ (.response age now r) ⟨s', qs.set age { q with answered := true }⟩
  | cache {s : Server} {qs : List Pending} (cache : Cache) :
      Step ⟨s, qs⟩ (.cache cache) ⟨{ s with cache }, qs⟩

/-- **The upstream server answers a query at most once**. -/
def Upstream.AnswersOnce (u : Upstream) : UpstreamEvent → Prop
  | .response age _ _ => ∀ q : Pending, u.queries[age]? = some q → q.answered = false
  | _ => True

/-- **Slots are clean**: a query is sent on a slot without tokens whose last query is finished, and
a response to a finished query finds its slot not valid. -/
def Upstream.Clean (u : Upstream) : UpstreamEvent → Prop
  | .send .. => u.server.sem u.server.nextId.toNat = 0 ∧
      ∀ q : Pending, u.queries[0xffff]? = some q → q.phase = .done
  | .response age _ _ => ∀ q : Pending, u.queries[age]? = some q → q.phase = .done →
      u.server.valid q.id.toNat = 0
  | _ => True

variable {u u' : Upstream} {e : UpstreamEvent} {es : List UpstreamEvent} {cache : Cache}
  {qs : List Pending} {age : ℕ} {q : Pending}

/-- A query is forwarded by being sent and armed. -/
theorem forward_steps : ∃ q, q.phase = .armed ∧
    Trace Upstream.Step ⟨s, qs⟩ [.send client header question, .arm 0]
      ⟨(handleSendQuery s client header question).1, q :: qs⟩ := by
  have hsend : Upstream.Step ⟨s, qs⟩ _ _ := .send client header question
  have harm := (Trace.single hsend).step (.arm (List.getElem?_cons_zero ..) rfl)
  rw [List.set_cons_zero, wireId_sendQuery] at harm
  exact ⟨_, rfl, harm⟩

/-- A query wakes up by the end of its wait, the clearing of its flag and the cancelling of its
timer. -/
theorem wake_steps (hq : qs[age]? = some q) (hphase : q.phase = .armed)
    (hr : wakeSendQuery s q.id = some s') :
    Trace Upstream.Step ⟨s, qs⟩ [.pass age, .clear age, .cancel age]
      ⟨s', qs.set age { q with phase := .done }⟩ := by
  rw [wakeSendQuery_eq, Option.map_eq_some_iff] at hr
  obtain ⟨s₁, hpass, rfl⟩ := hr
  have hlt := (List.getElem?_eq_some_iff.mp hq).1
  have hstep : Upstream.Step ⟨s, qs⟩ _ _ := .pass hq hphase hpass
  have hclear := (Trace.single hstep).step (.clear (List.getElem?_set_self hlt) rfl)
  have hcancel := hclear.step (.cancel (List.getElem?_set_self (by simpa using hlt)) rfl)
  rwa [List.set_set, List.set_set] at hcancel

/-! ## The slots of the sent queries -/

/-- A query for which neither a response nor a timeout has come. -/
def Pending.Open (q : Pending) : Prop := q.answered = false ∧ q.fired = false

/-- **The slots**: the wire ids count the queries, only the last 65536 are unfinished, a query for
which nothing has come holds its slot, with no token in it, and a valid slot has a query. -/
structure Upstream.Slots (u : Upstream) : Prop where
  counted : Counted u.server.buf1Len (u.queries.map Pending.id)
  young : ∀ {p : ℕ} {q : Pending}, u.queries[p]? = some q → q.phase ≠ .done → p ≤ 0xffff
  held : ∀ {p : ℕ} {q : Pending}, u.queries[p]? = some q → q.Open →
    (q.phase = .sent ∨ q.phase = .armed ∧ u.server.valid q.id.toNat ≠ 0) ∧
      u.server.sem q.id.toNat = 0
  valid : ∀ {i : ℕ}, u.server.valid i ≠ 0 → ∃ (p : ℕ) (q : Pending), u.queries[p]? = some q ∧
    q.id.toNat = i ∧ (q.phase = .armed ∨ q.phase = .passed)

theorem Upstream.Slots.init (cache : Cache) : (Upstream.init cache).Slots where
  counted := .start
  young h := nomatch h
  held h := nomatch h
  valid h := absurd rfl h

/-- **Unfinished queries have different wire ids**. -/
theorem Upstream.Slots.eq_of_id (hS : u.Slots) {p p' : ℕ} {q q' : Pending}
    (hq : u.queries[p]? = some q) (hq' : u.queries[p']? = some q') (hdone : q.phase ≠ .done)
    (hdone' : q'.phase ≠ .done) (hid : q.id = q'.id) : p = p' := by
  have hids : ∀ {p : ℕ} {q : Pending}, u.queries[p]? = some q →
      (u.queries.map Pending.id)[p]? = some q.id := by
    intro p q hq
    rw [List.getElem?_map, hq, Option.map_some]
  refine hS.counted.eq_of_id (hids hq) ?_ (hS.young hq hdone) (hS.young hq' hdone')
  rw [hid]
  exact hids hq'

theorem Upstream.Slots.ne_done (hS : u.Slots) {p : ℕ} (hq : u.queries[p]? = some q)
    (hopen : q.Open) : q.phase ≠ .done := by
  rcases (hS.held hq hopen).1 with h | ⟨h, -⟩ <;> rw [h] <;> decide

/-- The slot of an open query is not that of another unfinished one. -/
theorem Upstream.Slots.ne_id (hS : u.Slots) {p p' : ℕ} {q q' : Pending}
    (hq : u.queries[p]? = some q) (hq' : u.queries[p']? = some q') (hopen : q.Open)
    (hdone : q'.phase ≠ .done) (hne : p' ≠ p) : q.id.toNat ≠ q'.id.toNat := by
  intro hid
  exact hne (hS.eq_of_id hq' hq hdone (hS.ne_done hq hopen) (UInt16.toNat_inj.mp hid.symm))

/-- A query after a change at one place. -/
theorem getElem?_set_cases {α : Type} {l : List α} {p i : ℕ} {a x : α}
    (h : (l.set p a)[i]? = some x) : i = p ∧ x = a ∨ i ≠ p ∧ l[i]? = some x := by
  rw [List.getElem?_set] at h
  split_ifs at h with hp hlt
  · exact .inl ⟨hp.symm, (Option.some.inj h).symm⟩
  · exact .inr ⟨Ne.symm hp, h⟩

/-- **A change of one query** keeps the slots, when it keeps them for the changed query and for the
open queries in other slots. -/
theorem Upstream.Slots.set {server : Server} {q' : Pending} (hS : u.Slots)
    (hq : u.queries[age]? = some q) (hlen : server.buf1Len = u.server.buf1Len)
    (hid : q'.id = q.id) (hdone : q'.phase ≠ .done → q.phase ≠ .done)
    (hheld : q'.Open → (q'.phase = .sent ∨ q'.phase = .armed ∧ server.valid q.id.toNat ≠ 0) ∧
      server.sem q.id.toNat = 0)
    (hother : ∀ {p : ℕ} {x : Pending}, p ≠ age → u.queries[p]? = some x → x.Open →
      server.valid x.id.toNat = u.server.valid x.id.toNat ∧
        server.sem x.id.toNat = u.server.sem x.id.toNat)
    (hvalid : ∀ {i : ℕ}, server.valid i ≠ 0 →
      i = q.id.toNat ∧ (q'.phase = .armed ∨ q'.phase = .passed) ∨ u.server.valid i ≠ 0 ∧
        (i = q.id.toNat → q.phase = .armed ∨ q.phase = .passed →
          q'.phase = .armed ∨ q'.phase = .passed)) :
    Upstream.Slots ⟨server, u.queries.set age q'⟩ := by
  have hlt := (List.getElem?_eq_some_iff.mp hq).1
  -- the query of the given age is the changed one, and the others are as before
  refine ⟨?_, fun {p x} hx hx' => ?_, fun {p x} hx hopen => ?_, fun {i} hi => ?_⟩
  · rw [hlen, map_set_of_eq hq hid]
    exact hS.counted
  · rcases getElem?_set_cases hx with ⟨rfl, rfl⟩ | ⟨-, hx⟩
    · exact hS.young hq (hdone hx')
    · exact hS.young hx hx'
  · rcases getElem?_set_cases hx with ⟨rfl, rfl⟩ | ⟨hp, hx⟩
    · rw [hid]
      exact hheld hopen
    · obtain ⟨hv, hs⟩ := hother hp hx hopen
      dsimp only
      rw [hv, hs]
      exact hS.held hx hopen
  · rcases hvalid hi with ⟨rfl, hphase⟩ | ⟨hi, hphase⟩
    · exact ⟨age, q', List.getElem?_set_self hlt, by rw [hid], hphase⟩
    · obtain ⟨p, x, hx, rfl, hx'⟩ := hS.valid hi
      by_cases hp : age = p
      · subst hp
        cases hq.symm.trans hx
        exact ⟨age, q', List.getElem?_set_self hlt, by rw [hid], hphase rfl hx'⟩
      · exact ⟨p, x, (List.getElem?_set_ne hp).trans hx, rfl, hx'⟩

theorem Upstream.Slots.send (hS : u.Slots) (hs : u.Step (.send client header question) u')
    (hclean : u.Clean (.send client header question)) : u'.Slots := by
  cases hs with
  | @send s qs =>
    refine ⟨?_, fun {p q} hq hdone => ?_, fun {p q} hq hopen => ?_, fun {i} hi => ?_⟩
    · rw [List.map_cons, wireId_sendQuery]
      exact hS.counted.cons
    · cases p with
      | zero => exact Nat.zero_le _
      | succ p =>
        -- the oldest of them is finished
        have hne : p ≠ 0xffff := fun he => hdone (hclean.2 q (he ▸ hq))
        have hle := hS.young hq hdone
        omega
    · dsimp only
      rw [sendQuery_valid, sendQuery_sem]
      cases p with
      | zero =>
        cases hq
        rw [wireId_sendQuery]
        exact ⟨.inl rfl, hclean.1⟩
      | succ p => exact hS.held hq hopen
    · dsimp only at hi
      rw [sendQuery_valid] at hi
      obtain ⟨p, q, hq, hid⟩ := hS.valid hi
      exact ⟨p + 1, q, hq, hid⟩

/-- What happens to the slot of an unfinished query leaves the slots of the other open ones. -/
theorem Upstream.Slots.other (hS : u.Slots) (hq : u.queries[age]? = some q)
    (hdone : q.phase ≠ .done) {server : Server} (hframe : ∀ i, i ≠ q.id.toNat →
      server.valid i = u.server.valid i ∧ server.sem i = u.server.sem i)
    {p : ℕ} {x : Pending} (hp : p ≠ age) (hx : u.queries[p]? = some x) (hopen : x.Open) :
    server.valid x.id.toNat = u.server.valid x.id.toNat ∧
      server.sem x.id.toNat = u.server.sem x.id.toNat := by
  apply hframe
  exact hS.ne_id hx hq hopen hdone hp.symm

theorem Upstream.Slots.arm (hS : u.Slots) (hq : u.queries[age]? = some q)
    (hphase : q.phase = .sent) :
    Upstream.Slots ⟨armQuery u.server q.id, u.queries.set age { q with phase := .armed }⟩ := by
  have hdone : q.phase ≠ .done := by
    rw [hphase]
    decide
  refine hS.set hq rfl rfl (fun _ => hdone) ?_ ?_ ?_
  · intro hopen
    rw [armQuery_valid, armQuery_sem, Function.update_self]
    exact ⟨.inr ⟨rfl, by decide⟩, (hS.held hq hopen).2⟩
  · intro p x hp hx hopen
    refine hS.other hq hdone (fun i hi => ?_) hp hx hopen
    rw [armQuery_valid, armQuery_sem, Function.update_of_ne hi]
    exact ⟨rfl, rfl⟩
  · intro i hi
    by_cases hid : i = q.id.toNat
    · exact .inl ⟨hid, .inl rfl⟩
    · rw [armQuery_valid, Function.update_of_ne hid] at hi
      exact .inr ⟨hi, fun he => absurd he hid⟩

theorem Upstream.Slots.timer (hS : u.Slots) (hq : u.queries[age]? = some q)
    (hdone : q.phase ≠ .done) :
    Upstream.Slots ⟨timerHandler u.server q.id, u.queries.set age { q with fired := true }⟩ := by
  -- the query is not open any more
  refine hS.set hq rfl rfl id (fun hopen => nomatch hopen.2) ?_ ?_
  · intro p x hp hx hopen
    refine hS.other hq hdone (fun i hi => ?_) hp hx hopen
    rw [timerHandler_valid, timerHandler_sem, Function.update_of_ne hi]
    exact ⟨rfl, rfl⟩
  · intro i hi
    rw [timerHandler_valid] at hi
    exact .inr ⟨hi, fun _ h => h⟩

theorem Upstream.Slots.pass (hS : u.Slots) (hq : u.queries[age]? = some q)
    (hphase : q.phase = .armed) (hr : passQuery u.server q.id = some s') :
    Upstream.Slots ⟨s', u.queries.set age { q with phase := .passed }⟩ := by
  obtain ⟨hne, hsem, hvalid, hlen⟩ := passQuery_eq_some hr
  have hdone : q.phase ≠ .done := by
    rw [hphase]
    decide
  refine hS.set hq hlen rfl (fun _ => hdone) ?_ ?_ ?_
  · -- an open query has no token to pass with
    intro hopen
    exact absurd (hS.held hq hopen).2 hne
  · intro p x hp hx hopen
    refine hS.other hq hdone (fun i hi => ?_) hp hx hopen
    rw [hvalid, hsem, Function.update_of_ne hi]
    exact ⟨rfl, rfl⟩
  · intro i hi
    rw [hvalid] at hi
    exact .inr ⟨hi, fun _ _ => .inr rfl⟩

theorem Upstream.Slots.clear (hS : u.Slots) (hq : u.queries[age]? = some q)
    (hphase : q.phase = .passed) :
    Upstream.Slots ⟨clearQuery u.server q.id, u.queries.set age { q with phase := .cleared }⟩ := by
  have hdone : q.phase ≠ .done := by
    rw [hphase]
    decide
  refine hS.set hq rfl rfl (fun _ => hdone) ?_ ?_ ?_
  · intro hopen
    rcases (hS.held hq hopen).1 with h | ⟨h, -⟩ <;> cases hphase.symm.trans h
  · intro p x hp hx hopen
    refine hS.other hq hdone (fun i hi => ?_) hp hx hopen
    rw [clearQuery_valid, clearQuery_sem, Function.update_of_ne hi]
    exact ⟨rfl, rfl⟩
  · intro i hi
    have hid : i ≠ q.id.toNat := by
      rintro rfl
      rw [clearQuery_valid, Function.update_self] at hi
      exact hi rfl
    rw [clearQuery_valid, Function.update_of_ne hid] at hi
    exact .inr ⟨hi, fun he => absurd he hid⟩

theorem Upstream.Slots.cancel (hS : u.Slots) (hq : u.queries[age]? = some q)
    (hphase : q.phase = .cleared) :
    Upstream.Slots ⟨u.server, u.queries.set age { q with phase := .done }⟩ := by
  refine hS.set hq rfl rfl (fun h => absurd rfl h) ?_ ?_ ?_
  · intro hopen
    rcases (hS.held hq hopen).1 with h | ⟨h, -⟩ <;> cases hphase.symm.trans h
  · exact fun _ _ _ => ⟨rfl, rfl⟩
  · intro i hi
    refine .inr ⟨hi, fun _ h => ?_⟩
    rcases h with h | h <;> cases hphase.symm.trans h

theorem Upstream.Slots.response {now : ℤ} {resp : Response} {sent : List Sent}
    {nodes : SectionNodes} (hS : u.Slots) (hq : u.queries[age]? = some q)
    (hid : resp.header.id = q.id) (hclean : u.Clean (.response age now resp))
    (hr : relayResponse u.server now resp = .ok (s', sent, nodes)) :
    Upstream.Slots ⟨s', u.queries.set age { q with answered := true }⟩ := by
  -- the query is not open any more
  refine hS.set hq (relayResponse_slots hr).1 rfl id (fun hopen => nomatch hopen.1) ?_ ?_
  · intro p x hp hx hopen
    rcases relayResponse_cases hr with ⟨-, -, htable⟩ | ⟨hne, -, hsem, hvalid⟩
    · rw [Server.valid, Server.sem, htable]
      exact ⟨rfl, rfl⟩
    · -- a response that passes the check is that of an unfinished query
      have hdone : q.phase ≠ .done := fun h => hne (hid ▸ hclean q hq h)
      refine hS.other hq hdone (fun i hi => ?_) hp hx hopen
      rw [hvalid, hsem, hid, Function.update_of_ne hi]
      exact ⟨rfl, rfl⟩
  · intro i hi
    rw [relayResponse_valid hr] at hi
    exact .inr ⟨hi, fun _ h => h⟩

/-- **A step keeps the slots**, when they are clean and no query is answered twice. -/
theorem Upstream.Slots.step (hS : u.Slots) (hs : u.Step e u') (hclean : u.Clean e) : u'.Slots := by
  cases hs with
  | send client header question => exact hS.send (.send client header question) hclean
  | arm hq hphase => exact hS.arm hq hphase
  | timer hq hphase => exact hS.timer hq hphase.2
  | pass hq hphase hr => exact hS.pass hq hphase hr
  | clear hq hphase => exact hS.clear hq hphase
  | cancel hq hphase => exact hS.cancel hq hphase
  | response hq hid hr => exact hS.response hq hid hclean hr
  | cache => exact ⟨hS.counted, hS.young, hS.held, hS.valid⟩

/-- **A timely response is relayed exactly when its slot was made valid before**: in every run with
clean slots, a response to a query that has not been answered and whose timer has not fired passes
the check, and is relayed, unless the query has only been sent. -/
theorem timely_relayed_iff
    (h : Trace (Restrict Upstream.Step Upstream.Clean) (.init cache) es u)
    (hq : u.queries[age]? = some q) {now : ℤ} {resp : Response} (hresp : resp.header.id = q.id)
    (honce : u.AnswersOnce (.response age now resp)) (hfired : q.fired = false)
    {sent : List Sent} {nodes : SectionNodes}
    (hr : relayResponse u.server now resp = .ok (s', sent, nodes)) :
    sent = [handleSendResponse u.server resp.header.id resp] ↔ q.phase ≠ .sent := by
  have hS : u.Slots := h.invariant (.init cache) fun hS hs => hS.step hs.1 hs.2
  have hopen : q.Open := ⟨honce q hq, hfired⟩
  rcases relayResponse_cases hr with ⟨hzero, rfl, -⟩ | ⟨hne, rfl, -⟩
  · rw [hresp] at hzero
    apply iff_of_false (List.cons_ne_nil _ _).symm
    intro hphase
    rcases (hS.held hq hopen).1 with h | ⟨-, h⟩
    · exact hphase h
    · exact h hzero
  · apply iff_of_true rfl
    intro hphase
    -- a valid slot belongs to a waiting query, which would be this one
    obtain ⟨p, q', hq', hid, hwait⟩ := hS.valid hne
    rw [hresp] at hid
    have hdone : q'.phase ≠ .done := by
      rcases hwait with h | h <;> rw [h] <;> decide
    obtain rfl : p = age :=
      hS.eq_of_id hq' hq hdone (hS.ne_done hq hopen) (UInt16.toNat_inj.mp hid)
    cases hq.symm.trans hq'
    rcases hwait with h | h <;> cases hphase.symm.trans h

/-- After the first sent query. -/
def Upstream.first : Upstream :=
  ⟨(sendQuery (.init .init) localClient getDefaultHeader localQuestion).1,
    [⟨1, .sent, false, false⟩]⟩

theorem Upstream.first_step : Upstream.Step (.init .init)
    (.send localClient getDefaultHeader localQuestion) .first :=
  .send localClient getDefaultHeader localQuestion

theorem timely_relayed_armed : ∃ es u q s' sent nodes,
    Trace (Restrict Upstream.Step Upstream.Clean) (.init Cache.init) es u ∧
      u.queries[0]? = some q ∧ q.phase ≠ .sent ∧
        relayResponse u.server 0 (emptyResponse 1) = .ok (s', sent, nodes) ∧
          (sent = [handleSendResponse u.server 1 (emptyResponse 1)] ↔ q.phase ≠ .sent) := by
  have hsend : Trace (Restrict Upstream.Step Upstream.Clean) (.init Cache.init) _ _ :=
    .single ⟨Upstream.first_step, by decide, fun _ h => nomatch h⟩
  have hfirst : Upstream.first.queries[0]? = some ⟨1, .sent, false, false⟩ := rfl
  have harm := hsend.step ⟨.arm hfirst rfl, trivial⟩
  have harmed : (Upstream.first.queries.set 0 ⟨1, .armed, false, false⟩)[0]? =
    some ⟨1, .armed, false, false⟩ := rfl
  have hresp : (emptyResponse 1).header.id = 1 := rfl
  obtain ⟨s', sent, nodes, hr⟩ :=
    relayResponse_emptyResponse (armQuery Upstream.first.server 1) 0 1
  exact ⟨_, _, _, s', sent, nodes, harm, rfl, by decide, hr,
    timely_relayed_iff harm harmed hresp (fun q hq => by cases hq; rfl) rfl hr⟩

theorem not_timely_relayed_sent : ¬ ∀ cache es u age q now resp s' sent nodes,
    Trace (Restrict Upstream.Step Upstream.AnswersOnce) (.init cache) es u →
      u.queries[age]? = some q → resp.header.id = q.id →
        u.AnswersOnce (.response age now resp) → q.fired = false →
          relayResponse u.server now resp = .ok (s', sent, nodes) →
            sent = [handleSendResponse u.server resp.header.id resp] := by
  intro hall
  -- the response comes between the sending and the assignment
  have hsend : Trace (Restrict Upstream.Step Upstream.AnswersOnce) (.init Cache.init) _ _ :=
    .single ⟨Upstream.first_step, trivial⟩
  obtain ⟨s', sent, nodes, hr⟩ := relayResponse_emptyResponse Upstream.first.server 0 1
  have hsent := hall _ _ _ 0 _ _ _ _ _ _ hsend rfl rfl (fun q hq => by cases hq; rfl) rfl hr
  rcases relayResponse_cases hr with ⟨-, hnil, -⟩ | ⟨hne, -⟩
  · rw [hnil] at hsent
    cases hsent
  · exact hne (by decide)

end Adrift
