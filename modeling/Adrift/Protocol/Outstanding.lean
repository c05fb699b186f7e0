import Adrift.Protocol.Relay

/-!
# Outstanding queries

Wire ids are handed out in a cycle of 65536, whether or not the query that had an id before still
waits. Two waiting queries have different ids as long as no query waits while 65536 others are
forwarded.

## Main definitions

* `Relay.DistinctIds r`: the waiting queries have different wire ids
* `Relay.IdFree r e`: a forwarding step finds that the query with its wire id no longer waits

## Main results

* `Relay.Step.other`: the other steps keep the queries and the slots
* `Counted.eq_of_id`: among the last 65536 wire ids none occurs twice
* `Relay.Counted.step`: the wire ids count the queries
* `outstanding_iff`: forwarding keeps the wire ids apart, and the slots of waiting queries as they
  are, exactly when the id is free
-/

namespace Adrift

open Transition

/-- **The waiting queries have different wire ids**. -/
def Relay.DistinctIds (r : Relay) : Prop :=
  ∀ (p p' : ℕ) (q q' : Query), r.queries[p]? = some q → r.queries[p']? = some q' →
    q.waiting → q'.waiting → q.id = q'.id → p = p'

/-- **The id of a forwarding step is free**: the query that was forwarded 65536 queries before does
not wait any more. -/
def Relay.IdFree (r : Relay) : RelayEvent → Prop
  | .forward .. => ∀ q : Query, r.queries[0xffff]? = some q → ¬ q.waiting
  | _ => True

/-- The queries are the same, and stop waiting at most. -/
structure SameQueries (qs qs' : List Query) : Prop where
  ids : qs'.map Query.id = qs.map Query.id
  waiting : ∀ {p : ℕ} {q' : Query}, qs'[p]? = some q' →
    ∃ q, qs[p]? = some q ∧ (q'.waiting → q.waiting)

theorem SameQueries.refl (qs : List Query) : SameQueries qs qs :=
  ⟨rfl, fun h => ⟨_, h, id⟩⟩

/-- **What happens to a query** on behalf of a wire id: nothing, or the change, when it has the
wire id. -/
theorem onHolder_getElem? {id : UInt16} {f : Query → Query} {qs : List Query} {p : ℕ} {q' : Query}
    (h : (onHolder id f qs)[p]? = some q') :
    ∃ q, qs[p]? = some q ∧ (q' = q ∨ q.id = id ∧ q' = f q) := by
  induction qs generalizing p with
  | nil => cases h
  | cons q qs ih =>
    rw [onHolder] at h
    split_ifs at h with hid
    · cases p with
      | zero =>
        cases h
        exact ⟨q, rfl, .inr ⟨hid, rfl⟩⟩
      | succ p => exact ⟨q', h, .inl rfl⟩
    · cases p with
      | zero =>
        cases h
        exact ⟨_, rfl, .inl rfl⟩
      | succ p => exact ih h

/-- A change at one place leaves what it does not concern. -/
theorem map_set_of_eq {α β : Type} {f : α → β} {l : List α} {p : ℕ} {a a' : α}
    (h : l[p]? = some a) (hf : f a' = f a) : (l.set p a').map f = l.map f := by
  obtain ⟨hp, rfl⟩ := List.getElem?_eq_some_iff.mp h
  rw [List.map_set, hf, ← List.getElem_map f (h := by rwa [List.length_map]),
    List.set_getElem_self]

theorem onHolder_ids {id : UInt16} {f : Query → Query} (hf : ∀ q, (f q).id = q.id)
    (qs : List Query) : (onHolder id f qs).map Query.id = qs.map Query.id := by
  induction qs with
  | nil => rfl
  | cons q qs ih =>
    rw [onHolder]
    split_ifs
    · rw [List.map_cons, List.map_cons, hf]
    · rw [List.map_cons, List.map_cons, ih]

variable {s : Server} {r r' : Relay} {e : RelayEvent} {es : List RelayEvent} {cache : Cache}

/-- **The steps that forward nothing** keep the slots, the counter and the queries. -/
theorem Relay.Step.other (h : r.Step e r') :
    (∃ client header question, e = .forward client header question) ∨
      SameSlots r.server r'.server ∧ SameQueries r.queries r'.queries := by
  cases h with
  | forward client header question => exact .inl ⟨client, header, question, rfl⟩
  | response hr =>
    refine .inr ⟨relayResponse_slots hr, onHolder_ids (f := (·.answer _)) (fun _ => rfl) _,
      fun {p q'} h => ?_⟩
    obtain ⟨q, hq, rfl | ⟨-, rfl⟩⟩ := onHolder_getElem? h
    · exact ⟨_, hq, id⟩
    · exact ⟨q, hq, id⟩
  | timer => exact .inr ⟨timerHandler_slots _ _, .refl _⟩
  | @wake s s' qs age q hq hw hr =>
    refine .inr ⟨wakeSendQuery_slots hr, map_set_of_eq hq rfl, fun {p q'} h => ?_⟩
    rw [List.getElem?_set] at h
    split_ifs at h with hp hlt
    · cases h
      exact ⟨q, hp ▸ hq, fun hw => nomatch hw⟩
    · exact ⟨q', h, id⟩
  | cache => exact .inr ⟨⟨rfl, rfl⟩, .refl _⟩

/-! ## Wire ids -/

/-- **The wire ids count the queries**, modulo `2 ^ 16`, and so does the counter: the ids that were
handed out, the last one first, with the counter that hands out the next one. -/
structure Counted (buf1Len : ℕ) (ids : List UInt16) : Prop where
  pos : 1 ≤ buf1Len
  le : buf1Len ≤ mapLen
  next : buf1Len % 0x10000 = (ids.length + 1) % 0x10000
  ids : ∀ {p : ℕ} {id : UInt16}, ids[p]? = some id → id.toNat = (ids.length - p) % 0x10000

section Counted

variable {n p p' : ℕ} {ids : List UInt16} {id : UInt16}

theorem Counted.start : Counted 1 [] :=
  ⟨le_rfl, show 1 ≤ mapLen by decide, rfl, fun h => nomatch h⟩

theorem Counted.nextId (hC : Counted s.buf1Len ids) :
    s.nextId.toNat = (ids.length + 1) % 0x10000 := by
  have hle := hC.le
  rw [← hC.next, Server.nextId, UInt16.toNat_ofNat']
  rw [mapLen] at hle ⊢
  split_ifs <;> omega

/-- **The next id** continues the count. -/
theorem Counted.cons (hC : Counted s.buf1Len ids) :
    Counted ((if mapLen ≤ s.buf1Len then 1 else s.buf1Len) + 1) (s.nextId :: ids) := by
  have hid := hC.nextId
  have hpos := hC.pos
  have hle := hC.le
  have hnext := hC.next
  refine ⟨Nat.le_add_left .., ?_, ?_, fun {p id} h => ?_⟩
  · rw [mapLen] at hle ⊢
    split_ifs <;> omega
  · rw [mapLen] at hle ⊢
    rw [List.length_cons]
    split_ifs <;> omega
  · cases p with
    | zero =>
      cases h
      rw [hid, List.length_cons, Nat.sub_zero]
    | succ p =>
      rw [hC.ids h, List.length_cons, Nat.add_sub_add_right]

/-- Among the last 65536 ids, none occurs twice. -/
theorem Counted.eq_of_id (hC : Counted n ids) (h : ids[p]? = some id) (h' : ids[p']? = some id)
    (hp : p ≤ 0xffff) (hp' : p' ≤ 0xffff) : p = p' := by
  have hid := hC.ids h
  have hid' := hC.ids h'
  have hlt := (List.getElem?_eq_some_iff.mp h).1
  have hlt' := (List.getElem?_eq_some_iff.mp h').1
  omega

end Counted

/-- The wire ids of the relay count its queries. -/
def Relay.Counted (r : Relay) : Prop :=
  Adrift.Counted r.server.buf1Len (r.queries.map Query.id)

theorem Relay.Counted.init (cache : Cache) : (Relay.init cache).Counted := .start

/-- **A step keeps the count**. -/
theorem Relay.Counted.step (hC : r.Counted) (h : r.Step e r') : r'.Counted := by
  rcases h.other with ⟨client, header, question, rfl⟩ | ⟨⟨hlen, -⟩, hqs⟩
  · cases h with
    | forward =>
      rw [Relay.Counted, handleSendQuery_buf1Len, List.map_cons, Query.forwarded,
        wireId_handleSendQuery]
      exact hC.cons
  · rw [Relay.Counted, hlen, hqs.ids]
    exact hC

/-- Only the last 65536 queries wait. -/
def Relay.Young (r : Relay) : Prop :=
  ∀ (p : ℕ) (q : Query), r.queries[p]? = some q → q.waiting → p ≤ 0xffff

theorem Relay.Young.step (hY : r.Young) (h : r.Step e r') (hfree : r.IdFree e) : r'.Young := by
  intro p q' hq' hw
  rcases h.other with ⟨client, header, question, rfl⟩ | ⟨-, hqs⟩
  · cases h with
    | forward =>
      cases p with
      | zero => exact Nat.zero_le _
      | succ p =>
        -- the oldest of them no longer waits
        have hne : p ≠ 0xffff := fun he => hfree q' (he ▸ hq') hw
        have hle := hY p q' hq' hw
        omega
  · obtain ⟨q, hq, hw'⟩ := hqs.waiting hq'
    exact hY p q hq (hw' hw)

theorem Relay.getElem?_ids {p : ℕ} {q : Query} (hq : r.queries[p]? = some q) :
    (r.queries.map Query.id)[p]? = some q.id := by
  rw [List.getElem?_map, hq, Option.map_some]

/-- Among the last 65536 queries, the wire ids differ. -/
theorem Relay.Counted.distinctIds (hC : r.Counted) (hY : r.Young) : r.DistinctIds := by
  intro p p' q q' hq hq' hw hw' hid
  refine hC.eq_of_id (Relay.getElem?_ids hq) ?_ (hY p q hq hw) (hY p' q' hq' hw')
  rw [hid]
  exact Relay.getElem?_ids hq'

/-- **Outstanding queries are kept apart**: in every run whose forwarding steps find their id free,
the waiting queries have different wire ids, and the next forwarding step keeps that, and writes no
slot of a waiting query, exactly when its id is free. -/
theorem outstanding_iff
    (h : Trace (Restrict Relay.Step Relay.IdFree) (.init cache) es r) (client : SockAddr)
    (header : DnsHeader) (question : DnsQuestion) : r.DistinctIds ∧
      ∀ r', r.Step (.forward client header question) r' →
        ((r'.DistinctIds ∧ ∀ q ∈ r.queries, q.waiting →
          (forward r.server client header question).slot ≠ q.id.toNat) ↔
            r.IdFree (.forward client header question)) := by
  obtain ⟨hC, hY⟩ : r.Counted ∧ r.Young := by
    refine h.invariant (P := fun r => r.Counted ∧ r.Young) ⟨.init cache, fun p q hq => ?_⟩ ?_
    · cases hq
    · exact fun ⟨hC, hY⟩ ⟨hs, hfree⟩ => ⟨hC.step hs, hY.step hs hfree⟩
  refine ⟨hC.distinctIds hY, fun r' hs => ⟨fun hkept q hq hw => ?_, fun hfree => ?_⟩⟩
  · -- the old query and the new one have the same id
    have hold := hC.ids (Relay.getElem?_ids hq)
    have hlt := (List.getElem?_eq_some_iff.mp hq).1
    have hid := hC.nextId
    rw [List.length_map] at hold hid
    cases hs with
    | @forward s qs =>
      have heq := hkept.1 0 0x10000 _ q rfl hq rfl hw (UInt16.toNat_inj.mp (by
        rw [Query.forwarded, wireId_handleSendQuery, hold, hid]
        dsimp only at hlt ⊢
        omega))
      cases heq
  · -- the slot that is written has the index of the counter, which a younger query does not hold
    refine ⟨(hC.step hs).distinctIds (hY.step hs hfree), fun q hq hw heq => ?_⟩
    obtain ⟨p, hp⟩ := List.mem_iff_getElem?.mp hq
    have hne : p ≠ 0xffff := fun he => hfree q (he ▸ hp) hw
    have hle := hY p q hp hw
    have hid := hC.ids (Relay.getElem?_ids hp)
    have hlt := (List.getElem?_eq_some_iff.mp hp).1
    have hnext := hC.next
    rw [List.length_map] at hid hnext
    rw [show r.server.buf1Len = q.id.toNat from heq] at hnext
    have := q.id.toNat_lt
    omega

theorem outstanding_second : ∃ es r,
    Trace (Restrict Relay.Step Relay.IdFree) (.init Cache.init) es r ∧ r.DistinctIds ∧
      ∀ r', r.Step (.forward localClient getDefaultHeader localQuestion) r' →
        ((r'.DistinctIds ∧ ∀ q ∈ r.queries, q.waiting →
          (forward r.server localClient getDefaultHeader localQuestion).slot ≠
            q.id.toNat) ↔
          r.IdFree (.forward localClient getDefaultHeader localQuestion)) := by
  have htrace : Trace (Restrict Relay.Step Relay.IdFree) (.init Cache.init) _ _ :=
    .single ⟨Relay.first_step, fun _ h => nomatch h⟩
  exact ⟨_, _, htrace, outstanding_iff htrace localClient getDefaultHeader localQuestion⟩

/-- Any number of queries can be forwarded in a row, and wait. -/
theorem Relay.exists_forwarded (cache : Cache) (client : SockAddr) (header : DnsHeader)
    (question : DnsQuestion) (n : ℕ) : ∃ es r, Trace Relay.Step (.init cache) es r ∧
      r.queries.length = n ∧ ∀ q ∈ r.queries, q.waiting := by
  induction n with
  | zero => exact ⟨_, _, .start, rfl, fun q hq => nomatch hq⟩
  | succ n ih =>
    obtain ⟨es, r, htrace, hlen, hwait⟩ := ih
    refine ⟨_, _, htrace.step (.forward client header question), ?_, fun q hq => ?_⟩
    · rw [List.length_cons, hlen]
    · rcases List.mem_cons.mp hq with rfl | hq
      · rfl
      · exact hwait q hq

theorem not_outstanding_wrap : ¬ ∀ cache es r, Trace Relay.Step (.init cache) es r →
    r.DistinctIds ∧ ∀ (client : SockAddr) (header : DnsHeader) (question : DnsQuestion),
      ∀ q ∈ r.queries, q.waiting →
        (forward r.server client header question).slot ≠ q.id.toNat := by
  intro hall
  obtain ⟨es, r, htrace, hlen, hwait⟩ := Relay.exists_forwarded Cache.init localClient
    getDefaultHeader localQuestion 0x10001
  have hC : r.Counted := htrace.invariant (.init _) fun hC hs => hC.step hs
  -- the first query and the last one
  have hfirst := List.getElem?_eq_getElem (l := r.queries) (i := 0x10000) (by omega)
  have hlast := List.getElem?_eq_getElem (l := r.queries) (i := 0) (by omega)
  have hid := hC.ids (Relay.getElem?_ids hfirst)
  have hid' := hC.ids (Relay.getElem?_ids hlast)
  rw [List.length_map] at hid hid'
  have heq := (hall _ _ _ htrace).1 _ _ _ _ hfirst hlast (hwait _ (List.getElem_mem _))
    (hwait _ (List.getElem_mem _)) (UInt16.toNat_inj.mp (by omega))
  cases heq

end Adrift
