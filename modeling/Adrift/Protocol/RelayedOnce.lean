import Adrift.Protocol.Outstanding
import Mathlib.Algebra.GroupWithZero.Nat

/-!
# One reply per query

From the forwarding of a query on, its wire id is open for responses, until a query with this id
wakes up and clears the valid flag. A second response that comes in between is relayed as well.

## Main definitions

* `Relay.Once r`: no query was answered twice
* `WireEvent`, `wireEvents es`: what happens to the wire ids, in the order of the events
* `AnsweredTwice ws`: two responses come to a wire id between its forwarding and a wake-up

## Main results

* `holder_answer`, `mem_onHolder`, `find?_set_of_ne`: the holders of the wire ids after a step
* `Relay.Follows.step`: the valid flags and the replies follow the order of the events
* `relayed_once_iff`: a query is answered twice exactly when its wire id is
-/

namespace Adrift

open Transition

/-- **No query was answered twice**: `handle_send_response` was executed at most once on its
behalf. -/
def Relay.Once (r : Relay) : Prop := ∀ q ∈ r.queries, q.relays ≤ 1

/-- The holder of a wire id: the query that was forwarded last under it. -/
def Relay.holder (r : Relay) (id : UInt16) : Option Query := r.queries.find? (·.id = id)

/-! ## The order of the events -/

/-- **What happens to a wire id**: a query is forwarded under it, a response comes with it, or a
query that has it wakes up. -/
inductive WireEvent
  | asked (id : UInt16)
  | answered (id : UInt16)
  | woken (id : UInt16)

/-- How many queries an event forwards. -/
def RelayEvent.forwards : RelayEvent → ℕ
  | .forward .. => 1
  | _ => 0

/-- What an event does to the wire ids after `n` queries were forwarded. The ids count the
queries. -/
def RelayEvent.wire (n : ℕ) : RelayEvent → List WireEvent
  | .forward .. => [.asked (.ofNat (n + 1))]
  | .response _ r => [.answered r.header.id]
  | .wake age => [.woken (.ofNat (n - age))]
  | .timer _ | .cache _ => []

/-- **The events of the wire ids**, after `n` queries were forwarded. -/
def wireEvents : ℕ → List RelayEvent → List WireEvent
  | _, [] => []
  | n, e :: es => e.wire n ++ wireEvents (n + e.forwards) es

/-- The event neither forwards a query under the id, nor does one wake up that has it. -/
def WireEvent.Keeps (id : UInt16) (w : WireEvent) : Prop := w ≠ .asked id ∧ w ≠ .woken id

/-- A query was forwarded under the id, and none with it has woken up since. -/
def IdAsked (id : UInt16) : List WireEvent → Prop :=
  Since (fun _ w => w = .asked id) (WireEvent.Keeps id)

/-- A response has come since. -/
def IdAnswered (id : UInt16) : List WireEvent → Prop :=
  Since (fun ws w => w = .answered id ∧ IdAsked id ws) (WireEvent.Keeps id)

/-- **A wire id is answered twice**: a second response comes with it, and since its forwarding no
query with it has woken up. -/
def AnsweredTwice : List WireEvent → Prop :=
  Since (fun ws w => ∃ id, w = .answered id ∧ IdAnswered id ws) fun _ => True

section Order

variable {ws : List WireEvent} {w : WireEvent} {id : UInt16}

theorem asked_concat : IdAsked id (ws ++ [w]) ↔ w = .asked id ∨ w.Keeps id ∧ IdAsked id ws :=
  since_concat

theorem answered_concat : IdAnswered id (ws ++ [w]) ↔
    (w = .answered id ∧ IdAsked id ws) ∨ w.Keeps id ∧ IdAnswered id ws :=
  since_concat

theorem answeredTwice_concat : AnsweredTwice (ws ++ [w]) ↔
    (∃ id, w = .answered id ∧ IdAnswered id ws) ∨ AnsweredTwice ws :=
  since_concat.trans (or_congr_right (iff_of_eq (true_and _)))

/-- A wire id is answered after it was asked. -/
theorem IdAnswered.asked (h : IdAnswered id ws) : IdAsked id ws := by
  obtain ⟨as, a, bs, rfl, ⟨rfl, cs, c, ds, rfl, hc, hds⟩, hbs⟩ := h
  refine ⟨cs, c, ds ++ .answered id :: bs, by simp, hc, fun b hb => ?_⟩
  rcases List.mem_append.mp hb with hb | hb
  · exact hds b hb
  · rcases List.mem_cons.mp hb with rfl | hb
    · exact ⟨by rintro ⟨⟩, by rintro ⟨⟩⟩
    · exact hbs b hb

theorem WireEvent.keeps_answered (id id' : UInt16) : (WireEvent.answered id').Keeps id :=
  ⟨by rintro ⟨⟩, by rintro ⟨⟩⟩

theorem WireEvent.keeps_asked {id id' : UInt16} : (WireEvent.asked id').Keeps id ↔ id ≠ id' := by
  refine ⟨fun h he => h.1 (he ▸ rfl), fun h => ⟨?_, by rintro ⟨⟩⟩⟩
  rintro ⟨⟩
  exact h rfl

theorem WireEvent.keeps_woken {id id' : UInt16} : (WireEvent.woken id').Keeps id ↔ id ≠ id' := by
  refine ⟨fun h he => h.2 (he ▸ rfl), fun h => ⟨by rintro ⟨⟩, ?_⟩⟩
  rintro ⟨⟩
  exact h rfl

/-- What the last event does to the wire ids, after the queries that the others have forwarded. -/
theorem wireEvents_concat (n : ℕ) (es : List RelayEvent) (e : RelayEvent) :
    wireEvents n (es ++ [e]) =
      wireEvents n es ++ e.wire (n + (es.map RelayEvent.forwards).sum) := by
  induction es generalizing n with
  | nil => exact List.append_nil _
  | cons f es ih =>
    rw [List.cons_append, wireEvents, wireEvents, ih, List.map_cons, List.sum_cons,
      List.append_assoc, Nat.add_assoc]

end Order

variable {r r' : Relay} {e : RelayEvent} {es : List RelayEvent} {cache : Cache} {id : UInt16}

/-! ## Holders -/

/-- A change on behalf of a wire id changes its holder only. -/
theorem find?_onHolder {f : Query → Query} (hf : ∀ q, (f q).id = q.id) (id id' : UInt16)
    (qs : List Query) : (onHolder id f qs).find? (·.id = id') =
      if id' = id then (qs.find? (·.id = id)).map f else qs.find? (·.id = id') := by
  induction qs with
  | nil => split_ifs <;> rfl
  | cons q qs ih =>
    rw [onHolder]
    by_cases hid : q.id = id
    · rw [if_pos hid]
      by_cases hid' : id' = id
      · subst hid'
        simp [hf, hid]
      · have hne : ¬ id = id' := Ne.symm hid'
        simp [hf, hid, hid', hne]
    · rw [if_neg hid]
      by_cases hid' : id' = id
      · subst hid'
        rw [if_pos rfl] at ih ⊢
        simp [hid, ih]
      · rw [if_neg hid'] at ih ⊢
        simp [List.find?_cons, ih]

/-- The holders after a response. -/
theorem holder_answer (s s' : Server) (qs : List Query) (id id' : UInt16) (n : ℕ) :
    (Relay.mk s' (onHolder id (·.answer n) qs)).holder id' =
      if id' = id then ((Relay.mk s qs).holder id).map (·.answer n)
      else (Relay.mk s qs).holder id' :=
  find?_onHolder (f := (·.answer n)) (fun _ => rfl) id id' qs

/-- A change on behalf of a wire id leaves the queries, its holder apart. -/
theorem mem_onHolder {f : Query → Query} {id : UInt16} {qs : List Query} {q' : Query}
    (h : q' ∈ onHolder id f qs) :
    q' ∈ qs ∨ ∃ q, qs.find? (·.id = id) = some q ∧ q' = f q := by
  induction qs with
  | nil => cases h
  | cons q qs ih =>
    rw [onHolder] at h
    by_cases hid : q.id = id
    · rw [if_pos hid] at h
      rcases List.mem_cons.mp h with rfl | h
      · exact .inr ⟨q, by simp [hid], rfl⟩
      · exact .inl (List.mem_cons_of_mem q h)
    · rw [if_neg hid] at h
      rcases List.mem_cons.mp h with rfl | h
      · exact .inl List.mem_cons_self
      · rcases ih h with h | ⟨x, hx, rfl⟩
        · exact .inl (List.mem_cons_of_mem q h)
        · exact .inr ⟨x, by simpa [List.find?_cons, hid] using hx, rfl⟩

/-- The queries but the holder are the ones after a change on behalf of the wire id. -/
theorem mem_onHolder_or {f : Query → Query} {id : UInt16} {qs : List Query} {q : Query}
    (h : q ∈ qs) : q ∈ onHolder id f qs ∨ qs.find? (·.id = id) = some q := by
  induction qs with
  | nil => cases h
  | cons y qs ih =>
    rw [onHolder]
    by_cases hid : y.id = id
    · rw [if_pos hid]
      rcases List.mem_cons.mp h with rfl | h
      · exact .inr (List.find?_cons_of_pos (by simp [hid]))
      · exact .inl (List.mem_cons_of_mem _ h)
    · rw [if_neg hid]
      rcases List.mem_cons.mp h with rfl | h
      · exact .inl List.mem_cons_self
      · rcases ih h with h | h
        · exact .inl (List.mem_cons_of_mem _ h)
        · exact .inr ((List.find?_cons_of_neg (by simp [hid])).trans h)

/-- A response that is not relayed changes no query. -/
theorem onHolder_answer_zero (id : UInt16) (qs : List Query) :
    onHolder id (·.answer 0) qs = qs := by
  induction qs with
  | nil => rfl
  | cons q qs ih =>
    rw [onHolder, ih]
    split_ifs <;> rfl

/-- A change at one place leaves the holders of the other wire ids. -/
theorem find?_set_of_ne {qs : List Query} {p : ℕ} {q q' : Query} (hq : qs[p]? = some q)
    (hid : q'.id = q.id) (hne : id ≠ q.id) :
    (qs.set p q').find? (·.id = id) = qs.find? (·.id = id) := by
  induction qs generalizing p with
  | nil => cases hq
  | cons y qs ih =>
    cases p with
    | zero =>
      cases hq
      rw [List.set_cons_zero, List.find?_cons_of_neg (by simpa [hid] using hne.symm),
        List.find?_cons_of_neg (by simpa using hne.symm)]
    | succ p => rw [List.set_cons_succ, List.find?_cons, List.find?_cons, ih hq]

/-! ## The replies -/

theorem Relay.once_iff {s : Server} {qs : List Query} :
    Relay.Once ⟨s, qs⟩ ↔ ∀ n ∈ qs.map Query.relays, n ≤ 1 :=
  (List.forall_mem_map (P := (· ≤ 1))).symm

/-- **The relay follows the order of the events**: the slots that are valid are those whose wire id
was asked, and their queries have a reply when it was answered. -/
structure Relay.Follows (r : Relay) (ws : List WireEvent) : Prop where
  valid : ∀ id : UInt16, r.server.valid id.toNat ≠ 0 ↔ IdAsked id ws
  holder : ∀ {id}, IdAsked id ws → ∃ q, r.holder id = some q ∧ (q.relays ≠ 0 ↔ IdAnswered id ws)
  once : r.Once ↔ ¬ AnsweredTwice ws

theorem Relay.Follows.init (cache : Cache) : (Relay.init cache).Follows [] :=
  { valid := fun _ => iff_of_false (fun h => h rfl) not_since_nil
    holder := fun h => absurd h not_since_nil
    once := iff_of_true (fun _ hq => nomatch hq) not_since_nil }

section Follows

variable {s s' : Server} {qs : List Query} {ws : List WireEvent}

theorem Relay.Follows.forward (hF : Relay.Follows ⟨s, qs⟩ ws) (client : SockAddr)
    (header : DnsHeader) (question : DnsQuestion) : Relay.Follows
      ⟨(handleSendQuery s client header question).1,
        .forwarded (wireId (handleSendQuery s client header question).2) :: qs⟩
      (ws ++ [.asked s.nextId]) := by
  rw [wireId_handleSendQuery]
  constructor
  · intro id
    dsimp only
    rw [handleSendQuery_valid, asked_concat, WireEvent.keeps_asked, ← hF.valid]
    -- the slot of the new wire id is valid now, and the others are as they were
    by_cases hid : id = s.nextId
    · subst hid
      rw [Function.update_self]
      exact iff_of_true (by decide) (.inl rfl)
    · rw [Function.update_of_ne fun he => hid (UInt16.toNat_inj.mp he)]
      refine ⟨fun h => .inr ⟨hid, h⟩, ?_⟩
      rintro (⟨⟨⟩⟩ | h)
      · exact absurd rfl hid
      · exact h.2
  · intro id hasked
    rw [asked_concat, WireEvent.keeps_asked] at hasked
    rw [answered_concat, WireEvent.keeps_asked]
    by_cases hid : id = s.nextId
    · -- a new holder has no reply yet
      subst hid
      refine ⟨.forwarded s.nextId, List.find?_cons_of_pos (by simp [Query.forwarded]), ?_⟩
      exact iff_of_false (fun h => h rfl) (by rintro (⟨⟨⟩, -⟩ | ⟨hne, -⟩); exact hne rfl)
    · obtain ⟨q, hq, hrelays⟩ := hF.holder (hasked.resolve_left (by rintro ⟨⟩; exact hid rfl)).2
      have hne : ¬ s.nextId = id := Ne.symm hid
      refine ⟨q, (List.find?_cons_of_neg (by simp [Query.forwarded, hne])).trans hq, ?_⟩
      rw [hrelays]
      refine ⟨fun h => .inr ⟨hid, h⟩, ?_⟩
      rintro (⟨⟨⟩, -⟩ | ⟨-, h⟩)
      exact h
  · rw [answeredTwice_concat, not_or, ← hF.once]
    refine ⟨fun h => ⟨?_, fun q hq => h q (List.mem_cons_of_mem _ hq)⟩, fun h q hq => ?_⟩
    · rintro ⟨id, ⟨⟩, -⟩
    · rcases List.mem_cons.mp hq with rfl | hq
      · exact Nat.zero_le 1
      · exact h.2 q hq

/-- A response that is rejected. -/
theorem Relay.Follows.reject (hF : Relay.Follows ⟨s, qs⟩ ws) (hzero : s.valid id.toNat = 0)
    (hvalid : s'.valid = s.valid) :
    Relay.Follows ⟨s', onHolder id (·.answer 0) qs⟩ (ws ++ [.answered id]) := by
  have hnot : ¬ IdAsked id ws := fun h => (hF.valid id).mpr h hzero
  have hasked : ∀ id', IdAsked id' (ws ++ [.answered id]) ↔ IdAsked id' ws := by
    intro id'
    rw [asked_concat]
    exact ⟨fun h => h.elim (fun he => nomatch he) And.right,
      fun h => .inr ⟨WireEvent.keeps_answered _ _, h⟩⟩
  have hanswered : ∀ id', IdAnswered id' (ws ++ [.answered id]) ↔ IdAnswered id' ws := by
    intro id'
    rw [answered_concat]
    refine ⟨?_, fun h => .inr ⟨WireEvent.keeps_answered _ _, h⟩⟩
    rintro (⟨⟨⟩, h⟩ | ⟨-, h⟩)
    · exact absurd h hnot
    · exact h
  rw [onHolder_answer_zero]
  constructor
  · intro id'
    rw [hasked, ← hF.valid, hvalid]
  · intro id' h
    rw [hanswered]
    exact hF.holder ((hasked id').mp h)
  · rw [answeredTwice_concat, not_or]
    refine ⟨fun h => ⟨?_, hF.once.mp h⟩, fun h => hF.once.mpr h.2⟩
    rintro ⟨id', ⟨⟩, h⟩
    exact hnot h.asked

/-- A response that is relayed. -/
theorem Relay.Follows.relay (hF : Relay.Follows ⟨s, qs⟩ ws) (hne : s.valid id.toNat ≠ 0)
    (hvalid : s'.valid = s.valid) :
    Relay.Follows ⟨s', onHolder id (·.answer 1) qs⟩ (ws ++ [.answered id]) := by
  have hid := (hF.valid id).mp hne
  obtain ⟨q, hq, hrelays⟩ := hF.holder hid
  have hholder : ∀ id', Relay.holder ⟨s', onHolder id (·.answer 1) qs⟩ id' =
      if id' = id then some (q.answer 1) else Relay.holder ⟨s, qs⟩ id' := by
    intro id'
    rw [holder_answer s, hq, Option.map_some]
  constructor
  · -- the flag stays set until the query wakes up
    intro id'
    rw [asked_concat, ← hF.valid, hvalid]
    exact ⟨fun h => .inr ⟨WireEvent.keeps_answered _ _, h⟩,
      fun h => h.elim (fun he => nomatch he) And.right⟩
  · intro id' h
    have hasked : IdAsked id' ws := (asked_concat.mp h).elim (fun he => nomatch he) And.right
    rw [hholder, answered_concat]
    by_cases he : id' = id
    · subst he
      rw [if_pos rfl]
      exact ⟨_, rfl, iff_of_true (Nat.succ_ne_zero _) (.inl ⟨rfl, hasked⟩)⟩
    · rw [if_neg he]
      obtain ⟨x, hx, hiff⟩ := hF.holder hasked
      refine ⟨x, hx, hiff.trans ⟨fun h => .inr ⟨WireEvent.keeps_answered _ _, h⟩, ?_⟩⟩
      rintro (⟨⟨⟩, -⟩ | ⟨-, h⟩)
      · exact absurd rfl he
      · exact h
  · -- the holder had no reply before exactly if its id was not answered
    have honce : Relay.Once ⟨s', onHolder id (·.answer 1) qs⟩ ↔
        q.relays = 0 ∧ Relay.Once ⟨s, qs⟩ := by
      constructor
      · intro h
        have hmem : q.answer 1 ∈ onHolder id (·.answer 1) qs :=
          List.mem_of_find?_eq_some ((hholder id).trans (if_pos rfl))
        have hle : q.relays + 1 ≤ 1 := h _ hmem
        refine ⟨by omega, fun x hx => ?_⟩
        rcases mem_onHolder_or hx with hx | hx
        · exact h x hx
        · cases hq.symm.trans hx
          omega
      · rintro ⟨hzero, h⟩ x hx
        rcases mem_onHolder hx with hx | ⟨y, hy, rfl⟩
        · exact h x hx
        · cases hq.symm.trans hy
          exact (congrArg (· + 1) hzero).le
    rw [honce, answeredTwice_concat, not_or, hF.once, ← not_iff_comm.mp hrelays]
    refine and_congr_left fun _ => not_congr ⟨fun h => ⟨id, rfl, h⟩, ?_⟩
    rintro ⟨id', ⟨⟩, h⟩
    exact h

theorem Relay.Follows.wake (hF : Relay.Follows ⟨s, qs⟩ ws) {age : ℕ} {q₀ : Query}
    (hq₀ : qs[age]? = some q₀) (hvalid : s'.valid = Function.update s.valid q₀.id.toNat 0) :
    Relay.Follows ⟨s', qs.set age q₀.wake⟩ (ws ++ [.woken q₀.id]) := by
  have hasked : ∀ id', IdAsked id' (ws ++ [.woken q₀.id]) ↔ id' ≠ q₀.id ∧ IdAsked id' ws := by
    intro id'
    rw [asked_concat, WireEvent.keeps_woken]
    exact ⟨fun h => h.resolve_left (by rintro ⟨⟩), .inr⟩
  constructor
  · intro id'
    rw [hasked, ← hF.valid]
    dsimp only
    rw [hvalid]
    -- the wire id is closed for responses, whichever of its queries wakes up
    by_cases he : id' = q₀.id
    · subst he
      rw [Function.update_self]
      exact iff_of_false (fun h => h rfl) fun h => h.1 rfl
    · rw [Function.update_of_ne fun h => he (UInt16.toNat_inj.mp h)]
      exact ⟨fun h => ⟨he, h⟩, And.right⟩
  · intro id' h
    obtain ⟨hne, hid'⟩ := (hasked id').mp h
    obtain ⟨q, hq, hiff⟩ := hF.holder hid'
    have hid : q₀.wake.id = q₀.id := rfl
    refine ⟨q, (find?_set_of_ne hq₀ hid hne).trans hq, hiff.trans ?_⟩
    rw [answered_concat, WireEvent.keeps_woken]
    exact ⟨fun h => .inr ⟨hne, h⟩, fun h => h.elim (fun he => nomatch he.1) And.right⟩
  · have hwake : Relay.Once ⟨s', qs.set age q₀.wake⟩ ↔ Relay.Once ⟨s, qs⟩ := by
      have hrelays : q₀.wake.relays = q₀.relays := rfl
      rw [Relay.once_iff, Relay.once_iff, map_set_of_eq hq₀ hrelays]
    rw [hwake, hF.once, answeredTwice_concat]
    exact not_congr ⟨.inr, fun h => h.resolve_left (by rintro ⟨_, ⟨⟩, -⟩)⟩

end Follows

/-- **A step follows the order of the events**, after as many queries as the relay has forwarded. -/
theorem Relay.Follows.step {ws : List WireEvent} (hF : r.Follows ws) (hC : r.Counted)
    (h : r.Step e r') : r'.Follows (ws ++ e.wire r.queries.length) := by
  cases h with
  | @forward s qs client header question =>
    -- the wire ids count the queries
    have hid : s.nextId = .ofNat (qs.length + 1) := by
      apply UInt16.toNat_inj.mp
      rw [hC.nextId, List.length_map, UInt16.toNat_ofNat']
    rw [RelayEvent.wire, ← hid]
    exact hF.forward client header question
  | response hr =>
    have hvalid := relayResponse_valid hr
    rcases relayResponse_cases hr with ⟨hzero, rfl, -⟩ | ⟨hne, rfl, -⟩
    · exact hF.reject hzero hvalid
    · exact hF.relay hne hvalid
  | @timer s qs age q hq hw =>
    rw [RelayEvent.wire, List.append_nil]
    refine ⟨fun id => ?_, hF.holder, hF.once⟩
    rw [timerHandler_valid]
    exact hF.valid id
  | @wake s s' qs age q hq hw hr =>
    obtain ⟨-, -, hvalid⟩ := wakeSendQuery_eq_some hr
    have hid : q.id = .ofNat (qs.length - age) := by
      apply UInt16.toNat_inj.mp
      rw [hC.ids (Relay.getElem?_ids hq), List.length_map, UInt16.toNat_ofNat']
    rw [RelayEvent.wire, ← hid]
    exact hF.wake hq hvalid
  | cache c =>
    rw [RelayEvent.wire, List.append_nil]
    exact ⟨hF.valid, hF.holder, hF.once⟩

/-- The relay has forwarded as many queries as the events say. -/
theorem Relay.Step.length (h : r.Step e r') :
    r'.queries.length = r.queries.length + e.forwards := by
  have hlen : ∀ {qs qs' : List Query}, qs'.map Query.id = qs.map Query.id →
      qs'.length = qs.length + 0 := by
    intro qs qs' hids
    simpa using congrArg List.length hids
  cases h with
  | forward => rfl
  | response => exact hlen (onHolder_ids (f := (·.answer _)) (fun _ => rfl) _)
  | timer => rfl
  | wake hq => exact hlen (map_set_of_eq hq rfl)
  | cache => rfl

/-- **A query is answered at most once** exactly when no wire id is answered twice: in every run,
`handle_send_response` was executed at most once for every query if and only if no second response
came with a wire id between its forwarding and the wake-up of a query that has it. -/
theorem relayed_once_iff (h : Trace Relay.Step (.init cache) es r) :
    r.Once ↔ ¬ AnsweredTwice (wireEvents 0 es) := by
  suffices hinv : r.Counted ∧ r.queries.length = (es.map RelayEvent.forwards).sum ∧
      r.Follows (wireEvents 0 es) from hinv.2.2.once
  induction h with
  | start => exact ⟨.init cache, rfl, .init cache⟩
  | step _ hs ih =>
    obtain ⟨hC, hlen, hF⟩ := ih
    refine ⟨hC.step hs, ?_, ?_⟩
    · rw [hs.length, hlen, List.map_append, List.sum_append, List.map_singleton,
        List.sum_singleton]
    · rw [wireEvents_concat, Nat.zero_add, ← hlen]
      exact hF.step hC hs

/-- The id is answered once, and once again when the query has woken up. -/
theorem not_answeredTwice_late (id : UInt16) :
    ¬ AnsweredTwice [.asked id, .answered id, .woken id, .answered id] := by
  have hnil : ¬ AnsweredTwice [] := not_since_nil
  have hnil' : ∀ id, ¬ IdAnswered id [] := fun _ => not_since_nil
  show ¬ AnsweredTwice ([] ++ [_] ++ [_] ++ [_] ++ [_])
  simp only [answeredTwice_concat, answered_concat, WireEvent.keeps_woken, WireEvent.keeps_asked,
    hnil, hnil']
  simp

theorem relayed_once_late : ∃ es r, Trace Relay.Step (.init Cache.init) es r ∧
    wireEvents 0 es = [.asked 1, .answered 1, .woken 1, .answered 1] ∧
      (r.Once ↔ ¬ AnsweredTwice (wireEvents 0 es)) ∧ r.Once := by
  have hforward : Trace Relay.Step (.init Cache.init) _ _ := .single Relay.first_step
  obtain ⟨s₁, hs₁, hsem, hvalid⟩ :=
    exists_emptyResponse Relay.first.server [.forwarded 1] 0 1 (by decide)
  have hanswered := hforward.step hs₁
  obtain ⟨s₂, hs₂⟩ : ∃ s₂, wakeSendQuery s₁ 1 = some s₂ := by
    refine ⟨_, if_neg ?_⟩
    show s₁.sem (1 : UInt16).toNat ≠ 0
    rw [hsem, Function.update_self]
    exact Nat.succ_ne_zero _
  have hwoken := hanswered.step (e := .wake 0) (.wake rfl rfl hs₂)
  -- the second response comes late
  obtain ⟨s₃, sent, nodes, hs₃⟩ := relayResponse_emptyResponse s₂ 0 1
  have hlate := hwoken.step (.response hs₃)
  refine ⟨_, _, hlate, rfl, relayed_once_iff hlate, (relayed_once_iff hlate).mpr ?_⟩
  exact not_answeredTwice_late 1

theorem not_relayed_once_duplicate :
    ¬ ∀ cache es r, Trace Relay.Step (.init cache) es r → r.Once := by
  intro hall
  have hforward : Trace Relay.Step (.init Cache.init) _ _ := .single Relay.first_step
  obtain ⟨s₁, hs₁, -, hvalid⟩ :=
    exists_emptyResponse Relay.first.server [.forwarded 1] 0 1 (by decide)
  obtain ⟨s₂, hs₂, -, -⟩ :=
    exists_emptyResponse s₁ [(Query.forwarded 1).answer 1] 0 1 (by rw [hvalid]; decide)
  have hle := hall _ _ _ ((hforward.step hs₁).step hs₂) _ (List.mem_singleton.mpr rfl)
  exact absurd hle (by decide)

end Adrift
