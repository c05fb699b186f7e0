import Adrift.Protocol.Outstanding

/-!
# Tokens of the semaphores

A response that passes the check posts the semaphore of its slot, and so does a timer, each time
that it fires. A query takes one token when it wakes up. Tokens that nobody takes stay in the
slot, until a later query with the same wire id is forwarded. A token does not say which query it
was posted for; the steps here do.

## Main definitions

* `waiters qs i`: how many queries wait on a slot
* `Relay.NoStale r`: a slot that is not in use has no tokens
* `TokenRelay`, `TokenRelay.Step`: the relay, with the queries that its tokens were posted for
* `TokenRelay.Awaited t e`: a token is posted only for the one query that waits on an empty slot

## Main results

* `Relay.Step.tokens`: what a step does to the tokens and to the waiting queries
* `Relay.exists_tokens`, `TokenRelay.Tallied.trace`: every run has its tokens, as many as the
  semaphores count
* `TokenRelay.Owned.step`: a step keeps the tokens of a slot for the query that waits on it
* `no_stale_wakeup`: when all tokens are awaited, a query that reuses a slot is blocked, and takes a
  token of its own
-/

namespace Adrift

open Transition

/-- How many of the queries wait on the slot `i`. -/
def waiters (qs : List Query) (i : ℕ) : ℕ := qs.countP fun q => q.waiting ∧ q.id.toNat = i

/-- A slot that is not in use: nobody waits on it, and its valid flag is cleared. -/
def Relay.Idle (r : Relay) (i : ℕ) : Prop := waiters r.queries i = 0 ∧ r.server.valid i = 0

instance decidableIdle (r : Relay) (i : ℕ) : Decidable (r.Idle i) :=
  inferInstanceAs (Decidable (_ ∧ _))

/-- **No stale tokens**: the semaphore of a slot that is not in use has count 0. -/
def Relay.NoStale (r : Relay) : Prop := ∀ i, r.Idle i → r.server.sem i = 0

/-! ## Whose tokens -/

/-- The query that was forwarded after `n` others. -/
def Relay.Numbered (r : Relay) (n : ℕ) (q : Query) : Prop :=
  ∃ p, p + n + 1 = r.queries.length ∧ r.queries[p]? = some q

/-- The relay, with what each token of a slot was posted for: a query, by its number, or none. -/
structure TokenRelay where
  relay : Relay
  tokens : ℕ → List (Option ℕ)

/-- Before the first datagram there are no tokens. -/
def TokenRelay.init (cache : Cache) : TokenRelay := ⟨.init cache, fun _ => []⟩

/-- The tokens after one more was posted in the slot `i`. -/
def postToken (tokens : ℕ → List (Option ℕ)) (i : ℕ) (o : Option ℕ) : ℕ → List (Option ℕ) :=
  Function.update tokens i (o :: tokens i)

/-- The tokens after one was taken from the slot `i`. -/
def takeToken (tokens : ℕ → List (Option ℕ)) (i : ℕ) (o : Option ℕ) : ℕ → List (Option ℕ) :=
  Function.update tokens i ((tokens i).erase o)

/-- **The steps of the relay, with its tokens**. A response comes with the query that it answers,
which has its wire id, or with none; a timer with its query; and a wake-up with the token that it
takes, any of its slot. -/
inductive TokenRelay.Step : TokenRelay → RelayEvent × Option ℕ → TokenRelay → Prop
  | forward {r r' : Relay} {tokens : ℕ → List (Option ℕ)} {client : SockAddr} {header : DnsHeader}
      {question : DnsQuestion} (hs : r.Step (.forward client header question) r') :
      Step ⟨r, tokens⟩ (.forward client header question, none) ⟨r', tokens⟩
  | reject {r r' : Relay} {tokens : ℕ → List (Option ℕ)} {now : ℤ} {resp : Response}
      {o : Option ℕ} (hs : r.Step (.response now resp) r')
      (ho : ∀ n ∈ o, ∃ q, r.Numbered n q ∧ q.id = resp.header.id)
      (hvalid : r.server.valid resp.header.id.toNat = 0) :
      Step ⟨r, tokens⟩ (.response now resp, o) ⟨r', tokens⟩
  | response {r r' : Relay} {tokens : ℕ → List (Option ℕ)} {now : ℤ} {resp : Response}
      {o : Option ℕ} (hs : r.Step (.response now resp) r')
      (ho : ∀ n ∈ o, ∃ q, r.Numbered n q ∧ q.id = resp.header.id)
      (hvalid : r.server.valid resp.header.id.toNat ≠ 0) :
      Step ⟨r, tokens⟩ (.response now resp, o) ⟨r', postToken tokens resp.header.id.toNat o⟩
  | timer {r r' : Relay} {tokens : ℕ → List (Option ℕ)} {age n : ℕ} {q : Query}
      (hs : r.Step (.timer age) r') (hq : r.queries[age]? = some q)
      (hn : age + n + 1 = r.queries.length) :
      Step ⟨r, tokens⟩ (.timer age, some n) ⟨r', postToken tokens q.id.toNat (some n)⟩
  | wake {r r' : Relay} {tokens : ℕ → List (Option ℕ)} {age : ℕ} {q : Query} {o : Option ℕ}
      (hs : r.Step (.wake age) r') (hq : r.queries[age]? = some q) (ho : o ∈ tokens q.id.toNat) :
      Step ⟨r, tokens⟩ (.wake age, o) ⟨r', takeToken tokens q.id.toNat o⟩
  | cache {r r' : Relay} {tokens : ℕ → List (Option ℕ)} {cache : Cache}
      (hs : r.Step (.cache cache) r') : Step ⟨r, tokens⟩ (.cache cache, none) ⟨r', tokens⟩

/-- **A token for the slot is awaited**: the slot is empty, and the query that the token is for
waits on it, and no other. -/
def TokenRelay.Awaits (t : TokenRelay) (i : ℕ) (o : Option ℕ) : Prop :=
  t.relay.server.sem i = 0 ∧ waiters t.relay.queries i = 1 ∧
    ∃ n q, o = some n ∧ t.relay.Numbered n q ∧ q.waiting ∧ q.id.toNat = i

/-- **A token that is posted is awaited**, whether a response posts it that passes the check, or a
timer that fires. -/
def TokenRelay.Awaited (t : TokenRelay) : RelayEvent × Option ℕ → Prop
  | (.response _ resp, o) => t.relay.server.valid resp.header.id.toNat ≠ 0 →
      t.Awaits resp.header.id.toNat o
  | (.timer age, o) => ∀ q : Query, t.relay.queries[age]? = some q → t.Awaits q.id.toNat o
  | _ => True

/-! ## Tokens and waiting queries -/

theorem waiters_cons (q : Query) (qs : List Query) (i : ℕ) :
    waiters (q :: qs) i = waiters qs i + if q.waiting ∧ q.id.toNat = i then 1 else 0 := by
  rw [waiters, List.countP_cons, ← waiters]
  simp only [decide_eq_true_eq]

/-- A response leaves the queries waiting. -/
theorem waiters_answer (id : UInt16) (n : ℕ) (qs : List Query) (i : ℕ) :
    waiters (onHolder id (·.answer n) qs) i = waiters qs i := by
  induction qs with
  | nil => rfl
  | cons q qs ih =>
    rw [onHolder]
    split_ifs
    · rfl
    · rw [waiters_cons, waiters_cons, ih]

/-- A query that wakes up waits no more on its slot. -/
theorem waiters_wake {qs : List Query} {p : ℕ} {q : Query} (hq : qs[p]? = some q)
    (hw : q.waiting) (i : ℕ) : waiters (qs.set p q.wake) i + (if q.id.toNat = i then 1 else 0) =
      waiters qs i := by
  induction qs generalizing p with
  | nil => cases hq
  | cons y qs ih =>
    cases p with
    | zero =>
      cases hq
      rw [List.set_cons_zero, waiters_cons, waiters_cons]
      simp [Query.wake, hw]
    | succ p =>
      rw [List.set_cons_succ, waiters_cons, waiters_cons, ← ih hq]
      exact Nat.add_right_comm ..

/-- A query that waits alone on its slot is the only one there. -/
theorem eq_of_waiters {qs : List Query} {i p p' : ℕ} {q q' : Query} (h : waiters qs i = 1)
    (hq : qs[p]? = some q) (hq' : qs[p']? = some q') (hw : q.waiting ∧ q.id.toNat = i)
    (hw' : q'.waiting ∧ q'.id.toNat = i) : p = p' := by
  induction qs generalizing p p' with
  | nil => cases hq
  | cons y qs ih =>
    have hnone : ∀ {p : ℕ} {q : Query}, waiters qs i = 0 → qs[p]? = some q →
        ¬ (q.waiting ∧ q.id.toNat = i) := by
      intro p q hzero hq hw
      have := List.countP_eq_zero.mp hzero q (List.mem_of_getElem? hq)
      exact this (decide_eq_true hw)
    rw [waiters_cons] at h
    cases p with
    | zero =>
      cases hq
      rw [if_pos hw, Nat.add_eq_right] at h
      cases p' with
      | zero => rfl
      | succ p' => exact absurd hw' (hnone h hq')
    | succ p =>
      cases p' with
      | zero =>
        cases hq'
        rw [if_pos hw', Nat.add_eq_right] at h
        exact absurd hw (hnone h hq)
      | succ p' =>
        split_ifs at h with hy
        · rw [Nat.add_eq_right] at h
          exact absurd hw (hnone h hq)
        · exact congrArg (· + 1) (ih h hq hq')

variable {r r' : Relay} {t t' t₀ : TokenRelay} {e : RelayEvent} {es : List RelayEvent}
  {f : RelayEvent × Option ℕ} {fs : List (RelayEvent × Option ℕ)} {cache : Cache} {id : UInt16}
  {k : ℕ}

/-- A token is posted only while there are fewer tokens in its slot than queries that wait on
it. -/
def Relay.Wanted (r : Relay) : RelayEvent → Prop
  | .response _ resp => r.server.valid resp.header.id.toNat ≠ 0 →
      r.server.sem resp.header.id.toNat < waiters r.queries resp.header.id.toNat
  | .timer age => ∀ q : Query, r.queries[age]? = some q →
      r.server.sem q.id.toNat < waiters r.queries q.id.toNat
  | _ => True

/-- **What a step does to the tokens**: it takes none and lets no query go, or it posts one for a
wire id, or a waiting query takes one and goes. -/
theorem Relay.Step.tokens (h : r.Step e r') :
    (r'.server.sem = r.server.sem ∧ ∀ i, waiters r.queries i ≤ waiters r'.queries i) ∨
      (∃ id : UInt16,
        (r.Wanted e → r.server.sem id.toNat < waiters r.queries id.toNat) ∧
          r'.server.sem = Function.update r.server.sem id.toNat (r.server.sem id.toNat + 1) ∧
            ∀ i, waiters r'.queries i = waiters r.queries i) ∨
      ∃ id : UInt16, r.server.sem id.toNat ≠ 0 ∧
        r'.server.sem = Function.update r.server.sem id.toNat (r.server.sem id.toNat - 1) ∧
          ∀ i, waiters r'.queries i + (if id.toNat = i then 1 else 0) = waiters r.queries i := by
  cases h with
  | @forward s qs client header question =>
    have hsem : (handleSendQuery s client header question).1.sem = s.sem := handleSendQuery_sem
    refine .inl ⟨hsem, fun i => ?_⟩
    rw [waiters_cons]
    exact Nat.le_add_right ..
  | @response s s' qs _ resp _ _ hr =>
    rcases relayResponse_cases hr with ⟨-, -, htable⟩ | ⟨hne, -, hsem, -⟩
    · -- a response whose slot is not valid posts nothing
      refine .inl ⟨?_, fun i => (waiters_answer ..).ge⟩
      funext i
      rw [Server.sem, Server.sem, htable]
    · exact .inr (.inl ⟨resp.header.id, fun hwanted => hwanted hne, hsem, waiters_answer _ _ _⟩)
  | @timer s qs age q hq =>
    exact .inr (.inl ⟨q.id, fun hwanted => hwanted q hq, timerHandler_sem s q.id, fun _ => rfl⟩)
  | wake hq hw hr =>
    obtain ⟨hne, hsem, -⟩ := wakeSendQuery_eq_some hr
    exact .inr (.inr ⟨_, hne, hsem, waiters_wake hq hw⟩)
  | cache => exact .inl ⟨rfl, fun _ => le_rfl⟩

/-- There are no more tokens than queries that wait for them. -/
def Relay.TokensWanted (r : Relay) : Prop := ∀ i, r.server.sem i ≤ waiters r.queries i

theorem Relay.TokensWanted.step (hT : r.TokensWanted) (h : r.Step e r') (hw : r.Wanted e) :
    r'.TokensWanted := by
  intro i
  have hle := hT i
  rcases h.tokens with ⟨hsem, hwait⟩ | ⟨id, hlt, hsem, hwait⟩ | ⟨id, hne, hsem, hwait⟩
  · rw [hsem]
    exact hle.trans (hwait i)
  · -- a wanted token still finds a query that waits for it
    rw [hsem, hwait, Function.update_apply]
    split_ifs with hi
    · subst hi
      exact hlt hw
    · exact hle
  · -- a token is taken by the query that goes
    have hcount := hwait i
    rw [hsem, Function.update_apply]
    split_ifs at hcount ⊢ with hi hi' hi'
    · subst hi
      omega
    · exact absurd hi.symm hi'
    · exact absurd hi'.symm hi
    · omega

/-! ## The tokens of the slots -/

/-- A step of the relay, with its tokens, is one of the relay. -/
theorem TokenRelay.Step.relay (h : t.Step f t') : t.relay.Step f.1 t'.relay := by
  cases h <;> assumption

/-- **The tokens are counted** by the semaphores. -/
def TokenRelay.Tallied (t : TokenRelay) : Prop := ∀ i, (t.tokens i).length = t.relay.server.sem i

section Tallied

variable {tokens : ℕ → List (Option ℕ)} {sem : ℕ → ℕ} {o : Option ℕ}

theorem length_postToken (h : ∀ i, (tokens i).length = sem i) (i j : ℕ) :
    (postToken tokens i o j).length = Function.update sem i (sem i + 1) j := by
  rw [postToken, Function.update_apply, Function.update_apply]
  split_ifs
  · rw [List.length_cons, h]
  · exact h j

theorem length_takeToken (h : ∀ i, (tokens i).length = sem i) {i : ℕ} (ho : o ∈ tokens i)
    (j : ℕ) : (takeToken tokens i o j).length = Function.update sem i (sem i - 1) j := by
  rw [takeToken, Function.update_apply, Function.update_apply]
  split_ifs
  · rw [List.length_erase_of_mem ho, h]
  · exact h j

end Tallied

theorem TokenRelay.Tallied.init (cache : Cache) : (TokenRelay.init cache).Tallied := fun _ => rfl

theorem TokenRelay.Tallied.step (hT : t.Tallied) (h : t.Step f t') : t'.Tallied := by
  cases h with
  | forward hs =>
    cases hs
    intro i
    rw [handleSendQuery_sem]
    exact hT i
  | reject hs ho hvalid =>
    cases hs with
    | response hr =>
      rcases relayResponse_cases hr with ⟨-, -, htable⟩ | ⟨hne, -⟩
      · intro i
        rw [Server.sem, htable]
        exact hT i
      · exact absurd hvalid hne
  | response hs ho hvalid =>
    cases hs with
    | response hr =>
      rcases relayResponse_cases hr with ⟨hzero, -⟩ | ⟨-, -, hsem, -⟩
      · exact absurd hzero hvalid
      · intro i
        rw [hsem]
        exact length_postToken hT _ i
  | timer hs hq =>
    cases hs with
    | timer hq' hw =>
      cases hq.symm.trans hq'
      intro i
      rw [timerHandler_sem]
      exact length_postToken hT _ i
  | wake hs hq ho =>
    cases hs with
    | wake hq' hw hr =>
      cases hq.symm.trans hq'
      obtain ⟨-, hsem, -⟩ := wakeSendQuery_eq_some hr
      intro i
      rw [hsem]
      exact length_takeToken hT ho i
  | cache hs =>
    cases hs
    exact hT

theorem TokenRelay.Tallied.trace (h : Trace TokenRelay.Step (.init cache) fs t) : t.Tallied :=
  h.invariant (.init cache) fun hT hs => hT.step hs

/-- **Every run has its tokens**, whatever its responses answer. -/
theorem Relay.exists_tokens (h : Trace Relay.Step (.init cache) es r) :
    ∃ fs t, Trace TokenRelay.Step (.init cache) fs t ∧ fs.map Prod.fst = es ∧ t.relay = r := by
  induction h with
  | start => exact ⟨_, _, .start, rfl, rfl⟩
  | @step es r r' e _ hs ih =>
    obtain ⟨fs, ⟨_, tokens⟩, htrace, rfl, rfl⟩ := ih
    suffices hstep : ∃ o t', TokenRelay.Step ⟨_, tokens⟩ (e, o) t' ∧ t'.relay = r' by
      obtain ⟨o, t', hstep, rfl⟩ := hstep
      exact ⟨_, _, htrace.step hstep, List.map_append, rfl⟩
    cases hs with
    | forward client header question => exact ⟨_, _, .forward (.forward ..), rfl⟩
    | @response s s' qs now resp sent nodes hr =>
      by_cases hvalid : s.valid resp.header.id.toNat = 0
      · exact ⟨none, _, .reject (.response hr) (fun _ h => nomatch h) hvalid, rfl⟩
      · exact ⟨none, _, .response (.response hr) (fun _ h => nomatch h) hvalid, rfl⟩
    | @timer s qs age q hq hw =>
      have hlt := (List.getElem?_eq_some_iff.mp hq).1
      have hn : age + (qs.length - 1 - age) + 1 = qs.length := by omega
      exact ⟨_, _, .timer (.timer hq hw) hq hn, rfl⟩
    | @wake s s' qs age q hq hw hr =>
      -- the semaphore that lets the query go counts a token
      obtain ⟨hne, -⟩ := wakeSendQuery_eq_some hr
      have hlen : (tokens q.id.toNat).length = s.sem q.id.toNat :=
        TokenRelay.Tallied.trace htrace q.id.toNat
      obtain ⟨o, ho⟩ := List.exists_mem_of_length_pos (hlen ▸ Nat.pos_of_ne_zero hne)
      exact ⟨_, _, .wake (.wake hq hw hr) hq ho, rfl⟩
    | cache c => exact ⟨_, _, .cache (.cache c), rfl⟩

/-- **The queries keep their numbers** and their wire ids, and stop waiting at most. -/
theorem Relay.Step.numbered (h : r.Step e r') (hk : k < r.queries.length) {q' : Query}
    (hq' : r'.Numbered k q') :
    ∃ q, r.Numbered k q ∧ q'.id = q.id ∧ (q'.waiting → q.waiting) := by
  obtain ⟨p, hp, hq'⟩ := hq'
  rcases h.other with ⟨client, header, question, rfl⟩ | ⟨-, hqs⟩
  · cases h with
    | forward =>
      -- the query is one place further down
      cases p with
      | zero => exact absurd hp (by simpa using hk.ne)
      | succ p =>
        refine ⟨q', ⟨p, ?_, hq'⟩, rfl, id⟩
        simpa [Nat.add_right_comm] using hp
  · have hids := congrArg List.length hqs.ids
    rw [List.length_map, List.length_map] at hids
    obtain ⟨q, hq, hw⟩ := hqs.waiting hq'
    refine ⟨q, ⟨p, hids ▸ hp, hq⟩, ?_, hw⟩
    have := Relay.getElem?_ids hq'
    rw [hqs.ids, Relay.getElem?_ids hq] at this
    exact (Option.some.inj this).symm

theorem Relay.Step.length_le (h : r.Step e r') : r.queries.length ≤ r'.queries.length := by
  rcases h.other with ⟨client, header, question, rfl⟩ | ⟨-, hqs⟩
  · cases h with
    | forward => exact Nat.le_succ _
  · have hids := congrArg List.length hqs.ids
    rw [List.length_map, List.length_map] at hids
    exact hids.ge

/-! ## Tokens that are awaited -/

/-- A token that is awaited is for the query that waits on the slot. -/
theorem TokenRelay.Awaits.eq_some {i : ℕ} {o : Option ℕ} {q : Query} (h : t.Awaits i o)
    (hq : t.relay.Numbered k q) (hw : q.waiting) (hid : q.id.toNat = i) : o = some k := by
  obtain ⟨-, hone, n, q', rfl, ⟨p', hp', hq'⟩, hw', hid'⟩ := h
  obtain ⟨p, hp, hq⟩ := hq
  have heq := eq_of_waiters hone hq hq' ⟨hw, hid⟩ ⟨hw', hid'⟩
  congr 1
  omega

theorem TokenRelay.Awaits.lt {i : ℕ} {o : Option ℕ} (h : t.Awaits i o) :
    t.relay.server.sem i < waiters t.relay.queries i := by
  rw [h.1, h.2.1]
  exact Nat.zero_lt_one

theorem TokenRelay.Awaited.wanted (h : t.Awaited f) : t.relay.Wanted f.1 := by
  obtain ⟨e, o⟩ := f
  cases e with
  | response now resp => exact fun hvalid => (h hvalid).lt
  | timer age => exact fun q hq => (h q hq).lt
  | _ => trivial

theorem mem_postToken {tokens : ℕ → List (Option ℕ)} {i j : ℕ} {o o' : Option ℕ}
    (h : o' ∈ postToken tokens i o j) : o' ∈ tokens j ∨ j = i ∧ o' = o := by
  rw [postToken, Function.update_apply] at h
  split_ifs at h with hj
  · subst hj
    rcases List.mem_cons.mp h with rfl | h
    · exact .inr ⟨rfl, rfl⟩
    · exact .inl h
  · exact .inl h

theorem mem_takeToken {tokens : ℕ → List (Option ℕ)} {i j : ℕ} {o o' : Option ℕ}
    (h : o' ∈ takeToken tokens i o j) : o' ∈ tokens j := by
  rw [takeToken, Function.update_apply] at h
  split_ifs at h with hj
  · subst hj
    exact List.mem_of_mem_erase h
  · exact h

/-- **The slot is kept for a query**: it has the wire id, and while it waits, the tokens of the slot
are its own. -/
def TokenRelay.Owned (id : UInt16) (k : ℕ) (t : TokenRelay) : Prop :=
  k < t.relay.queries.length ∧ ∀ q, t.relay.Numbered k q →
    q.id = id ∧ (q.waiting → ∀ o ∈ t.tokens id.toNat, o = some k)

/-- **A step keeps the slot for the query**, when a token that it posts is awaited. -/
theorem TokenRelay.Owned.step (hO : t.Owned id k) (h : t.Step f t') (ha : t.Awaited f) :
    t'.Owned id k := by
  obtain ⟨hk, hO⟩ := hO
  refine ⟨hk.trans_le h.relay.length_le, fun q' hq' => ?_⟩
  obtain ⟨q, hq, hid', hw'⟩ := h.relay.numbered hk hq'
  obtain ⟨rfl, hown⟩ := hO q hq
  refine ⟨hid', fun hwait o ho => ?_⟩
  have hw := hw' hwait
  cases h with
  | forward => exact hown hw o ho
  | reject => exact hown hw o ho
  | response hs _ hvalid =>
    rcases mem_postToken ho with ho | ⟨hi, rfl⟩
    · exact hown hw o ho
    · exact (ha hvalid).eq_some hq hw hi
  | timer hs hage hn =>
    rcases mem_postToken ho with ho | ⟨hi, rfl⟩
    · exact hown hw o ho
    · exact (ha _ hage).eq_some hq hw hi
  | wake => exact hown hw o (mem_takeToken ho)
  | cache => exact hown hw o ho

/-- The slot that a query is forwarded on is its own, when it was empty. -/
theorem TokenRelay.Owned.forward {client : SockAddr} {header : DnsHeader} {question : DnsQuestion}
    (hempty : t.tokens t.relay.server.nextId.toNat = [])
    (h : t.Step (.forward client header question, none) t') :
    t'.Owned t.relay.server.nextId t.relay.queries.length := by
  cases h with
  | forward hs =>
    cases hs with
    | @forward s qs =>
      -- the new query is at the front, with the number of those before it
      refine ⟨Nat.lt_succ_self _, ?_⟩
      rintro q ⟨p, hp, hq⟩
      rw [List.length_cons] at hp
      obtain rfl : p = 0 := by
        dsimp only at hp
        omega
      cases hq
      refine ⟨wireId_handleSendQuery, fun _ o ho => ?_⟩
      dsimp only at ho hempty
      rw [hempty] at ho
      cases ho

/-- **No stale wake-up**: in every run whose tokens were awaited when they were posted, a slot that
is not in use has no tokens; and a query that reuses one is blocked when it is forwarded, and takes
a token that its own response or its own timer has posted, when it wakes up. -/
theorem no_stale_wakeup
    (h : Trace (Restrict TokenRelay.Step TokenRelay.Awaited) (.init cache) fs t) :
    t.relay.NoStale ∧ ∀ client header question t₁, t.relay.Idle t.relay.server.nextId.toNat →
      t.Step (.forward client header question, none) t₁ →
        wakeSendQuery t₁.relay.server t.relay.server.nextId = none ∧
          ∀ gs t₂ age o t₃, Trace (Restrict TokenRelay.Step TokenRelay.Awaited) t₁ gs t₂ →
            age + t.relay.queries.length + 1 = t₂.relay.queries.length →
              t₂.Step (.wake age, o) t₃ → o = some t.relay.queries.length := by
  -- no slot has more tokens than queries that wait on it
  have hT : t.relay.TokensWanted := h.invariant (P := fun t => t.relay.TokensWanted)
    (fun _ => le_rfl) fun hT hs => hT.step hs.1.relay hs.2.wanted
  have hstale : t.relay.NoStale := fun i hi => Nat.le_zero.mp ((hT i).trans_eq hi.1)
  refine ⟨hstale, fun client header question t₁ hidle hs => ?_⟩
  have htally : t.Tallied := .trace (h.mono fun hs => hs.1)
  have hzero := hstale _ hidle
  have hempty := List.eq_nil_of_length_eq_zero ((htally _).trans hzero)
  constructor
  · -- the query finds no token
    apply if_pos
    have hzero' := (htally.step hs t.relay.server.nextId.toNat).symm
    cases hs
    exact hzero'.trans (congrArg List.length hempty)
  · -- and while it waits, all tokens of its slot are its own
    intro gs t₂ age o t₃ hrun hage hwake
    have hown : t₂.Owned t.relay.server.nextId t.relay.queries.length :=
      hrun.invariant (.forward hempty hs) fun hO hs => hO.step hs.1 hs.2
    cases hwake with
    | wake hs hq ho =>
      obtain ⟨hid, hown⟩ := hown.2 _ ⟨age, hage, hq⟩
      cases hs with
      | wake hq' hw =>
        cases hq.symm.trans hq'
        exact hown hw o (hid ▸ ho)

theorem no_stale_wakeup_answered : ∃ fs t,
    Trace (Restrict TokenRelay.Step TokenRelay.Awaited) (.init Cache.init) fs t ∧
      fs.map Prod.snd = [none, some 0, some 0] ∧ t.relay.Idle t.relay.server.nextId.toNat ∧
        t.relay.NoStale ∧ ∀ client header question t₁, t.relay.Idle t.relay.server.nextId.toNat →
          t.Step (.forward client header question, none) t₁ →
            wakeSendQuery t₁.relay.server t.relay.server.nextId = none ∧
              ∀ gs t₂ age o t₃, Trace (Restrict TokenRelay.Step TokenRelay.Awaited) t₁ gs t₂ →
                age + t.relay.queries.length + 1 = t₂.relay.queries.length →
                  t₂.Step (.wake age, o) t₃ → o = some t.relay.queries.length := by
  have hforward : Trace (Restrict TokenRelay.Step TokenRelay.Awaited) (.init Cache.init) _ _ :=
    .single ⟨.forward Relay.first_step, trivial⟩
  obtain ⟨s₁, hs₁, hsem, hvalid⟩ :=
    exists_emptyResponse Relay.first.server [.forwarded 1] 0 1 (by decide)
  -- the response answers the first query
  have hnumbered : Relay.first.Numbered 0 (.forwarded 1) := ⟨0, rfl, rfl⟩
  have hanswers : ∀ n ∈ some 0, ∃ q, Relay.first.Numbered n q ∧ q.id = 1 := by
    rintro n ⟨⟩
    exact ⟨_, hnumbered, rfl⟩
  have hresponse : TokenRelay.Step ⟨Relay.first, fun _ => []⟩
      (.response 0 (emptyResponse 1), some 0) _ := .response hs₁ hanswers (by decide)
  have hawaits : TokenRelay.Awaits ⟨Relay.first, fun _ => []⟩ 1 (some 0) :=
    ⟨by decide, by decide, 0, _, rfl, hnumbered, rfl, rfl⟩
  have hanswered := hforward.step ⟨hresponse, fun _ => hawaits⟩
  obtain ⟨s₂, hs₂⟩ : ∃ s₂, wakeSendQuery s₁ 1 = some s₂ := by
    refine ⟨_, if_neg ?_⟩
    show s₁.sem (1 : UInt16).toNat ≠ 0
    rw [hsem, Function.update_self]
    exact Nat.succ_ne_zero _
  have hw : Relay.Step ⟨s₁, [(Query.forwarded 1).answer 1]⟩ (.wake 0) _ := .wake rfl rfl hs₂
  have hwake : TokenRelay.Step
      ⟨⟨s₁, [(Query.forwarded 1).answer 1]⟩, postToken (fun _ => []) 1 (some 0)⟩
      (.wake 0, some 0) _ := .wake hw rfl List.mem_cons_self
  have hwoken := hanswered.step ⟨hwake, trivial⟩
  refine ⟨_, _, hwoken, rfl, ?_, no_stale_wakeup hwoken⟩
  -- the next wire id is 2, and its slot was never used
  have hnext : s₂.nextId.toNat = 2 :=
    (((Relay.Counted.init Cache.init).step Relay.first_step).step hs₁ |>.step hw).nextId
  obtain ⟨-, -, hvalid'⟩ := wakeSendQuery_eq_some hs₂
  refine ⟨?_, ?_⟩
  · rw [hnext]
    rfl
  · rw [hnext, hvalid', Function.update_of_ne (by decide), hvalid]
    rfl

theorem not_no_stale_wakeup_timer :
    ¬ ∀ cache es r, Trace Relay.Step (.init cache) es r → r.NoStale := by
  intro hall
  have hforward : Trace Relay.Step (.init Cache.init) _ _ := .single Relay.first_step
  -- the timer fires twice before the query wakes up
  have hfirst : Relay.first.queries[0]? = some (.forwarded 1) := rfl
  have htimer := (hforward.step (.timer hfirst rfl)).step (.timer hfirst rfl)
  have hwake := htimer.step (.wake hfirst rfl rfl)
  exact absurd (hall _ _ _ hwake 1 (by decide)) (by decide)

end Adrift
