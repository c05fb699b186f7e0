import Adrift.Protocol.Learned

/-!
# The age of cached records

An update keeps a node for ten seconds past its lifetime, and for ever when its time to live is
zero. The CNAME list that an A query reads is not updated at all.

## Main definitions

* `Fresh log now cname list`: no record of the log is in the reply past its lifetime
* `Cache.LifetimesFit c₀ c now question`: the condition on the cache under which replies are fresh

## Main results

* `cachedReply_fresh`: a cached reply is fresh exactly when the lifetimes fit
-/

namespace Adrift

open Outcome

variable {S : Set ℕ} {c₀ c c' : Cache} {log : List Logged} {now : ℤ} {header hd : DnsHeader}
  {question : DnsQuestion} {cname list : List (ℕ × ListNode)} {datagram : List UInt8}

/-- **A fresh reply**: a record learned from a response is only in it up to its time to live, and
up to 180 seconds, after the response. -/
def Fresh (log : List Logged) (now : ℤ) (cname list : List (ℕ × ListNode)) : Prop :=
  ∀ e ∈ log, ∀ x ∈ e.records, x.1 ∈ (cname ++ list).map Prod.fst →
    now ≤ e.now + min 180 x.2.2.ttl.toNat

/-- A node learned since `c₀`, with its record. -/
def Cache.LearnedNode (c₀ c : Cache) (i : ℕ) (n : ListNode) : Prop :=
  c₀.heap.nextNode ≤ i ∧ c.heap.info i = some n ∧ n.data.isSome

/-- **The lifetimes fit**: an A query finds no learned record past its lifetime in the CNAME list,
and none in the list of the queried type that has no lifetime and was recorded before, or is past
its lifetime by up to ten seconds. -/
def Cache.LifetimesFit (c₀ c : Cache) (now : ℤ) (question : DnsQuestion) : Prop :=
  (∀ cids, c.CnameIds question cids → ∀ i ∈ cids, ∀ n, c₀.LearnedNode c i n →
    now ≤ n.recordTime + n.ttl) ∧
  ∀ t l ids, cacheTypeOf question.qtype = some t → c.Has t question.qname l → c.heap.Chain l ids →
    ∀ i ∈ ids, ∀ n, c₀.LearnedNode c i n → (n.ttl = 0 → now ≤ n.recordTime) ∧
      (n.ttl ≠ 0 → now ≤ n.recordTime + n.ttl ∨ n.recordTime + n.ttl + 10 < now)

theorem minU32_toNat (a b : UInt32) : (minU32 a b).toNat = min a.toNat b.toNat := by
  rw [minU32]
  split_ifs with h
  · rw [min_eq_left (UInt32.le_iff_toNat_le.mp (UInt32.le_of_lt h))]
  · rw [min_eq_right (UInt32.le_iff_toNat_le.mp (UInt32.not_lt.mp h))]

theorem recordNode_lifetime (now : ℤ) (rrType : RrType) (rr : DnsResourceRecord) :
    (recordNode now rrType rr).recordTime + (recordNode now rrType rr).ttl =
      now + min 180 rr.ttl.toNat := by
  simp only [recordNode, ListNode.ofInfo, minU32_toNat]
  rfl

/-- The learned nodes of a log are those of its records. -/
theorem LogInv.learnedNode_iff (hL : LogInv c₀ log c) {i : ℕ} {n : ListNode} :
    c₀.LearnedNode c i n ↔ c.heap.info i = some n ∧
      ∃ e ∈ log, ∃ x ∈ e.records, x.1 = i ∧ n = recordNode e.now x.2.1 x.2.2 := by
  constructor
  · rintro ⟨hi, hn, hd⟩
    refine ⟨hn, ?_⟩
    rcases hL.origin hn hd with ⟨hlt, -⟩ | ⟨e, he, x, hx, rfl⟩
    · exact absurd hlt (not_lt.mpr hi)
    · exact ⟨e, he, x, hx, rfl, (hL.learned he hx).2.2 n hn⟩
  · rintro ⟨hn, e, he, x, hx, rfl, rfl⟩
    exact ⟨(hL.learned he hx).1, hn, rfl⟩

/-- A list only keeps what is not expired. -/
theorem expired_iff {n : ListNode} : n.expired now = true ↔
    n.ttl ≠ 0 ∧ n.recordTime + n.ttl + 10 < now := by
  rw [ListNode.expired, decide_eq_true_eq]
  refine and_congr Iff.rfl ?_
  omega

/-- **A cached reply is fresh exactly when the lifetimes fit**, in every state reached by
responses and lookups after the load. -/
theorem cachedReply_fresh {file : List UInt8} (hload : readHostsFile Cache.init file = .ok c₀)
    (hrun : c₀.Run log c)
    (hr : handleReadCache c now header question = .ok (c', .cached hd cname list datagram)) :
    Fresh log now cname list ↔ c₀.LifetimesFit c now question := by
  obtain ⟨S, hG₀⟩ := readHostsFile_good hload
  have hG := hrun.good hG₀
  have hL := (hrun.logInv hG₀.inv).2
  obtain ⟨t, l, ids, cids, hF⟩ := handleReadCache_cached hG hr
  constructor
  · intro hfresh
    -- what is in the reply is within its lifetime
    have hreply : ∀ i ∈ (cname ++ list).map Prod.fst, ∀ n, c₀.LearnedNode c i n →
        now ≤ n.recordTime + n.ttl := by
      intro i hi n hn
      obtain ⟨-, e, he, x, hx, rfl, rfl⟩ := hL.learnedNode_iff.mp hn
      rw [recordNode_lifetime]
      exact hfresh e he x hx hi
    refine ⟨fun cids' hcids i hi n hn => ?_, fun t' l' ids' ht hl hc i hi n hn => ?_⟩
    · obtain rfl := hcids.unique hG.inv.index hF.cnameIds
      exact hreply i (hF.mem_ids.mpr (.inl hi)) n hn
    · obtain ⟨rfl, rfl, rfl⟩ := hF.lookup.unique hG.inv.index ht hl hc
      have hexp : c.heap.expiredAt now i = n.expired now := by simp [Heap.expiredAt, hn.2.1]
      cases h : n.expired now with
      | true =>
        obtain ⟨httl, hpast⟩ := expired_iff.mp h
        exact ⟨fun h => absurd h httl, fun _ => .inr hpast⟩
      | false =>
        have hle := hreply i (hF.mem_ids.mpr (.inr ⟨hi, hexp.trans h⟩)) n hn
        exact ⟨fun h => by omega, fun _ => .inl hle⟩
  · rintro ⟨hcname, hlist⟩ e he x hx hi
    have hn : c₀.LearnedNode c x.1 (recordNode e.now x.2.1 x.2.2) := by
      obtain ⟨n, hn⟩ := Heap.exists_info (hF.live _ hi)
      obtain ⟨hge, -, hinfo⟩ := hL.learned he hx
      exact ⟨hge, hinfo n hn ▸ hn, rfl⟩
    rw [← recordNode_lifetime e.now x.2.1]
    rcases hF.mem_ids.mp hi with hi | ⟨hi, hexp⟩
    · exact hcname cids hF.cnameIds _ hi _ hn
    · obtain ⟨hzero, hpos⟩ := hlist t l ids hF.lookup.type hF.lookup.has hF.lookup.chain _ hi _ hn
      have hexp : ¬ (recordNode e.now x.2.1 x.2.2).expired now = true := by
        simpa [Heap.expiredAt, hn.2.1] using hexp
      by_cases httl : (recordNode e.now x.2.1 x.2.2).ttl = 0
      · rw [httl, Int.add_zero]
        exact hzero httl
      · exact (hpos httl).resolve_right fun hpast => hexp (expired_iff.mpr ⟨httl, hpast⟩)

theorem cachedReply_fresh_alias : ∃ c₀ log c c' hd cname list datagram,
    readHostsFile Cache.init [] = .ok c₀ ∧ c₀.Run log c ∧
      handleReadCache c 10 getDefaultHeader addressQuestion =
        .ok (c', .cached hd cname list datagram) ∧
      (Fresh log 10 cname list ↔ c₀.LifetimesFit c 10 addressQuestion) := by
  obtain ⟨c, c', hd, cname, list, datagram, hresp, hread, -⟩ := aliasReply
  have hload : readHostsFile Cache.init [] = .ok Cache.init := rfl
  have hrun : Cache.init.Run _ c := .response .start hresp
  exact ⟨_, _, c, c', hd, cname, list, datagram, hload, hrun, hread,
    cachedReply_fresh hload hrun hread⟩

theorem not_fresh_alias : ¬ ∀ file c₀ clock log c now header question c' hd cname list datagram,
    readHostsFile Cache.init file = .ok c₀ → c₀.ClockedRun clock log c → clock ≤ now →
      handleReadCache c now header question = .ok (c', .cached hd cname list datagram) →
        Fresh log now cname list := by
  intro hall
  have h := hall [] _ _ _ _ 65 getDefaultHeader addressQuestion _ _ _ _ _ rfl
    (.response (r := aliasResponse) (.start 0) (le_refl (0 : ℤ)) rfl) (by decide) rfl
  exact absurd (h _ (List.mem_singleton_self _) (2, .answer, addressRecord) (by decide) (by decide))
    (by decide)

end Adrift
