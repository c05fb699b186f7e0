import Adrift.Protocol.Freshness

/-!
# The times to live of a cached reply

A cached reply carries the time to live a node has left as an unsigned number of 32 bits. A node
past its lifetime, which an update keeps for ten seconds and the CNAME list for good, has a
negative one, and so has every record of the hosts file, whose lifetime is zero.

## Main definitions

* `TtlServed c₀ now i n rr`: the time to live written for a node is the one the record has left
* `TtlsServed c₀ now cname list`: it is for all records written

## Main results

* `agedTtl_exact_iff`: the time left is written exactly when it is not negative
* `cachedReply_ttls`: a cached reply carries the times left exactly when the lifetimes fit, and the
  clock lets the records of the hosts file pass
-/

namespace Adrift

open Outcome

variable {S : Set ℕ} {c₀ c c' : Cache} {log : List Logged} {now : ℤ} {header hd : DnsHeader}
  {question : DnsQuestion} {cname list : List (ℕ × ListNode)} {datagram : List UInt8}

/-- The time to live written for a node. -/
def agedTtl (now : ℤ) (n : ListNode) (rr : DnsResourceRecord) : ℕ := (agedRecord now n rr).ttl.toNat

/-- **A time to live is served**: for a node learned since `c₀` the time it has left, and at most
that of its record and 180; for a node of the hosts file, at most 180. -/
def TtlServed (c₀ : Cache) (now : ℤ) (i : ℕ) (n : ListNode) (rr : DnsResourceRecord) : Prop :=
  if c₀.heap.nextNode ≤ i then
    (agedTtl now n rr : ℤ) = n.ttl - (now - n.recordTime) ∧ agedTtl now n rr ≤ min 180 rr.ttl.toNat
  else agedTtl now n rr ≤ 180

/-- The times to live of the records written from the nodes of a reply. -/
def TtlsServed (c₀ : Cache) (now : ℤ) (cname list : List (ℕ × ListNode)) : Prop :=
  ∀ x ∈ cname ++ list, ∀ rr, x.2.data = some rr → TtlServed c₀ now x.1 x.2 rr

/-- The clock lets a record without a lifetime, recorded at time zero, pass: zero minus the time
has at most 180 in its last 32 bits. -/
def HostsClock (now : ℤ) : Prop := -now % 4294967296 ≤ 180

/-- A record of the hosts file is on a list that a reply to the question is written from. -/
def Cache.HostsServed (c₀ c : Cache) (question : DnsQuestion) : Prop :=
  ∃ i n, i < c₀.heap.nextNode ∧ c.heap.info i = some n ∧ n.data.isSome ∧
    ((∃ cids, c.CnameIds question cids ∧ i ∈ cids) ∨
      ∃ t l ids, cacheTypeOf question.qtype = some t ∧ c.Has t question.qname l ∧
        c.heap.Chain l ids ∧ i ∈ ids)

theorem agedTtl_eq (now : ℤ) (n : ListNode) (rr : DnsResourceRecord) :
    (agedTtl now n rr : ℤ) = (n.ttl - (now - n.recordTime)) % 4294967296 := by
  have hlt := Int.emod_lt_of_pos (n.ttl - (now - n.recordTime)) (b := 4294967296) (by decide)
  have hnonneg := Int.emod_nonneg (n.ttl - (now - n.recordTime)) (b := 4294967296) (by decide)
  rw [agedTtl, agedRecord, UInt32.ofInt, UInt32.toNat_ofNat', Nat.mod_eq_of_lt (by omega)]
  omega

/-- **The time left is written exactly when it is not negative**, for a record learned before. -/
theorem agedTtl_exact_iff {now₀ : ℤ} (hle : now₀ ≤ now) (rrType : RrType)
    (rr : DnsResourceRecord) :
    ((agedTtl now (recordNode now₀ rrType rr) rr : ℤ) =
          (recordNode now₀ rrType rr).ttl - (now - (recordNode now₀ rrType rr).recordTime) ∧
        agedTtl now (recordNode now₀ rrType rr) rr ≤ min 180 rr.ttl.toNat) ↔
      now ≤ now₀ + min 180 rr.ttl.toNat := by
  have hnode := recordNode_lifetime now₀ rrType rr
  have htime : (recordNode now₀ rrType rr).recordTime = now₀ := rfl
  have haged := agedTtl_eq now (recordNode now₀ rrType rr) rr
  rw [htime] at hnode haged ⊢
  constructor
  · rintro ⟨hexact, -⟩
    omega
  · intro hnow
    rw [Int.emod_eq_of_lt (by omega) (by omega)] at haged
    exact ⟨haged, by omega⟩

/-! ## What a reply is written from -/

/-- The information of live nodes, in order, is that of each of them. -/
theorem info_of_infosAt {h : Heap} {xs : List (ℕ × ListNode)}
    (hinfos : xs.map (·.2.unlinked) = h.infosAt (xs.map Prod.fst))
    (hlive : ∀ i ∈ xs.map Prod.fst, (h.node i).isSome) :
    ∀ x ∈ xs, h.info x.1 = some x.2.unlinked := by
  induction xs with
  | nil => simp
  | cons x xs ih =>
    simp only [List.map_cons, List.forall_mem_cons] at hlive
    obtain ⟨n, hn⟩ := Heap.exists_info hlive.1
    simp only [Heap.infosAt, List.map_cons, List.filterMap_cons_some hn, List.cons.injEq]
      at hinfos
    rw [List.forall_mem_cons, hn, hinfos.1]
    exact ⟨rfl, ih hinfos.2 hlive.2⟩

/-- The nodes of a reply, as the cache before has them. -/
theorem CachedFrom.info_of_mem {t : CacheType} {l : ℕ} {ids cids : List ℕ}
    (hF : CachedFrom S c now header question hd cname list datagram t l ids cids c') :
    ∀ x ∈ cname ++ list, c.heap.info x.1 = some x.2.unlinked := by
  have hlive := hF.live
  rw [List.map_append, List.forall_mem_append] at hlive
  obtain ⟨hcname, hlist⟩ := hlive
  intro x hx
  rcases List.mem_append.mp hx with hx | hx
  · exact info_of_infosAt (hF.cnameFst ▸ hF.cnameInfos) hcname x hx
  · exact info_of_infosAt (hF.listFst ▸ hF.listInfos) hlist x hx

/-- The nodes a load leaves have neither a lifetime nor a time. -/
theorem readHostsFile_hostsNode {file : List UInt8}
    (hload : readHostsFile Cache.init file = .ok c) :
    ∀ i n, c.heap.info i = some n → n.ttl = 0 ∧ n.recordTime = 0 := by
  let P : Cache → Prop := fun c => c.IndexInv ∧
    ∀ i n, c.heap.info i = some n → n.ttl = 0 ∧ n.recordTime = 0
  have hinsert : ∀ {c c' : Cache} {t k p}, P c → cacheInsert c t k p = .ok c' → P c' := by
    intro c c' t k p hP hr
    refine ⟨cacheInsert_inv hP.1 hr, fun i n hn => ?_⟩
    rcases cacheInsert_inserted hP.1 hr with ⟨-, rfl⟩ | ⟨-, l, τ, hi⟩
    · exact hP.2 _ _ hn
    · obtain ⟨h₀, hpushed⟩ := hi.pushed
      rcases hpushed.info_cases hn with hn | ⟨-, -, rfl⟩
      · exact hP.2 _ _ hn
      · exact ⟨rfl, rfl⟩
  have halloc : ∀ {c : Cache} (addr : InAddr) (d : CString), P c →
      P (c.withHeap (c.heap.allocNode (hostsNode addr d))) := by
    intro c addr d hP
    refine ⟨hP.1.withHeap fun _ => rfl, fun i n hn => ?_⟩
    rw [Cache.withHeap_heap, Heap.allocNode_info] at hn
    by_cases hi : i = c.heap.nextNode
    · rw [hi, Function.update_self] at hn
      cases hn
      exact ⟨rfl, rfl⟩
    · rw [Function.update_of_ne hi] at hn
      exact hP.2 _ _ hn
  have hinit : P Cache.init := ⟨Cache.Inv.init.index, fun i n hn => by cases hn⟩
  rw [readHostsFile_eq] at hload
  refine (foldlM_invariant (P := P) (fun c e _ c' hP hr => ?_) hinit hload).2
  -- an address of zeros is inserted twice more
  obtain ⟨c₁, h₁, hrest⟩ := insertHostsEntry_eq_ok.mp hr
  have hP₁ := hinsert (halloc e.1 e.2 hP) h₁
  split_ifs at hrest
  · obtain ⟨c₂, h₂, h₃⟩ := hrest
    exact hinsert (hinsert hP₁ h₂) h₃
  · rw [hrest]
    exact hP₁

/-- The times to live of a reply are those of the nodes the cache had before. -/
theorem CachedFrom.ttlsServed_iff {t : CacheType} {l : ℕ} {ids cids : List ℕ}
    (hF : CachedFrom S c now header question hd cname list datagram t l ids cids c') :
    TtlsServed c₀ now cname list ↔ ∀ i ∈ (cname ++ list).map Prod.fst, ∀ n rr,
      c.heap.info i = some n → n.data = some rr → TtlServed c₀ now i n rr := by
  -- the time written depends on the information of a node alone
  have hunlinked : ∀ i (n : ListNode) rr,
      TtlServed c₀ now i n.unlinked rr ↔ TtlServed c₀ now i n rr := fun _ _ _ => Iff.rfl
  constructor
  · intro h i hi n rr hn hd
    obtain ⟨x, hx, rfl⟩ := List.mem_map.mp hi
    obtain rfl := Option.some.inj (hn.symm.trans (hF.info_of_mem x hx))
    exact (hunlinked _ _ _).mpr (h x hx rr hd)
  · intro h x hx rr hd
    exact (hunlinked _ _ _).mp (h x.1 (List.mem_map_of_mem hx) _ rr (hF.info_of_mem x hx) hd)

/-- The records of the hosts file stay as they were loaded. -/
theorem LogInv.hosts_node (hL : LogInv c₀ log c)
    (hhosts : ∀ i n, c₀.heap.info i = some n → n.ttl = 0 ∧ n.recordTime = 0) {i : ℕ}
    {n : ListNode} (hlt : i < c₀.heap.nextNode) (hn : c.heap.info i = some n)
    (hd : n.data.isSome) : n.ttl = 0 ∧ n.recordTime = 0 := by
  rcases hL.origin hn hd with ⟨-, hn₀⟩ | ⟨e, he, x, hx, rfl⟩
  · exact hhosts i n hn₀
  · exact absurd hlt (not_lt.mpr (hL.learned he hx).1)

/-- A record without lifetime and time passes with the clock. -/
theorem ttlServed_hosts_iff {i : ℕ} {n : ListNode} {rr : DnsResourceRecord}
    (hlt : i < c₀.heap.nextNode) (hn : n.ttl = 0 ∧ n.recordTime = 0) :
    TtlServed c₀ now i n rr ↔ HostsClock now := by
  have haged := agedTtl_eq now n rr
  rw [hn.1, hn.2, Int.sub_zero, Int.zero_sub] at haged
  rw [TtlServed, if_neg (not_le.mpr hlt), HostsClock, ← haged]
  omega

/-- **A cached reply carries the times left** exactly when the lifetimes fit and the clock lets
the records of the hosts file on its lists pass, in every state reached by responses and lookups
after the load, at every time from the last record on. -/
theorem cachedReply_ttls {file : List UInt8} (hload : readHostsFile Cache.init file = .ok c₀)
    (hrun : c₀.Run log c)
    (hnow : ∀ i n, c.heap.info i = some n → n.data.isSome → n.recordTime ≤ now)
    (hr : handleReadCache c now header question = .ok (c', .cached hd cname list datagram)) :
    TtlsServed c₀ now cname list ↔
      c₀.LifetimesFit c now question ∧ (c₀.HostsServed c question → HostsClock now) := by
  obtain ⟨S, hG₀⟩ := readHostsFile_good hload
  have hhosts := readHostsFile_hostsNode hload
  have hG := hrun.good hG₀
  have hL := (hrun.logInv hG₀.inv).2
  obtain ⟨t, l, ids, cids, hF⟩ := handleReadCache_cached hG hr
  rw [← cachedReply_fresh hload hrun hr, hF.ttlsServed_iff]
  constructor
  · intro hserved
    constructor
    · intro e he x hx hmem
      -- a learned record in the reply
      obtain ⟨n, hn⟩ := Heap.exists_info (hF.live _ hmem)
      obtain ⟨hge, -, hrecord⟩ := hL.learned he hx
      obtain rfl := hrecord n hn
      have hserved := hserved _ hmem _ _ hn rfl
      rw [TtlServed, if_pos hge] at hserved
      exact (agedTtl_exact_iff (hnow _ _ hn rfl) x.2.1 x.2.2).mp hserved
    · rintro ⟨i, n, hlt, hn, hd, hlists⟩
      obtain ⟨rr, hrr⟩ := Option.isSome_iff_exists.mp hd
      have hnode := hL.hosts_node hhosts hlt hn hd
      refine (ttlServed_hosts_iff hlt hnode).mp (hserved i (hF.mem_ids.mpr ?_) n rr hn hrr)
      rcases hlists with ⟨cids', hcids, hi⟩ | ⟨t', l', ids', ht, hl, hc, hi⟩
      · obtain rfl := hcids.unique hG.inv.index hF.cnameIds
        exact .inl hi
      · obtain ⟨rfl, rfl, rfl⟩ := hF.lookup.unique hG.inv.index ht hl hc
        -- without a lifetime it is not expired
        refine .inr ⟨hi, ?_⟩
        simp [Heap.expiredAt, hn, ListNode.expired, hnode.1]
  · rintro ⟨hfresh, hclock⟩ i hi n rr hn hrr
    by_cases hge : c₀.heap.nextNode ≤ i
    · obtain ⟨-, e, he, x, hx, rfl, rfl⟩ := hL.learnedNode_iff.mp ⟨hge, hn, by rw [hrr]; rfl⟩
      obtain rfl := Option.some.inj hrr
      rw [TtlServed, if_pos hge]
      exact (agedTtl_exact_iff (hnow _ _ hn rfl) x.2.1 x.2.2).mpr (hfresh e he x hx hi)
    · rw [not_le] at hge
      have hd : n.data.isSome := by rw [hrr]; rfl
      refine (ttlServed_hosts_iff hge (hL.hosts_node hhosts hge hn hd)).mpr
        (hclock ⟨i, n, hge, hn, hd, ?_⟩)
      rcases hF.mem_ids.mp hi with hi | ⟨hi, -⟩
      · exact .inl ⟨cids, hF.cnameIds, hi⟩
      · exact .inr ⟨t, l, ids, hF.lookup.type, hF.lookup.has, hF.lookup.chain, hi⟩

theorem cachedReply_ttls_alias : ∃ c₀ log c c' hd cname list datagram,
    readHostsFile Cache.init [] = .ok c₀ ∧ c₀.Run log c ∧
      handleReadCache c 10 getDefaultHeader addressQuestion =
        .ok (c', .cached hd cname list datagram) ∧
      (TtlsServed c₀ 10 cname list ↔ c₀.LifetimesFit c 10 addressQuestion ∧
        (c₀.HostsServed c addressQuestion → HostsClock 10)) := by
  obtain ⟨c, c', hd, cname, list, datagram, hresp, hread, -⟩ := aliasReply
  have hload : readHostsFile Cache.init [] = .ok Cache.init := rfl
  have hrun : Cache.init.Run _ c := .response .start hresp
  refine ⟨_, _, c, c', hd, cname, list, datagram, hload, hrun, hread,
    cachedReply_ttls hload hrun (fun i n hn hdata => ?_) hread⟩
  -- every record was learned at the time of the response
  obtain ⟨-, e, he, x, -, -, rfl⟩ :=
    (hrun.logInv Cache.Inv.init).2.learnedNode_iff.mp ⟨Nat.zero_le _, hn, hdata⟩
  obtain rfl := List.mem_singleton.mp he
  exact (by decide : (0 : ℤ) ≤ 10)

/-- A record with a minute to live is in the reply five seconds later, with a time to live of more
than a century. -/
theorem not_ttlsServed_alias :
    ¬ ∀ file c₀ clock log c now header question c' hd cname list datagram,
    readHostsFile Cache.init file = .ok c₀ → c₀.ClockedRun clock log c → clock ≤ now →
      handleReadCache c now header question = .ok (c', .cached hd cname list datagram) →
        TtlsServed c₀ now cname list := by
  intro hall
  have h := hall [] _ _ _ _ 65 getDefaultHeader addressQuestion _ _ _ _ _ rfl
    (.response (r := aliasResponse) (.start 0) (le_refl (0 : ℤ)) rfl) (by decide) rfl
  have hserved := h _ (List.mem_append_right _ (List.mem_cons_of_mem _ List.mem_cons_self))
    addressRecord rfl
  rw [TtlServed, if_pos (by decide)] at hserved
  exact absurd hserved.2 (by decide)

end Adrift
