import Adrift.Protocol.Independence
import Adrift.Protocol.OwnLists
import Adrift.Protocol.Relay
import Adrift.Protocol.Sizes

/-!
# Local overrides

The addresses of a hosts file stand in front of the IPv4 list of their domain, and never expire. A
reply to an A query is counted over this list, and written from the CNAME list first: so the
counted answers are the addresses of the file exactly when the learned answers in the IPv4 list
are as many as the records of the CNAME list, whatever was learned.

## Main definitions

* `hostsAddrs file d`: the addresses of `d` in a hosts file
* `RepliesWith s now client datagram header question addrs`: a query is answered by a reply that
  fits into the send buffer, and the A records of its answer section have the addresses `addrs`
* `Cache.Balanced c now d addrs`: the condition on the cache under which they do
* `Spares d r`: the condition on the responses under which the cache stays balanced

## Main results

* `CachedFrom.written`: what an A query is answered with
* `handleReadCache_addresses_iff`: the addresses of the reply are those of the file exactly when the
  cache is balanced
* `local_override_iff`: in every state that the server reaches, the query is so answered exactly
  when the cache is balanced and the lists of the question fit into the send buffer
-/

namespace Adrift

open Outcome

/-! ## Hosts entries -/

/-- The addresses of `d` in a hosts file. -/
def hostsAddrs (file : List UInt8) (d : CString) : List InAddr :=
  ((hostsEntries file).filter (·.2 = d)).map Prod.fst

/-- A lookup finds the entries of `d`: the nodes of the addresses `addrs`, in order. -/
def Cache.FindsEntries (c : Cache) (d : CString) (addrs : List InAddr) : Prop :=
  ∃ l nodes, cacheFind c .ipv4 d = .ok (some l) ∧ listNodes c.heap l = .ok nodes ∧
    (nodes.map (·.2.unlinked)).filter (·.data.isSome) = addrs.map (hostsNode · d)

/-- The node is of a record that is cached under the type `t`. -/
def OfType (t : CacheType) (n : ListNode) : Prop :=
  ∃ rr, n.data = some rr ∧ cacheTypeOf rr.type = some t

variable {file : List UInt8} {S : Set ℕ} {c₀ c c' : Cache} {d : CString} {addrs : List InAddr}
  {ns cs : List ListNode} {now : ℤ} {header : DnsHeader} {question : DnsQuestion}

theorem zeroAddr_notMem (hz : zeroAddr ∉ hostsAddrs file d) :
    (zeroAddr, d) ∉ hostsEntries file := fun h =>
  hz (List.mem_map_of_mem (f := Prod.fst) (List.mem_filter.mpr ⟨h, by simp⟩))

/-- The addresses of the hosts file never expire. -/
theorem hostsNode_ttl : ∀ n ∈ addrs.map (hostsNode · d), n.ttl = 0 := by
  intro n hn
  obtain ⟨addr, -, rfl⟩ := List.mem_map.mp hn
  rfl

theorem hostsNode_isZero_iff (addr : InAddr) :
    (hostsNode addr d).isZero = true ↔ addr = zeroAddr := by
  obtain ⟨a, b, c, e⟩ := addr
  simp [ListNode.isZero, hostsNode, ListNode.ofInfo, hostsRecord, InAddr.octets, zeroAddr]

/-- The records of a list are those of its nodes behind the head. -/
theorem Heap.Inv.infosAt_data {h : Heap} (hI : h.Inv S) {l s : ℕ} {ids : List ℕ}
    (hc : h.Chain l (s :: ids)) :
    (h.infosAt (s :: ids)).filter (·.data.isSome) = h.infosAt ids := by
  obtain ⟨m, hm, hd⟩ := hI.head_info hc
  rw [Heap.infosAt, List.filterMap_cons_some hm, List.filter_cons_of_neg (by simp [hd])]
  apply List.filter_eq_self.mpr
  intro n hn
  obtain ⟨i, hi, hin⟩ := List.mem_filterMap.mp hn
  obtain ⟨n', hn', rfl⟩ := Heap.info_eq_some.mp hin
  have hd' : n'.data.isSome = true := hI.data_of_mem hc hi hn'
  exact hd'

/-- **What the load leaves for a domain** without the zero address. -/
theorem Cache.FindsEntries.own (hload : readHostsFile Cache.init file = .ok c)
    (hz : (zeroAddr, d) ∉ hostsEntries file) (hf : c.FindsEntries d addrs) :
    invalidKey d = false ∧ KeySafe d ∧ c.Own .ipv4 d (addrs.map (hostsNode · d)) ∧
      c.Own .cname d [] := by
  obtain ⟨S, cls, hL⟩ := (readHostsFile_loaded hload).load
  obtain ⟨l, nodes, hfind, hnodes, hentries⟩ := hf
  obtain ⟨hl, hk⟩ := cacheFind_eq_some hL.inv.index hfind
  have hP : Plain c d := by
    have := (readHostsFile_loaded hload).domain d hl.1
    rwa [if_neg hz] at this
  obtain ⟨ids, hc, rfl⟩ := Heap.listNodes_eq_ok.mp hnodes
  obtain ⟨s, ids', hc'⟩ := hL.inv.chain hl
  obtain rfl := hc.unique hc'
  rw [Heap.nodesAt_unlinked, hL.inv.heap.infosAt_data hc] at hentries
  have hno : ∀ l, ¬ c.Has .cname d l := fun l h => absurd (hP.absent h) (by decide)
  exact ⟨hl.1, hk, ⟨.inr ⟨l, s, ids', hl, hc, hentries.symm⟩, hP.tail⟩, .inl ⟨hno, rfl⟩,
    fun h => absurd h (hno _)⟩

/-! ## Replies -/

/-- The addresses of the A records in the answer section of a reply with the header `hd`: the
section has as many records as the header counts. -/
def answerAddresses (hd : DnsHeader) (nodes : List ListNode) : List (List UInt8) :=
  (((nodes.filterMap (·.data)).take hd.ancount.toNat).filter (·.type = 1)).map (·.rdata)

/-- **The cache is balanced** for `d`: no unexpired record in the IPv4 list has the zero address,
and its unexpired answers are as many as the addresses and the records of the CNAME list. -/
def Cache.Balanced (c : Cache) (now : ℤ) (d : CString) (addrs : List InAddr) : Prop :=
  ∀ ns cs, c.Records .ipv4 d ns → c.Records .cname d cs →
    (∀ n ∈ ns.filter (!·.expired now), ¬ n.isZero) ∧
      sectionCount .answer (ns.filter (!·.expired now)) % 2 ^ 16 = addrs.length + cs.length

/-- The records that a lookup leaves are the unexpired ones. -/
theorem Lookup.records {t : CacheType} {l : ℕ} {ids : List ℕ} (hI : c.Inv S)
    (hL : Lookup S c now question t l ids c') (hns : c.Records t question.qname ns) :
    (c.heap.infosAt (ids.filter (!c.heap.expiredAt now ·))).filter (·.data.isSome) =
      ns.filter (!·.expired now) := by
  rcases hns with ⟨hno, -⟩ | ⟨l', s, ids', hl', hc', rfl⟩
  · exact absurd hL.has (hno l)
  · obtain rfl := hI.index.has_unique hl' hL.has
    obtain rfl := hL.chain.unique hc'
    rw [Heap.infosAt_filter, List.filter_comm, hI.heap.infosAt_data hc']

theorem cacheTypeOf_address (hA : question.qtype = 1) : cacheTypeOf question.qtype = some .ipv4 :=
  if_pos hA

/-- **What an A query is answered with**: the records of the CNAME list, and the unexpired ones of
the IPv4 list, which the header counts. -/
theorem CachedFrom.written {hd : DnsHeader} {cname list : List (ℕ × ListNode)}
    {datagram : List UInt8} {t : CacheType} {l : ℕ} {ids cids : List ℕ} (hI : c.Inv S)
    (hF : CachedFrom S c now header question hd cname list datagram t l ids cids c')
    (hA : question.qtype = 1) (hns : c.Records .ipv4 question.qname ns)
    (hcs : c.Records .cname question.qname cs) :
    writtenNodes cname list = cs ++ ns.filter (!·.expired now) ∧
      hd.ancount = .ofNat (sectionCount .answer (ns.filter (!·.expired now))) ∧
      ∀ n ∈ ns.filter (!·.expired now), ¬ n.isZero := by
  obtain rfl := Option.some.inj ((cacheTypeOf_address hA).symm.trans hF.lookup.type)
  have hlist := hF.lookup.records hI hns
  -- the CNAME list is written as it is, expired records and all
  have hcname : (c.heap.infosAt cids).filter (·.data.isSome) = cs := by
    have hcids := hF.cnameIds
    rw [Cache.CnameIds, if_pos hA] at hcids
    rcases hcs with ⟨hno, rfl⟩ | ⟨l', s, ids', hl', hc', rfl⟩
    · rcases hcids with ⟨l', hl', -⟩ | ⟨-, rfl⟩
      · exact absurd hl' (hno l')
      · rfl
    · rcases hcids with ⟨l'', hl'', hc''⟩ | ⟨hno, -⟩
      · obtain rfl := hI.index.has_unique hl' hl''
        obtain rfl := hc''.unique hc'
        exact hI.heap.infosAt_data hc'
      · exact absurd hl' (hno l')
  refine ⟨?_, ?_, fun n hn => ?_⟩
  · rw [writtenNodes, List.map_append, List.filter_append, hF.cnameInfos, hF.listInfos, hcname,
      hlist]
  · rw [hF.counts, ← foldl_countNode_filter_data, hlist, foldl_countNode]
    exact UInt16.zero_add _
  · rw [← hlist] at hn
    exact hF.notZero n (List.mem_filter.mp hn).1

/-- The first `n` elements of a list are its front exactly when `n` is the length of the front. -/
theorem take_eq_front_iff {α : Type} {xs ys : List α} {n : ℕ} (hn : n ≤ (xs ++ ys).length) :
    (xs ++ ys).take n = xs ↔ n = xs.length := by
  constructor
  · intro h
    rw [← h, List.length_take, Nat.min_eq_left hn]
  · rintro rfl
    exact List.take_left' rfl

theorem OfType.isSome {t : CacheType} {n : ListNode} (h : OfType t n) : n.data.isSome := by
  obtain ⟨rr, hrr, -⟩ := h
  rw [hrr, Option.isSome_some]

/-- Nodes with records have as many. -/
theorem length_filterMap_data (hns : ∀ n ∈ ns, n.data.isSome) :
    (ns.filterMap (·.data)).length = ns.length := by
  rw [List.length_filterMap_eq_countP, List.countP_eq_length]
  exact hns

theorem type_of_mem {t : CacheType} {type : UInt16} (htype : cacheTypeOf type = some t)
    (hns : ∀ n ∈ ns, OfType t n) : ∀ rr ∈ ns.filterMap (·.data), rr.type = type := by
  intro rr hrr
  obtain ⟨n, hn, hnr⟩ := List.mem_filterMap.mp hrr
  obtain ⟨rr', hrr', ht⟩ := hns n hn
  obtain rfl := Option.some.inj (hnr.symm.trans hrr')
  exact cacheTypeOf_inj ht htype

theorem hostsNode_data (addrs : List InAddr) (d : CString) :
    (addrs.map (hostsNode · d)).filterMap (·.data) = addrs.map (hostsRecord · d) := by
  rw [List.filterMap_map]
  exact congrFun List.filterMap_eq_map addrs

/-- **The counted addresses** of CNAME records and of A records, `addrs` in front of the latter,
are `addrs` exactly when the header counts these and the CNAME records. -/
theorem answerAddresses_iff {hd : DnsHeader} (hcs : ∀ n ∈ cs, OfType .cname n)
    {learned : List ListNode} (hns : ∀ n ∈ addrs.map (hostsNode · d) ++ learned, OfType .ipv4 n)
    (hne : addrs ≠ []) (hcount : hd.ancount.toNat ≤ addrs.length + learned.length) :
    answerAddresses hd (cs ++ (addrs.map (hostsNode · d) ++ learned)) = addrs.map (·.octets) ↔
      hd.ancount.toNat = addrs.length + cs.length := by
  have hlen : (cs.filterMap (·.data)).length = cs.length :=
    length_filterMap_data fun n hn => (hcs n hn).isSome
  have hlearned : (learned.filterMap (·.data)).length = learned.length :=
    length_filterMap_data fun n hn => (hns n (List.mem_append_right _ hn)).isSome
  have hcname : ∀ rr ∈ cs.filterMap (·.data), rr.type = 5 := type_of_mem rfl hcs
  have hA : ∀ rr ∈ (addrs.map (hostsNode · d) ++ learned).filterMap (·.data), rr.type = 1 :=
    type_of_mem rfl hns
  have hfront : ((addrs.map (hostsNode · d) ++ learned).filterMap (·.data)).map (·.rdata) =
      addrs.map (·.octets) ++ (learned.filterMap (·.data)).map (·.rdata) := by
    rw [List.filterMap_append, List.map_append, hostsNode_data, List.map_map]
    rfl
  -- the CNAME records are counted first, and dropped for their type
  rw [answerAddresses, List.filterMap_append, List.take_append, List.filter_append,
    List.filter_eq_nil_iff.mpr fun rr hrr => ?_, List.nil_append,
    List.filter_eq_self.mpr fun rr hrr => ?_, List.map_take, hfront, hlen, take_eq_front_iff]
  · have := List.length_pos_iff.mpr hne
    rw [List.length_map]
    omega
  · simp only [List.length_append, List.length_map, hlearned]
    omega
  · simpa using hA rr (List.mem_of_mem_take hrr)
  · simp [hcname rr (List.mem_of_mem_take hrr)]

/-- What was learned for `d`, and how it stands behind the addresses of the hosts file. -/
structure Overriding (c : Cache) (d : CString) (addrs : List InAddr) (learned cs : List ListNode) :
    Prop where
  ipv4 : c.Records .ipv4 d (addrs.map (hostsNode · d) ++ learned)
  cname : c.Records .cname d cs
  learned_ofType : ∀ n ∈ learned, OfType .ipv4 n
  cname_ofType : ∀ n ∈ cs, OfType .cname n

namespace Overriding

variable {learned : List ListNode}

theorem ofType (h : Overriding c d addrs learned cs) (now : ℤ) :
    ∀ n ∈ addrs.map (hostsNode · d) ++ learned.filter (!·.expired now), OfType .ipv4 n := by
  intro n hn
  rcases List.mem_append.mp hn with hn | hn
  · obtain ⟨addr, -, rfl⟩ := List.mem_map.mp hn
    exact ⟨_, rfl, rfl⟩
  · exact h.learned_ofType n (List.mem_filter.mp hn).1

theorem filter_expired (now : ℤ) : (addrs.map (hostsNode · d) ++ learned).filter (!·.expired now) =
    addrs.map (hostsNode · d) ++ learned.filter (!·.expired now) := by
  rw [List.filter_append, List.filter_eq_self.mpr fun n hn => ?_]
  simp [ListNode.expired, hostsNode_ttl n hn]

theorem balanced_iff (h : Overriding c d addrs learned cs) (hI : c.IndexInv) :
    c.Balanced now d addrs ↔
      (∀ n ∈ addrs.map (hostsNode · d) ++ learned.filter (!·.expired now), ¬ n.isZero) ∧
        sectionCount .answer (addrs.map (hostsNode · d) ++ learned.filter (!·.expired now)) %
          2 ^ 16 = addrs.length + cs.length := by
  rw [← filter_expired]
  constructor
  · exact fun hb => hb _ _ h.ipv4 h.cname
  · intro hb ns cs' hns hcs
    obtain rfl := hns.unique hI h.ipv4
    obtain rfl := hcs.unique hI h.cname
    exact hb

end Overriding

/-- **The addresses of the reply** to an A query are those of the hosts file exactly when the
cache is balanced. -/
theorem handleReadCache_addresses_iff {learned : List ListNode} (hG : c.Good S)
    (h : Overriding c question.qname addrs learned cs) (hne : addrs ≠ [])
    (hk : KeySafe question.qname) (hA : question.qtype = 1) :
    (∃ c' hd cname list datagram,
      handleReadCache c now header question = .ok (c', .cached hd cname list datagram) ∧
        answerAddresses hd (writtenNodes cname list) = addrs.map (·.octets)) ↔
      c.Balanced now question.qname addrs := by
  have hcount : ∀ ns : List ListNode, sectionCount .answer ns ≤ ns.length := fun ns =>
    List.countP_le_length
  -- the addresses of a cached reply
  have hcached : ∀ {c' hd cname list datagram},
      handleReadCache c now header question = .ok (c', .cached hd cname list datagram) →
        (∀ n ∈ addrs.map (hostsNode · question.qname) ++ learned.filter (!·.expired now),
          ¬ n.isZero) ∧
        (answerAddresses hd (writtenNodes cname list) = addrs.map (·.octets) ↔
          sectionCount .answer (addrs.map (hostsNode · question.qname) ++
            learned.filter (!·.expired now)) % 2 ^ 16 = addrs.length + cs.length) := by
    intro c' hd cname list datagram hr
    obtain ⟨t, l, ids, cids, hF⟩ := handleReadCache_cached hG hr
    obtain ⟨hwritten, hancount, hzero⟩ := hF.written hG.inv hA h.ipv4 h.cname
    rw [Overriding.filter_expired] at hwritten hancount hzero
    have htoNat : hd.ancount.toNat = _ := (congrArg UInt16.toNat hancount).trans UInt16.toNat_ofNat'
    refine ⟨hzero, ?_⟩
    rw [hwritten, answerAddresses_iff h.cname_ofType (h.ofType now) hne, htoNat]
    rw [htoNat]
    refine (Nat.mod_le _ _).trans ((hcount _).trans ?_)
    rw [List.length_append, List.length_map]
  rw [h.balanced_iff hG.inv.index]
  constructor
  · rintro ⟨c', hd, cname, list, datagram, hr, haddrs⟩
    obtain ⟨hzero, hiff⟩ := hcached hr
    exact ⟨hzero, hiff.mp haddrs⟩
  · rintro ⟨hzero, hsum⟩
    have hsafe : QuerySafe c question := fun t _ =>
      ⟨hk.lookupSafe c t, fun _ => hk.lookupSafe c .cname⟩
    obtain ⟨c', r, hr⟩ := handleReadCache_ok now hG.inv hsafe header
    -- the list is found, has records, and no zero address
    obtain ⟨l, hl⟩ : ∃ l, c.Has .ipv4 question.qname l := by
      rcases h.ipv4 with ⟨-, hnil⟩ | ⟨l, -, -, hl, -⟩
      · simp [hne] at hnil
      · exact ⟨l, hl⟩
    obtain ⟨ids, hL, hreply⟩ := handleReadCache_found hG.inv (cacheTypeOf_address hA)
      ((cacheFind_eq_some_iff hG.inv.index).mpr ⟨hl, hk⟩) hr
    have hlist := hL.records hG.inv h.ipv4
    rw [Overriding.filter_expired] at hlist
    rw [replyFrom, foldl_countNode_nodesAt, any_isZero_nodesAt, hL.infosAt] at hreply
    split_ifs at hreply with hz hrec
    · obtain ⟨n, hn, hnz⟩ := List.any_eq_true.mp hz.2
      refine absurd hnz (hzero n ?_)
      rw [← hlist]
      exact List.mem_filter.mpr ⟨hn, ListNode.isSome_of_isZero hnz⟩
    · obtain ⟨cname, -, hreply⟩ := bind_eq_ok.mp hreply
      cases hreply
      exact ⟨c', _, _, _, _, hr, (hcached hr).2.mpr hsum⟩
    · refine absurd ((hasRecords_foldl_countNode _ _).mpr ⟨.answer, ?_⟩) hrec
      rw [← sectionCount_filter_data, hlist, hsum]
      have := List.length_pos_iff.mpr hne
      omega

/-! ## Overrides -/

/-- **An A query for `d`**. -/
def AddressQuery (d : CString) (datagram : List UInt8) (header : DnsHeader)
    (question : DnsQuestion) : Prop :=
  parseStream datagram = .ok (header, .query question) ∧ question.qname = d ∧ question.qtype = 1

/-- **A query is answered with `addrs`**, and not forwarded: its reply is written from the cache
into the send buffer, where it fits, and the A records of the answer section have these addresses,
in order. -/
def RepliesWith (s : Server) (now : ℤ) (client : SockAddr) (datagram : List UInt8)
    (header : DnsHeader) (question : DnsQuestion) (addrs : List InAddr) : Prop :=
  ∃ cache hd cname list reply,
    handleStream s now client datagram = .ok ({ s with cache }, [.reply client reply]) ∧
      handleReadCache s.cache now header question = .ok (cache, .cached hd cname list reply) ∧
      reply = dumpHeader hd ++ dumpQuestion question ++
        (writtenNodes cname list).flatMap (dumpNode now) ∧
      reply.length ≤ bufferLen ∧ answerAddresses hd (writtenNodes cname list) = addrs.map (·.octets)

/-- **A response spares `d`**: unless it is an error or asks for another name, it has no CNAME
record, no A record among its answers, and no A record with the zero address. -/
def Spares (d : CString) (r : Response) : Prop :=
  r.header.rcode = ReplyCode.noError.toBits → r.question.qname = d →
    ∀ rrType, ∀ rr ∈ r.records rrType,
      rr.type ≠ 5 ∧ (rr.type = 1 → rrType ≠ .answer ∧ rr.rdata ≠ zeroAddr.octets)

theorem repliesWith_iff (hG : c.Good S) {s : Server} (hs : s.cache = c) {client : SockAddr}
    {datagram : List UInt8} (hparse : parseStream datagram = .ok (header, .query question)) :
    RepliesWith s now client datagram header question addrs ↔ (∃ c' hd cname list reply,
      handleReadCache c now header question = .ok (c', .cached hd cname list reply) ∧
        answerAddresses hd (writtenNodes cname list) = addrs.map (·.octets)) ∧
      c.ReplyFits now question := by
  subst hs
  constructor
  · rintro ⟨cache, hd, cname, list, reply, -, hread, -, hle, haddrs⟩
    exact ⟨⟨cache, hd, cname, list, reply, hread, haddrs⟩, replyFits_of_cached hG hread hle⟩
  · rintro ⟨⟨cache, hd, cname, list, reply, hread, haddrs⟩, hfits⟩
    obtain ⟨t, l, ids, cids, hF⟩ := handleReadCache_cached hG hread
    have hle := (handleReadCache_fits_iff hG hread).mp hfits reply (.inr ⟨hd, cname, list, rfl⟩)
    refine ⟨cache, hd, cname, list, reply, ?_, hread, hF.datagram, hle, haddrs⟩
    rw [handleStream_of_parse hparse, processStream, answerQuery, hread]
    rfl

variable {log : List Logged}

/-- **What a run leaves in front**: the addresses of the hosts file. -/
theorem Cache.Run.overriding (hrun : c₀.Run log c)
    (hload : readHostsFile Cache.init file = .ok c₀) (hz : (zeroAddr, d) ∉ hostsEntries file)
    (hf : c₀.FindsEntries d addrs) : ∃ learned cs, Overriding c d addrs learned cs := by
  obtain ⟨S, cls, hL⟩ := (readHostsFile_loaded hload).load
  obtain ⟨hv, -, hipv4, hcname⟩ := hf.own hload hz
  have hlearned : ∀ {t base}, (∀ n ∈ base, n.ttl = 0) → c₀.Own t d base →
      c.Learned t d base (OfType t) := fun hbase hO =>
    hrun.learned hL.inv hL.cls hz hv hbase ⟨[], by rwa [List.append_nil], by simp⟩
      fun _ _ _ _ _ rr _ ht => ⟨rr, rfl, ht⟩
  obtain ⟨learned, hO, hA⟩ := hlearned hostsNode_ttl hipv4
  obtain ⟨cs, hO', hC⟩ := hlearned (by simp) hcname
  exact ⟨learned, cs, hO.records, hO'.records, hA, hC⟩

/-- **Responses that spare `d`** keep the cache balanced. -/
theorem Cache.Run.balanced (hrun : c₀.Run log c)
    (hload : readHostsFile Cache.init file = .ok c₀) (hz : zeroAddr ∉ addrs)
    (hz' : (zeroAddr, d) ∉ hostsEntries file) (hf : c₀.FindsEntries d addrs)
    (hlen : addrs.length < 2 ^ 16) (hspare : ∀ e ∈ log, Spares d e.response) :
    c.Balanced now d addrs := by
  obtain ⟨S, cls, hL⟩ := (readHostsFile_loaded hload).load
  obtain ⟨hv, -, hipv4, hcname⟩ := hf.own hload hz'
  have hI := hrun.inv hL.inv
  obtain ⟨learned, hO, hlearned⟩ : c.Learned .ipv4 d (addrs.map (hostsNode · d))
      fun n => n.type ≠ some .answer ∧ ¬ n.isZero := by
    refine hrun.learned hL.inv hL.cls hz' hv hostsNode_ttl
      ⟨[], by rwa [List.append_nil], by simp⟩ fun e he hcode hq rrType rr hrr ht => ?_
    obtain ⟨-, hA⟩ := hspare e he hcode hq rrType rr hrr
    obtain ⟨hanswer, hzero⟩ := hA (cacheTypeOf_inj ht rfl)
    refine ⟨fun h => hanswer (Option.some.inj h), fun h => hzero ?_⟩
    simp only [ListNode.isZero, recordNode, ListNode.ofInfo, decide_eq_true_eq] at h
    exact h.2
  obtain ⟨cs, hO', hcs⟩ : c.Learned .cname d [] fun _ => False := by
    refine hrun.learned hL.inv hL.cls hz' hv (by simp) ⟨[], by rwa [List.append_nil], by simp⟩
      fun e he hcode hq rrType rr hrr ht => ?_
    exact (hspare e he hcode hq rrType rr hrr).1 (cacheTypeOf_inj ht rfl)
  -- so nothing was learned that an answer is displaced by
  obtain rfl : cs = [] := List.eq_nil_iff_forall_not_mem.mpr fun n hn => hcs n hn
  intro ns cs hns hcs'
  obtain rfl := hns.unique hI.index hO.records
  obtain rfl := hcs'.unique hI.index hO'.records
  rw [Overriding.filter_expired]
  constructor
  · intro n hn
    rcases List.mem_append.mp hn with hn | hn
    · obtain ⟨addr, haddr, rfl⟩ := List.mem_map.mp hn
      rw [hostsNode_isZero_iff]
      rintro rfl
      exact hz haddr
    · exact (hlearned n (List.mem_filter.mp hn).1).2
  · have hhosts : sectionCount .answer (addrs.map (hostsNode · d)) = addrs.length := by
      rw [sectionCount, List.countP_map]
      exact List.countP_eq_length.mpr fun _ _ => rfl
    have hothers : sectionCount .answer (learned.filter (!·.expired now)) = 0 := by
      rw [sectionCount, List.countP_eq_zero]
      intro n hn
      simpa using (hlearned n (List.mem_filter.mp hn).1).1
    rw [sectionCount, List.countP_append, ← sectionCount, ← sectionCount, hhosts, hothers]
    exact Nat.mod_eq_of_lt hlen

/-- The responses of a run of the server. -/
theorem Server.Run.responses {admits : Server → ℤ → List UInt8 → Prop} {P : Response → Prop}
    {s₀ s : Server} (hrun : s₀.Run admits s)
    (hP : ∀ {s now datagram header r}, admits s now datagram →
      parseStream datagram = .ok (header, .response r) → P r) :
    ∃ log, s₀.cache.Run log s.cache ∧ ∀ e ∈ log, P e.response := by
  induction hrun with
  | start => exact ⟨[], .start, by simp⟩
  | @stream s s' now client datagram sent _ hd hr ih =>
    obtain ⟨log, ih, hlog⟩ := ih
    rw [handleStream_eq] at hr
    obtain ⟨p, hparse, hr⟩ := bind_eq_ok.mp hr
    match p with
    | (header, .uncounted) =>
      cases hr
      exact ⟨log, ih, hlog⟩
    | (header, .query question) =>
      obtain ⟨r, hread⟩ := answerQuery_cache hr
      exact ⟨log, ih.lookup hread, hlog⟩
    | (header, .response r) =>
      obtain ⟨⟨s₁, sent₁, nodes⟩, hrelay, hr⟩ := bind_eq_ok.mp hr
      cases hr
      refine ⟨_, ih.response (relayResponse_cache hrelay), fun e he => ?_⟩
      rcases List.mem_append.mp he with he | he
      · exact hlog e he
      · obtain rfl := List.mem_singleton.mp he
        exact hP hd hparse
  | timer bufId _ ih => exact ih
  | wake _ hr ih => rwa [wakeSendQuery_cache hr]

/-- **The hosts file overrides** what is learned: in every state that the server reaches, an A
query is answered with the addresses of the file exactly when the cache is balanced and the lists
of the question fit into the send buffer. As long as all responses spare the domain, the cache is
balanced. -/
theorem local_override_iff (hload : readHostsFile Cache.init file = .ok c₀)
    (hne : hostsAddrs file d ≠ []) (hz : zeroAddr ∉ hostsAddrs file d)
    (hf : c₀.FindsEntries d (hostsAddrs file d)) {admits : Server → ℤ → List UInt8 → Prop}
    {s : Server} (hrun : (Server.init c₀).Run admits s) :
    (∀ {now client datagram header question}, AddressQuery d datagram header question →
      (RepliesWith s now client datagram header question (hostsAddrs file d) ↔
        s.cache.Balanced now d (hostsAddrs file d) ∧ s.cache.ReplyFits now question)) ∧
    ((hostsAddrs file d).length < 2 ^ 16 → (∀ {s now datagram header r}, admits s now datagram →
      parseStream datagram = .ok (header, .response r) → Spares d r) →
        ∀ now, s.cache.Balanced now d (hostsAddrs file d)) := by
  have hz' := zeroAddr_notMem hz
  refine ⟨fun {now client datagram header question} ⟨hparse, hq, hA⟩ => ?_,
    fun hlen hspare now => ?_⟩
  · obtain ⟨log, hrun⟩ := hrun.cache
    obtain ⟨S, hG₀⟩ := readHostsFile_good hload
    have hG := hrun.good hG₀
    obtain ⟨-, hk, -⟩ := hf.own hload hz'
    obtain ⟨learned, cs, h⟩ := hrun.overriding hload hz' hf
    subst hq
    rw [repliesWith_iff hG rfl hparse]
    exact and_congr_left' (handleReadCache_addresses_iff hG h hne hk hA)
  · obtain ⟨log, hrun, hlog⟩ := hrun.responses hspare
    exact hrun.balanced hload hz hz' hf hlen hlog

/-- A query for `a.b.`, of a one-octet type. -/
def localDatagram (qtype : UInt8) : List UInt8 :=
  [0, 5, 1, 0, 0, 1, 0, 0, 0, 0, 0, 0] ++ [1, 97, 1, 98, 0, 0, qtype, 0, 1]

/-- The response to an ANY query for `a.b.`, with an address that the hosts file lacks. -/
def anyResponse : List UInt8 :=
  [0, 1, 129, 128, 0, 1, 0, 1, 0, 0, 0, 0] ++ [1, 97, 1, 98, 0, 0, 255, 0, 1] ++
    [192, 12, 0, 1, 0, 1, 0, 0, 0, 60, 0, 4] ++ [10, 0, 0, 2]

theorem addressFile_findsEntries : ∃ c₀, readHostsFile Cache.init addressFile = .ok c₀ ∧
    c₀.FindsEntries localQuestion.qname (hostsAddrs addressFile localQuestion.qname) :=
  ⟨_, rfl, _, _, rfl, rfl, rfl⟩

theorem localDatagram_addressQuery :
    ∃ header, AddressQuery localQuestion.qname (localDatagram 1) header localQuestion := by
  obtain ⟨zs, hzs⟩ : ∃ zs, receiveBuffer (localDatagram 1) = localDatagram 1 ++ zs := ⟨_, rfl⟩
  obtain ⟨header, hparse⟩ : ∃ header,
      parseStream (localDatagram 1) = .ok (header, .query localQuestion) := by
    rw [parseStream, hzs]
    exact ⟨_, rfl⟩
  exact ⟨header, hparse, rfl, rfl⟩

/-- The reply to it fits right after the load. -/
theorem addressFile_replyFits (hload : readHostsFile Cache.init addressFile = .ok c) :
    c.ReplyFits 0 localQuestion := by
  -- it has a header, a question and a record
  obtain ⟨c₀, c', hd, cname, list, reply, hload₀, hread, hlen⟩ : ∃ c₀ c' hd cname list reply,
      readHostsFile Cache.init addressFile = .ok c₀ ∧
        handleReadCache c₀ 0 getDefaultHeader localQuestion =
          .ok (c', .cached hd cname list reply) ∧ reply.length = 40 :=
    ⟨_, _, _, _, _, _, rfl, rfl, rfl⟩
  obtain rfl := Except.ok.inj (hload₀.symm.trans hload)
  obtain ⟨S, hG⟩ := readHostsFile_good hload
  have hle : 40 ≤ bufferLen := by decide
  exact replyFits_of_cached hG hread (hlen.trans_le hle)

theorem local_override_addressFile : ∃ c₀ header,
    readHostsFile Cache.init addressFile = .ok c₀ ∧
      RepliesWith (.init c₀) 0 localClient (localDatagram 1) header localQuestion
        (hostsAddrs addressFile localQuestion.qname) := by
  obtain ⟨c₀, hload, hf⟩ := addressFile_findsEntries
  obtain ⟨header, hquery⟩ := localDatagram_addressQuery
  have hrun : (Server.init c₀).Run (fun _ _ _ => False) (.init c₀) := .start
  obtain ⟨hiff, hbalanced⟩ := local_override_iff hload (by decide) (by decide) hf hrun
  exact ⟨c₀, header, hload, (hiff hquery).mpr
    ⟨hbalanced (by decide) (fun h => h.elim) 0, addressFile_replyFits hload⟩⟩

/-- The responses among the datagrams are coherent, and come while their query waits. -/
def Brings (s : Server) (_now : ℤ) (datagram : List UInt8) : Prop :=
  ∀ header r, parseStream datagram = .ok (header, .response r) →
    Coherent PlainTarget r ∧ s.valid r.header.id.toNat ≠ 0

/-- **An ANY query brings an address** in addition to those of the hosts file. -/
theorem not_local_override_any : ¬ ∀ file c₀ d s now header question datagram c' hd cname list
    reply, readHostsFile Cache.init file = .ok c₀ → hostsAddrs file d ≠ [] →
      zeroAddr ∉ hostsAddrs file d → c₀.FindsEntries d (hostsAddrs file d) →
        (Server.init c₀).Run Brings s → AddressQuery d datagram header question →
          handleReadCache s.cache now header question = .ok (c', .cached hd cname list reply) →
            answerAddresses hd (writtenNodes cname list) = (hostsAddrs file d).map (·.octets) := by
  intro hall
  obtain ⟨header₁, question₁, header₂, r, c₀, s₁, sent₁, s₂, sent₂, hparse₁, hparse₂, hload, hr₁,
      hr₂, hvalid, hnames, hreply⟩ : ∃ header₁ question₁ header₂ r c₀ s₁ sent₁ s₂ sent₂,
      parseStream (localDatagram 255) = .ok (header₁, .query question₁) ∧
        parseStream anyResponse = .ok (header₂, .response r) ∧
        readHostsFile Cache.init addressFile = .ok c₀ ∧
        processStream (.init c₀) 0 localClient (header₁, .query question₁) = .ok (s₁, sent₁) ∧
        processStream s₁ 0 localClient (header₂, .response r) = .ok (s₂, sent₂) ∧
        s₁.valid r.header.id.toNat = 1 ∧ r.answer.map (·.name) = [r.question.qname] ∧
        ∀ header, ∃ c' hd cname list reply, handleReadCache s₂.cache 0 header localQuestion =
          .ok (c', .cached hd cname list reply) ∧
            answerAddresses hd (writtenNodes cname list) = [[10, 3, 9, 44], [10, 0, 0, 2]] := by
    obtain ⟨zs, hzs⟩ : ∃ zs, receiveBuffer (localDatagram 255) = localDatagram 255 ++ zs := ⟨_, rfl⟩
    obtain ⟨zs', hzs'⟩ : ∃ zs, receiveBuffer anyResponse = anyResponse ++ zs := ⟨_, rfl⟩
    simp only [parseStream, hzs, hzs']
    exact ⟨_, _, _, _, _, _, _, _, _, rfl, rfl, rfl, rfl, rfl, rfl, rfl,
      fun _ => ⟨_, _, _, _, _, rfl, rfl⟩⟩
  -- the only answer is owned by the name of the question
  have hcoherent : Coherent PlainTarget r := by
    intro _ rr hrr
    have hname : rr.name = r.question.qname := by
      simpa [hnames] using List.mem_map_of_mem (f := DnsResourceRecord.name) hrr
    rw [hname]
  have hrun₁ : (Server.init c₀).Run Brings s₁ := by
    refine .stream .start (fun header r h => ?_) ((handleStream_of_parse hparse₁).trans hr₁)
    cases hparse₁.symm.trans h
  have hrun₂ : (Server.init c₀).Run Brings s₂ := by
    refine .stream hrun₁ (fun header r h => ?_) ((handleStream_of_parse hparse₂).trans hr₂)
    cases hparse₂.symm.trans h
    exact ⟨hcoherent, by rw [hvalid]; decide⟩
  obtain ⟨c₁, hload₁, hf⟩ := addressFile_findsEntries
  obtain rfl := Except.ok.inj (hload.symm.trans hload₁)
  obtain ⟨header, hquery⟩ := localDatagram_addressQuery
  obtain ⟨c', hd, cname, list, reply, hread, haddrs⟩ := hreply header
  have hsame := hall _ _ _ _ _ _ _ _ _ _ _ _ _ hload (by decide) (by decide) hf hrun₂ hquery hread
  exact absurd (haddrs.symm.trans hsame) (by decide)

end Adrift
