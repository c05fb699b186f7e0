import Adrift.Protocol.CacheMap
import Adrift.Protocol.Sizes

/-!
# Blocked names

A domain beside the zero address has a zero node on its three lists, and the nodes in front of it
never expire and are the tail of no list. Inserts redirect tails and updates redirect around
expired nodes, so a loop over one of the lists always reaches the zero node.

## Main definitions

* `Blocks c d z front`: the lists of `d` reach the zero node `z` through `front`
* `QueryFor d datagram header question`: the datagram asks for `d`
* `Blacklists file d`: every query for `d` is answered by a name error, whatever the server
  received before

## Main results

* `Blocks.insert`, `Blocks.erase`: the lists keep reaching the zero node
* `blacklist_of_safe`: a listed domain is blocked in every run over datagrams that stay inside the
  objects of the program
-/

namespace Adrift

open Outcome

/-- **The lists of `d` reach the zero node `z`** through the nodes `front`. -/
structure Blocks (c : Cache) (d : CString) (z : ℕ) (front : CacheType → List ℕ) : Prop where
  zero : ∃ n, c.heap.info z = some n ∧ n.isZero ∧ n.type = some .answer ∧ n.ttl = 0
  list : ∀ t, ∃ l list, c.Has t d l ∧ c.heap.list l = some list ∧
    LinkPath c.heap.next list.head (front t) (some z)
  ttl : ∀ t, ∀ x ∈ front t, ∃ n, c.heap.info x = some n ∧ n.ttl = 0
  tail : ∀ {l list x}, c.heap.list l = some list → list.tail = some x → ∀ t, x ∉ front t

variable {c c' : Cache} {d : CString} {z p : ℕ} {front : CacheType → List ℕ} {S : Set ℕ}

/-- **The hosts file blocks** what it lists beside the zero address. -/
theorem Zeroed.blocks {es : List (InAddr × CString)} {cls : ℕ → Option CacheType × CString}
    (hZ : Zeroed c d) (hL : LoadInv es S cls c) :
    ∃ z front, Blocks c d z front := by
  obtain ⟨z, v, ⟨n, hn, hz, htype⟩, hv, hlists⟩ := hZ
  choose l list x hl hlist hreach hx hxz using hlists
  choose front hfront using hreach
  have hheads : ∀ t y, (list t).head = some y → (cls y).2 = d ∧ (c.heap.node y).isSome :=
    fun t => KeyFrame.head hL.inv hL.keys (hl t) (hlist t)
  -- the nodes in front are live and in the class of `d`
  have hmem : ∀ t, ∀ y ∈ front t, (cls y).2 = d ∧ (c.heap.node y).isSome := fun t =>
    (hfront t).forall_mem (fun y _ => hheads t y) fun _ _ _ _ hw hwy =>
      ⟨(hL.keys.next hwy).trans hw.1, hL.inv.heap.isSome_of_next hwy⟩
  refine ⟨z, front, ⟨n, hn, hz, htype, hL.ttl hn⟩, fun t => ⟨l t, list t, hl t, hlist t, hfront t⟩,
    fun t y hy => ?_, fun {l' list' y} hlist' hy t hyt => ?_⟩
  · obtain ⟨m, hm⟩ := Heap.exists_info (hmem t y hy).2
    exact ⟨m, hm, hL.ttl hm⟩
  · obtain ⟨t', k', h⟩ := hL.inv.index.indexed (l := l') (by rw [hlist', Option.isSome_some])
    obtain rfl := (hL.keys.tail h hlist' hy).symm.trans (hmem t y hyt).1
    obtain rfl := hL.inv.index.has_unique (hl t') h
    obtain rfl := Option.some.inj ((hlist t').symm.trans hlist')
    obtain rfl := Option.some.inj ((hx t').symm.trans hy)
    -- the tails of the three lists come after the zero node
    have hxv : x t' ∈ z :: v := by
      have := hxz t'
      split_ifs at this
      · obtain ⟨ys, hys⟩ := this
        rw [hys]
        simp
      · simp [this]
    have hd := (List.nodup_append.mp (LinkPath.append_iff.mpr ⟨_, hfront t, hv⟩).nodup).2.2
    exact hd _ hyt _ hxv rfl

namespace Blocks

theorem live (hB : Blocks c d z front) {t : CacheType} {x : ℕ} (hx : x ∈ front t) :
    (c.heap.node x).isSome := by
  obtain ⟨n, hn, -⟩ := hB.ttl t x hx
  exact Heap.isSome_of_info hn

/-- Allocating a record keeps the lists of `d`. -/
theorem alloc (hB : Blocks c d z front) {n : ListNode} (hn : n.next = none) :
    Blocks (c.withHeap (c.heap.allocNode n)) d z front := by
  have hinfo : ∀ {x m}, c.heap.info x = some m → (c.heap.allocNode n).info x = some m := by
    intro x m hm
    rw [Heap.allocNode_info, Function.update_of_ne (Heap.ne_nextNode_of_info hm), hm]
  refine ⟨hB.zero.imp fun m hm => ⟨hinfo hm.1, hm.2⟩, fun t => ?_,
    fun t x hx => (hB.ttl t x hx).imp fun m hm => ⟨hinfo hm.1, hm.2⟩, hB.tail⟩
  obtain ⟨l, list, hl, hlist, hp⟩ := hB.list t
  exact ⟨l, list, hl, hlist, by rwa [Cache.withHeap_heap, Heap.allocNode_next hn]⟩

/-- **An insert keeps the lists of `d`**: it redirects a tail, and the nodes in front are none. -/
theorem insert (hB : Blocks c d z front) (hI : c.IndexInv) {t : CacheType} {k : CString}
    (hp : ∀ t, p ∉ front t) (hr : cacheInsert c t k p = .ok c') : Blocks c' d z front := by
  rcases cacheInsert_inserted hI hr with ⟨-, rfl⟩ | ⟨-, l, τ, hi⟩
  · exact hB
  -- the tail that is linked on is not before the node of the zero address
  have hτ : ∀ t, τ ∉ front t := by
    rcases hi.tail_cases with ⟨list, -, hlist, hτ⟩ | rfl
    · exact hB.tail hlist hτ
    · exact fun t ht => (Heap.lt_of_isSome (hB.live ht)).ne rfl
  refine ⟨hB.zero.imp fun m hm => ⟨hi.info hm.1, hm.2⟩, fun t' => ?_,
    fun t' x hx => (hB.ttl t' x hx).imp fun m hm => ⟨hi.info hm.1, hm.2⟩,
    fun {l' list' x} hlist' hx => ?_⟩
  · obtain ⟨l', list, hl, hlist, hpath⟩ := hB.list t'
    -- so the way to that node is the same
    have hpath' : LinkPath c'.heap.next list.head (front t') (some z) := hpath.congr fun x hx => by
      rw [hi.next, Function.update_of_ne (ne_of_mem_of_not_mem hx (hτ t'))]
    by_cases he : (t', d) = (t, k)
    · obtain ⟨rfl, rfl⟩ := Prod.mk.inj he
      rcases hi.target with ⟨list₀, hl₀, hlist₀, -, hlist'⟩ | ⟨hno, -⟩
      · obtain rfl := hI.has_unique hl₀ hl
        obtain rfl := Option.some.inj (hlist₀.symm.trans hlist)
        exact ⟨_, _, hi.has_self, hlist', hpath'⟩
      · exact absurd hl (hno _)
    · exact ⟨l', list, (hi.has_other he).mpr hl, (hi.list (hi.ne hI hl he)).trans hlist, hpath'⟩
  · by_cases hl : l' = l
    · subst hl
      have htail : list'.tail = some p := by
        rcases hi.target with ⟨list, -, -, -, h⟩ | ⟨-, -, -, h⟩ <;>
          rw [← Option.some.inj (h.symm.trans hlist')]
      rw [← Option.some.inj (htail.symm.trans hx)]
      exact hp
    · exact hB.tail ((hi.list hl).symm.trans hlist') hx

/-- **An erasure keeps the lists of `d`**: the nodes in front and the zero node never expire. -/
theorem erase {h : Heap} {now : ℤ} {ids : List ℕ} {l w : ℕ} {n : ListNode}
    (hB : Blocks (c.withHeap h) d z front) (he : Erases S now ids h w p n) :
    Blocks (c.withHeap (erasedHeap h l w p n.next)) d z front := by
  have hkeep : ∀ {x m}, h.info x = some m → m.ttl = 0 →
      x ≠ p ∧ (erasedHeap h l w p n.next).info x = some m := by
    intro x m hm httl
    have hxp : x ≠ p := by
      rintro rfl
      rw [Heap.info_of_node he.node] at hm
      rw [← Option.some.inj hm] at httl
      exact he.ttl httl
    exact ⟨hxp, by rw [erasedHeap_info, Function.update_of_ne hxp, hm]⟩
  have hzp : z ≠ p := by
    obtain ⟨m, hm, -, -, httl⟩ := hB.zero
    exact (hkeep hm httl).1
  have hfp : ∀ t, ∀ x ∈ front t, x ≠ p := fun t x hx => by
    obtain ⟨m, hm, httl⟩ := hB.ttl t x hx
    exact (hkeep hm httl).1
  -- a node in front leads to another one, or to the zero node
  have hw : ∀ t, w ∉ front t := by
    intro t hwt
    obtain ⟨l', list, -, -, hp⟩ := hB.list t
    obtain ⟨as, bs, hab⟩ := List.append_of_mem hwt
    rw [hab] at hp
    have hrest := (LinkPath.append_cons_iff.mp hp).2
    rw [Cache.withHeap_heap, he.next] at hrest
    rcases bs with _ | ⟨b, bs⟩
    · exact hzp (Option.some.inj hrest).symm
    · refine hfp t b (by rw [hab]; simp) (Option.some.inj hrest.1).symm
  refine ⟨?_, fun t => ?_, fun t x hx => ?_, fun {l' list' x} hlist' hx t hxt => ?_⟩
  · obtain ⟨m, hm, hz, htype, httl⟩ := hB.zero
    exact ⟨m, (hkeep hm httl).2, hz, htype, httl⟩
  · obtain ⟨l', list, hl, hlist, hp⟩ := hB.list t
    obtain ⟨list', hlist', hh⟩ := he.unlinks.list_of_list (l := l) hlist
    refine ⟨l', list', hl, hlist', hh ▸ hp.congr fun x hx => ?_⟩
    rw [Cache.withHeap_heap, erasedHeap_next he.unlinks.live, Function.update_of_ne (hfp t x hx),
      Function.update_of_ne (ne_of_mem_of_not_mem hx (hw t))]
    rfl
  · obtain ⟨m, hm, httl⟩ := hB.ttl t x hx
    exact ⟨m, (hkeep hm httl).2, httl⟩
  · obtain ⟨list, hlist, -, ht | ⟨-, -, ht⟩⟩ := he.unlinks.list_eq_some hlist'
    · exact hB.tail hlist (ht ▸ hx) t hxt
    · exact hw t (Option.some.inj (ht.symm.trans hx) ▸ hxt)

end Blocks

/-- **A run keeps a domain blocked**. -/
theorem Cache.Run.blocks {c₀ : Cache} {log : List Logged} (hrun : c₀.Run log c) (hI : c₀.Inv S)
    (h₀ : ∃ z front, Blocks c₀ d z front) : c.Inv S ∧ ∃ z front, Blocks c d z front := by
  refine hrun.invariant (P := fun c => c.Inv S ∧ ∃ z front, Blocks c d z front) ⟨hI, h₀⟩ ?_ ?_
  · rintro now qname rrType rr c c' p ⟨hI, z, front, hB⟩ hr
    refine ⟨cacheRecord_inv hI hr, z, front, ?_⟩
    have hB₁ := hB.alloc (n := recordNode now rrType rr) rfl
    obtain ⟨rfl, ⟨-, rfl⟩ | ⟨t, -, hins⟩⟩ := cacheRecord_cases hr
    · exact hB₁
    · have hI₁ := hI.alloc (n := recordNode now rrType rr) rfl rfl
      refine hB₁.insert hI₁.index (fun t ht => ?_) hins
      exact (Heap.lt_of_isSome (hB.live ht)).ne rfl
  · rintro c t k l now heap size ⟨hI, z, front, hB⟩ hf hup
    obtain ⟨hl, -⟩ := cacheFind_eq_some hI.index hf
    obtain ⟨s, ids, hc⟩ := hI.chain hl
    refine ⟨hI.update (hI.index.live hl) hup, z, front, ?_⟩
    exact listUpdate_keeps (P := fun h => Blocks (c.withHeap h) d z front) hI.heap hc hup hB
      fun hB he => hB.erase he

/-! ## The reply -/

variable {now : ℤ} {header : DnsHeader} {question : DnsQuestion}

/-- The unexpired nodes that a lookup counts do not wrap every section count to zero. -/
def Cache.CountsFit (c : Cache) (now : ℤ) (question : DnsQuestion) : Prop :=
  ∀ t l ids, cacheTypeOf question.qtype = some t → c.Has t question.qname l →
    c.heap.Chain l ids → ∃ rrType,
      sectionCount rrType (c.heap.infosAt (ids.filter (!c.heap.expiredAt now ·))) % 2 ^ 16 ≠ 0

/-- The counts fit when those of the unexpired records that are found do. -/
theorem Cache.countsFit_of_nodes (hI : c.Inv S) (rrType : RrType) {t : CacheType} {l : ℕ}
    {nodes : List (ℕ × ListNode)} (ht : cacheTypeOf question.qtype = some t)
    (hf : cacheFind c t question.qname = .ok (some l)) (hnodes : listNodes c.heap l = .ok nodes)
    (hn : sectionCount rrType
      ((nodes.map (·.2.unlinked)).filter (!·.expired now)) % 2 ^ 16 ≠ 0) :
    c.CountsFit now question := by
  intro t' l' ids ht' hl' hc
  obtain rfl := Option.some.inj (ht.symm.trans ht')
  obtain rfl := hI.index.has_unique (cacheFind_eq_some hI.index hf).1 hl'
  obtain ⟨ids', hc', rfl⟩ := Heap.listNodes_eq_ok.mp hnodes
  obtain rfl := hc'.unique hc
  rw [Heap.nodesAt_unlinked] at hn
  exact ⟨rrType, by rwa [Heap.infosAt_filter]⟩

/-- The zero node is among the nodes an update leaves of the lists. -/
theorem Blocks.mem_kept (hB : Blocks c d z front) (hI : c.Inv S) {t : CacheType} {l : ℕ}
    {ids : List ℕ} (hl : c.Has t d l) (hc : c.heap.Chain l ids) (now : ℤ) :
    ∃ n ∈ c.heap.infosAt (ids.filter (!c.heap.expiredAt now ·)), n.isZero := by
  obtain ⟨n, hn, hz, -, httl⟩ := hB.zero
  obtain ⟨l', list, hl', hlist, hfront⟩ := hB.list t
  obtain rfl := hI.index.has_unique hl hl'
  obtain ⟨list', hlist', hpath, -⟩ := hc
  obtain rfl := Option.some.inj (hlist.symm.trans hlist')
  have hmem : z ∈ ids := by
    obtain ⟨v, hv⟩ := hI.heap.ends (Heap.isSome_of_info hn)
    rw [hpath.unique (LinkPath.append_iff.mpr ⟨_, hfront, hv⟩)]
    exact List.mem_append_right _ (List.mem_of_mem_head? hv.eq_head?.symm)
  refine ⟨n, Heap.mem_infosAt.mpr ⟨z, List.mem_filter.mpr ⟨hmem, ?_⟩, hn⟩, hz⟩
  simp [Heap.expiredAt, hn, ListNode.expired, httl]

/-- **A blocked name is answered by a name error**. -/
theorem Blocks.reply (header : DnsHeader) (hB : Blocks c d z front) (hI : c.Inv S)
    (hk : KeySafe d) {t : CacheType} (ht : cacheTypeOf question.qtype = some t)
    (hd : question.qname = d) (hfit : c.CountsFit now question) :
    ∃ c', handleReadCache c now header question =
      .ok (c', .nameError (nameErrorReply header question)) := by
  subst hd
  obtain ⟨l, list, hl, hlist, hfront⟩ := hB.list t
  have hf := (cacheFind_eq_some_iff hI.index).mpr ⟨hl, hk⟩
  obtain ⟨s, ids, -, hc⟩ := hI.heap.chain hlist
  obtain ⟨heap, size, hup⟩ := listUpdate_ok hI.heap hc now
  obtain ⟨ids', hL⟩ := hI.lookup ht hf hup
  obtain rfl := hL.chain.unique hc
  refine ⟨c.withHeap heap, ?_⟩
  have hnodes := Heap.listNodes_eq_ok.mpr ⟨_, hL.kept, rfl⟩
  rw [handleReadCache, (questionList_eq_some (l := l)).mpr ⟨t, ht, hf⟩]
  simp only [ok_bind, hup]
  rw [show ({ c with heap } : Cache) = c.withHeap heap from rfl]
  have hinfos := hL.infosAt
  rw [Cache.withHeap_heap] at hnodes hinfos
  rw [hnodes, ok_bind, replyFrom, if_pos]
  · rfl
  · rw [foldl_countNode_nodesAt, any_isZero_nodesAt, hinfos, hasRecords_foldl_countNode]
    obtain ⟨n, hn, hz⟩ := hB.mem_kept hI hl hc now
    exact ⟨hfit t l _ ht hl hc, List.any_eq_true.mpr ⟨n, hn, hz⟩⟩

/-- **A query for `d`**: one question of a cached type, asking for `d`. -/
def QueryFor (d : CString) (datagram : List UInt8) (header : DnsHeader)
    (question : DnsQuestion) : Prop :=
  ∃ buf rest, parseHeader (receiveBuffer datagram) = .ok (header, buf) ∧
    parseQuestion buf = .ok (question, rest) ∧ header.qr = 0 ∧ header.qdcount = 1 ∧
    question.qname = d ∧ (question.qtype = 1 ∨ question.qtype = 28 ∨ question.qtype = 5)

theorem Blocks.stream {s : Server} (hB : Blocks s.cache d z front) (hI : s.cache.Inv S)
    (hk : KeySafe d) {datagram : List UInt8} (hq : QueryFor d datagram header question)
    (hfit : s.cache.CountsFit now question) (client : SockAddr) :
    ∃ cache, handleStream s now client datagram =
      .ok ({ s with cache }, [.reply client (nameErrorReply header question)]) := by
  obtain ⟨buf, rest, hparse, hquestion, hqr, hqd, hname, htype⟩ := hq
  obtain ⟨t, ht⟩ : ∃ t, cacheTypeOf question.qtype = some t := by
    rcases htype with h | h | h <;> rw [h] <;> exact ⟨_, rfl⟩
  obtain ⟨c', hread⟩ := hB.reply header hI hk ht hname hfit
  refine ⟨c', ?_⟩
  simp only [handleStream, hparse, ok_bind, hqr, if_true, handleReceiveQuery, hqd, hquestion,
    answerQuery, hread]
  rfl

/-! ## Listed domains -/

theorem Listed.mem_hostsEntries {file : List UInt8} (hl : Listed file d) (hd : IsNameText d) :
    (zeroAddr, d) ∈ hostsEntries file := by
  obtain ⟨text, hline, hne, htext⟩ := hl
  have hsub : text <+: d.octets := by
    rcases htext with rfl | ⟨-, h⟩
    · exact List.prefix_rfl
    · exact ⟨_, h⟩
  have hoct : ∀ c ∈ text, 33 ≤ c.toNat := fun c hc => (hd.2.2 c (hsub.subset hc)).1
  -- the line is short enough to be read at once
  have hlen : (ascii "0.0.0.0 " ++ text).length < 511 := by
    have := hsub.length_le.trans hd.2.1
    rw [List.length_append, show (ascii "0.0.0.0 ").length = 8 from rfl]
    omega
  have hentry : ∀ ends, ends = [] ∨ ends = [newline] →
      hostsEntry (ascii "0.0.0.0 " ++ text ++ ends) = some (zeroAddr, d) := by
    intro ends hends
    rw [hostsEntry_zeroLine hne hoct hends, ← CString.ofBlock_octets d]
    rcases htext with htext | ⟨hdot, htext⟩
    · obtain ⟨⟨ls, -, htls⟩, -⟩ := hd
      rw [if_pos, htext]
      · rfl
      · refine htext ▸ htls ▸ DomainName.text_getLast? ?_
        rintro rfl
        exact hne (htext.trans htls)
    · rw [if_neg hdot, htext]
      rfl
  refine List.mem_filterMap.mpr ?_
  -- the line ends with the file, or with a newline
  rcases mem_fgetsLines hline (by simp [ascii]) hlen with h | h
  · exact ⟨_, h, by simpa using hentry [] (.inl rfl)⟩
  · exact ⟨_, h, hentry [newline] (.inr rfl)⟩

/-- The lists of a listed domain meet in a zero node after the load. -/
theorem Listed.blocks {file : List UInt8} (hl : Listed file d) (hd : IsNameText d)
    (hr : readHostsFile Cache.init file = .ok c) :
    (∃ S, c.Inv S) ∧ ∃ z front, Blocks c d z front := by
  obtain ⟨S, cls, hL⟩ := (readHostsFile_loaded hr).load
  exact ⟨⟨S, hL.inv⟩, (readHostsFile_zeroed hr ⟨hl.mem_hostsEntries hd, hd.valid⟩).blocks hL⟩

/-- Every query for `d` is answered by a name error, and forwarded to nobody: the file is loaded,
and whatever the server received and waited for since, the query changes nothing but the cache. -/
def Blacklists (file : List UInt8) (d : CString) : Prop :=
  ∃ c₀, readHostsFile Cache.init file = .ok c₀ ∧
    ∀ s₀ s : Server, s₀.cache = c₀ → s₀.Run (fun _ _ _ => True) s →
      ∀ now client datagram header question, QueryFor d datagram header question →
        ∃ cache, handleStream s now client datagram =
          .ok ({ s with cache }, [.reply client (nameErrorReply header question)])

/-- **A listed domain is blocked** when the index has room for the domains of the file. In every
run over datagrams that stay inside the objects of the program, the next one is processed, what is
sent for it fits, and it is forwarded from a slot of the table; and a query for the domain is
answered by a name error, which fits, unless its counts wrap. -/
theorem blacklist_of_safe {file : List UInt8} (hd : IsNameText d) (hl : Listed file d)
    (hk : ∀ e ∈ hostsEntries file, KeySafe e.2) :
    ∃ c₀, readHostsFile Cache.init file = .ok c₀ ∧
      ∀ s₀ s : Server, s₀.cache = c₀ → s₀.Run StaysInside s →
        (∀ now client datagram, StaysInside s now datagram →
          ∃ s' sent, handleStream s now client datagram = .ok (s', sent) ∧
            (∀ x ∈ sent, x.datagram.length ≤ bufferLen) ∧
              ∀ up, .relay up ∈ sent → s.buf1Len < mapLen) ∧
        ∀ now client datagram header question, QueryFor d datagram header question →
          s.cache.CountsFit now question →
            (nameErrorReply header question).length ≤ bufferLen ∧
              ∃ cache, handleStream s now client datagram =
                .ok ({ s with cache }, [.reply client (nameErrorReply header question)]) := by
  obtain ⟨c₀, hr⟩ := readHostsFile_ok hk
  obtain ⟨⟨S, hI₀⟩, h₀⟩ := hl.blocks hd hr
  obtain ⟨S', hG₀⟩ := readHostsFile_good hr
  refine ⟨c₀, hr, fun s₀ s hs₀ hrun => ?_⟩
  subst hs₀
  obtain ⟨log, hrun⟩ := hrun.cache
  obtain ⟨hI, z, front, hB⟩ := hrun.blocks hI₀ h₀
  have hkd : KeySafe d := hk _ (hl.mem_hostsEntries hd)
  refine ⟨fun now client datagram hinside => hinside.processed (hrun.good hG₀) client,
    fun now client datagram header question hq hfit => ⟨?_, hB.stream hI hkd hq hfit client⟩⟩
  obtain ⟨-, -, -, -, -, -, hname, -⟩ := hq
  obtain ⟨l, -, hl, -⟩ := hB.list .ipv4
  exact nameErrorReply_length_le hI.index
    ((cacheFind_eq_some_iff hI.index).mpr ⟨hname ▸ hl, hname ▸ hkd⟩)

/-- A domain with a line of its own in the hosts file of the tests. -/
def shortListed : CString := .ofBlock (ascii "www.cctv1.net.")

theorem shortListed_isNameText : IsNameText shortListed := by
  refine ⟨⟨[ascii "www", ascii "cctv1", ascii "net"], ?_, ?_⟩, ?_, ?_⟩ <;> decide

theorem isLine_singleton {line : List UInt8} (h : newline ∉ line) :
    IsLine (line ++ [newline]) line :=
  ⟨h, [], [newline], by simp, .inl rfl, .inr ⟨[], rfl⟩⟩

/-- A hosts file with its line. -/
def listedFile : List UInt8 := ascii "0.0.0.0 www.cctv1.net\n"

/-- The domain in a message. -/
def listedName : List UInt8 :=
  [3, 119, 119, 119, 5, 99, 99, 116, 118, 49, 3, 110, 101, 116, 0]

/-- A query for the domain, of a one-octet type. -/
def listedQuery (qtype : UInt8) : List UInt8 :=
  [0, 9, 1, 0, 0, 1, 0, 0, 0, 0, 0, 0] ++ listedName ++ [0, qtype, 0, 1]

/-- The response to a query for the texts of the domain, with an address of the domain. -/
def listedResponse : List UInt8 :=
  [0, 1, 129, 128, 0, 1, 0, 1, 0, 0, 0, 0] ++ listedName ++ [0, 16, 0, 1] ++
    [192, 12, 0, 1, 0, 1, 0, 0, 0, 60, 0, 4] ++ [10, 0, 0, 2]

theorem blacklist_shortListed : ∃ c₀ s cache header question reply,
    readHostsFile Cache.init listedFile = .ok c₀ ∧ (Server.init c₀).Run StaysInside s ∧
      s.buf1Len = 2 ∧ question.qname = shortListed ∧ question.qtype = 1 ∧ header.id = 9 ∧
      reply = nameErrorReply header question ∧ reply.length ≤ bufferLen ∧
      handleStream s 5 ⟨0x7f000001, 5353⟩ (listedQuery 1) =
        .ok ({ s with cache }, [.reply ⟨0x7f000001, 5353⟩ reply]) := by
  -- the query for texts is forwarded, and the address of its response put behind the zero address
  obtain ⟨c₀, header₁, question₁, header₂, r, s₁, sent₁, s₂, sent₂, header, question, buf, rest, l,
      nodes, hload, hparse₁, hparse₂, hr₁, hr₂, htype₁, hlen₁, hname, htypes, hsize,
      ⟨l₁, list₁, x, n, hfind₁, hlist₁, htail₁, hlive₁⟩, hlen₂, hheader, hquestion, hqname, hqtype,
      hqr, hqd, hid, hfind, hnodes, hcount⟩ : ∃ c₀ header₁ question₁ header₂ r s₁ sent₁ s₂ sent₂
      header question buf rest l nodes, readHostsFile Cache.init listedFile = .ok c₀ ∧
      parseStream (listedQuery 16) = .ok (header₁, .query question₁) ∧
      parseStream listedResponse = .ok (header₂, .response r) ∧
      processStream (.init c₀) 0 ⟨0x7f000001, 5353⟩ (header₁, .query question₁) = .ok (s₁, sent₁) ∧
      processStream s₁ 0 ⟨0x08080808, 53⟩ (header₂, .response r) = .ok (s₂, sent₂) ∧
      cacheTypeOf question₁.qtype = none ∧ s₁.buf1Len = 2 ∧ r.question.qname = shortListed ∧
      (r.answer ++ r.authority ++ r.additional).map (·.type) = [1] ∧ responseSize r = 60 ∧
      (∃ l list x n, cacheFind s₁.cache .ipv4 shortListed = .ok (some l) ∧
        s₁.cache.heap.list l = some list ∧ list.tail = some x ∧
        s₁.cache.heap.node x = some n) ∧ s₂.buf1Len = 2 ∧
      parseHeader (receiveBuffer (listedQuery 1)) = .ok (header, buf) ∧
      parseQuestion buf = .ok (question, rest) ∧ question.qname = shortListed ∧
      question.qtype = 1 ∧ header.qr = 0 ∧ header.qdcount = 1 ∧ header.id = 9 ∧
      cacheFind s₂.cache .ipv4 shortListed = .ok (some l) ∧
      listNodes s₂.cache.heap l = .ok nodes ∧
      sectionCount .answer ((nodes.map (·.2.unlinked)).filter (!·.expired 5)) = 2 := by
    obtain ⟨zs, hzs⟩ : ∃ zs, receiveBuffer (listedQuery 16) = listedQuery 16 ++ zs := ⟨_, rfl⟩
    obtain ⟨zs', hzs'⟩ : ∃ zs, receiveBuffer listedResponse = listedResponse ++ zs := ⟨_, rfl⟩
    obtain ⟨zs'', hzs''⟩ : ∃ zs, receiveBuffer (listedQuery 1) = listedQuery 1 ++ zs := ⟨_, rfl⟩
    simp only [parseStream, hzs, hzs', hzs'']
    exact ⟨_, _, _, _, _, _, _, _, _, _, _, _, _, _, _, rfl, rfl, rfl, rfl, rfl, rfl, rfl, rfl,
      rfl, rfl, ⟨_, _, _, _, rfl, rfl, rfl, rfl⟩, rfl, rfl, rfl, rfl, rfl, rfl, rfl, rfl, rfl, rfl,
      rfl⟩
  obtain ⟨S, hG⟩ := readHostsFile_good hload
  have one_lt : (1 : ℕ) < mapLen := by decide
  have hinside₁ : StaysInside (.init c₀) 0 (listedQuery 16) :=
    ⟨hasRoom_query (by decide) hparse₁ (Cache.replyFits_of_uncached _ 0 htype₁) one_lt,
      datagramSafe_query hparse₁ fun t ht => by cases htype₁.symm.trans ht⟩
  have hrun₁ : (Server.init c₀).Run StaysInside s₁ :=
    .stream .start hinside₁ ((handleStream_of_parse hparse₁).trans hr₁)
  have hrun₂ : (Server.init c₀).Run StaysInside s₂ := by
    obtain ⟨log, hcache⟩ := hrun₁.cache
    have hI := (hcache.good hG).inv.index
    have hroom₂ : HasRoom s₁ 0 listedResponse :=
      hasRoom_response (by decide) hparse₂ (by rw [hsize]; decide)
    refine .stream hrun₁ ⟨hroom₂, ?_⟩ ((handleStream_of_parse hparse₂).trans hr₂)
    refine datagramSafe_response hparse₂ fun _ rr hrr t ht => ?_
    have hA : rr.type = 1 := by
      have hmem := List.mem_map_of_mem (f := DnsResourceRecord.type) hrr
      rw [htypes] at hmem
      exact List.mem_singleton.mp hmem
    obtain rfl : CacheType.ipv4 = t := by
      rw [hA] at ht
      exact Option.some.inj ht
    rw [hname]
    refine ⟨by decide, fun l' hl' => ?_⟩
    obtain rfl := hI.has_unique (cacheFind_eq_some hI hfind₁).1 hl'
    exact ⟨list₁, x, hlist₁, htail₁, by rw [hlive₁, Option.isSome_some]⟩
  have hline : IsLine listedFile (ascii "0.0.0.0 " ++ ascii "www.cctv1.net") :=
    isLine_singleton (by decide)
  obtain ⟨c₀', hload', hblocked⟩ := blacklist_of_safe shortListed_isNameText
    ⟨ascii "www.cctv1.net", hline, by decide, .inr (by decide)⟩ (by decide)
  obtain rfl := Except.ok.inj (hload.symm.trans hload')
  have hquery : QueryFor shortListed (listedQuery 1) header question :=
    ⟨buf, rest, hheader, hquestion, hqr, hqd, hqname, .inl hqtype⟩
  have hfit : s₂.cache.CountsFit 5 question := by
    obtain ⟨log, hcache⟩ := hrun₂.cache
    refine Cache.countsFit_of_nodes (hcache.good hG).inv .answer (by rw [hqtype]; rfl)
      (hqname ▸ hfind) hnodes ?_
    rw [hcount]
    decide
  obtain ⟨hle, cache, hreply⟩ := (hblocked _ s₂ rfl hrun₂).2 5 ⟨0x7f000001, 5353⟩ _ _ _ hquery hfit
  exact ⟨c₀, s₂, cache, header, question, _, hload, hrun₂, hlen₂, hqname, hqtype, hid, rfl, hle,
    hreply⟩

theorem not_blacklists_longDomain :
    ¬ ∀ file d, IsNameText d → Listed file d → Blacklists file d := by
  intro hall
  obtain ⟨c₀, hr, -⟩ := hall (ascii "0.0.0.0 " ++ longDomain.octets ++ [newline]) longDomain
    longDomain_isNameText ⟨longDomain.octets, isLine_singleton (by decide),
      by decide, .inl rfl⟩
  have hfault : readHostsFile Cache.init (ascii "0.0.0.0 " ++ longDomain.octets ++ [newline]) =
      .error .writePastKey := by rfl
  rw [hfault] at hr
  cases hr

end Adrift
