import Adrift.HostsLoad
import Adrift.Protocol.ReadCache

/-!
# Cached replies

The header of a cached reply is counted over the list of the queried type, and its body is written
from the CNAME list, for an A query, and from that list, in the order of their nodes.

## Main definitions

* `Cache.Good S c`: the invariant of the cache, the shared nodes being zero nodes
* `writtenNodes`: the nodes whose records a cached reply contains
* `SectionsMatch header nodes`: the header counts the nodes, section after section
* `SectionsFit c now question`: the condition on the cache under which it does

## Main results

* `Cache.Run.good`: a run after the load keeps the invariant
* `handleReadCache_cached`: what a cached reply is written from
* `cachedReply_sections`: the sections of a cached reply match its header exactly when they fit
-/

namespace Adrift

open Outcome

/-- **The invariant of the cache**, with zero nodes as the only shared ones. -/
structure Cache.Good (S : Set ℕ) (c : Cache) : Prop where
  inv : c.Inv S
  zero : ∀ {x}, x ∈ S → ∃ n, c.heap.info x = some n ∧ n.isZero

variable {S : Set ℕ} {c₀ c c' : Cache} {log : List Logged} {now : ℤ} {header : DnsHeader}
  {question : DnsQuestion}

theorem readHostsFile_good {file : List UInt8} (hr : readHostsFile Cache.init file = .ok c) :
    ∃ S, c.Good S := by
  obtain ⟨S, cls, hL⟩ := (readHostsFile_loaded hr).load
  exact ⟨S, hL.inv, hL.shared⟩

/-- Allocating and inserting a record keeps the information of the nodes. -/
theorem cacheRecord_info {qname : CString} {rrType : RrType} {rr : DnsResourceRecord} {p x : ℕ}
    {n : ListNode} (hI : c.Inv S) (hr : cacheRecord now qname rrType c rr = .ok (c', p))
    (hn : c.heap.info x = some n) : c'.heap.info x = some n := by
  have hn₁ : (c.heap.allocNode (recordNode now rrType rr)).info x = some n := by
    rw [Heap.allocNode_info, Function.update_of_ne (Heap.ne_nextNode_of_info hn), hn]
  obtain ⟨rfl, ⟨-, rfl⟩ | ⟨t, -, hins⟩⟩ := cacheRecord_cases hr
  · exact hn₁
  · have hI₁ := hI.alloc (n := recordNode now rrType rr) rfl rfl
    rcases cacheInsert_inserted hI₁.index hins with ⟨-, rfl⟩ | ⟨-, l, τ, hi⟩
    · exact hn₁
    · exact hi.info hn₁

/-- **A run keeps the invariant**. -/
theorem Cache.Run.good (hrun : c₀.Run log c) (hG : c₀.Good S) : c.Good S := by
  refine hrun.invariant hG (fun hG hr => ⟨cacheRecord_inv hG.inv hr, fun {x} hx => ?_⟩) ?_
  · exact (hG.zero hx).imp fun n hn => ⟨cacheRecord_info hG.inv hr hn.1, hn.2⟩
  · intro c t k l now heap size hG hf hup
    obtain ⟨hl, -⟩ := cacheFind_eq_some hG.inv.index hf
    obtain ⟨s, ids, hc⟩ := hG.inv.chain hl
    refine ⟨hG.inv.update (hG.inv.index.live hl) hup, ?_⟩
    refine listUpdate_keeps (P := fun h => ∀ {x}, x ∈ S → ∃ n, h.info x = some n ∧ n.isZero)
      hG.inv.heap hc hup hG.zero fun {h w p n} hP he x hx => ?_
    have hxp : x ≠ p := fun e => he.notMem (e ▸ hx)
    rw [erasedHeap_info, Function.update_of_ne hxp]
    exact hP hx

/-! ## What a cached reply is written from -/

/-- The nodes of the CNAME list that a reply to the question reads. -/
def Cache.CnameIds (c : Cache) (question : DnsQuestion) (cids : List ℕ) : Prop :=
  if question.qtype = 1 then
    (∃ l, c.Has .cname question.qname l ∧ c.heap.Chain l cids) ∨
      (∀ l, ¬ c.Has .cname question.qname l) ∧ cids = []
  else cids = []

/-- The nodes of a reply, without their links and without the head nodes. -/
def writtenNodes (cname list : List (ℕ × ListNode)) : List ListNode :=
  ((cname ++ list).map (·.2.unlinked)).filter (·.data.isSome)

theorem flatMap_dumpNode (now : ℤ) (xs : List (ℕ × ListNode)) :
    xs.flatMap (dumpNode now ·.2) =
      ((xs.map (·.2.unlinked)).filter (·.data.isSome)).flatMap (dumpNode now) := by
  induction xs with
  | nil => rfl
  | cons x xs ih =>
    rw [List.flatMap_cons, ih, List.map_cons]
    cases hd : x.2.data with
    | none =>
      rw [List.filter_cons_of_neg (by simp [ListNode.unlinked, hd])]
      simp [dumpNode, hd]
    | some rr =>
      rw [List.filter_cons_of_pos (by simp [ListNode.unlinked, hd])]
      simp [dumpNode, ListNode.unlinked, agedRecord, hd]

/-- **What a cached reply is written from**: the CNAME list as it was before, and the unexpired
nodes of the list found, which are no zero nodes. -/
structure CachedFrom (S : Set ℕ) (c : Cache) (now : ℤ) (header : DnsHeader)
    (question : DnsQuestion) (hd : DnsHeader) (cname list : List (ℕ × ListNode))
    (datagram : List UInt8) (t : CacheType) (l : ℕ) (ids cids : List ℕ) (c' : Cache) : Prop where
  lookup : Lookup S c now question t l ids c'
  cnameIds : c.CnameIds question cids
  cnameFst : cname.map Prod.fst = cids
  cnameInfos : cname.map (·.2.unlinked) = c.heap.infosAt cids
  listFst : list.map Prod.fst = ids.filter (!c.heap.expiredAt now ·)
  listInfos : list.map (·.2.unlinked) = c.heap.infosAt (ids.filter (!c.heap.expiredAt now ·))
  counts : hd = (c.heap.infosAt (ids.filter (!c.heap.expiredAt now ·))).foldl countNode
    (cachedHeader header)
  hasRecords : hd.hasRecords = true
  notZero : ∀ n ∈ c.heap.infosAt (ids.filter (!c.heap.expiredAt now ·)), ¬ n.isZero
  datagram : datagram = dumpHeader hd ++ dumpQuestion question ++
    (writtenNodes cname list).flatMap (dumpNode now)

/-- The nodes of a reply are those of the two lists that have a record. -/
theorem CachedFrom.mem_written {hd : DnsHeader} {cname list : List (ℕ × ListNode)}
    {datagram : List UInt8} {t : CacheType} {l : ℕ} {ids cids : List ℕ}
    (hF : CachedFrom S c now header question hd cname list datagram t l ids cids c')
    {n : ListNode} : n ∈ writtenNodes cname list ↔ n.data.isSome ∧
      ∃ i ∈ cids ++ ids.filter (!c.heap.expiredAt now ·), c.heap.info i = some n := by
  rw [writtenNodes, List.mem_filter, List.map_append, hF.cnameInfos, hF.listInfos, List.mem_append,
    Heap.mem_infosAt, Heap.mem_infosAt, and_comm]
  simp only [List.mem_append, or_and_right, exists_or]

/-- The update of a list without zero nodes keeps the other lists. -/
theorem Lookup.other_chain {t : CacheType} {l l' : ℕ} {ids ids' : List ℕ} (hG : c.Good S)
    (hL : Lookup S c now question t l ids c')
    (hz : ∀ n ∈ c.heap.infosAt (ids.filter (!c.heap.expiredAt now ·)), ¬ n.isZero)
    (hne : l' ≠ l) (hc : c.heap.Chain l' ids') :
    c'.heap.Chain l' ids' ∧ c'.heap.infosAt ids' = c.heap.infosAt ids' := by
  obtain ⟨heap, size, hup, rfl⟩ := hL.update
  have hd : ids.Disjoint ids' := by
    refine hG.inv.heap.disjoint hL.chain hc (fun i hi hS => ?_) hne.symm
    obtain ⟨n, hn, hzero⟩ := hG.zero hS
    have httl := hG.inv.heap.shared hS hn
    refine hz n (Heap.mem_infosAt.mpr ⟨i, List.mem_filter.mpr ⟨hi, ?_⟩, hn⟩) hzero
    simp [Heap.expiredAt, hn, ListNode.expired, httl]
  have hc' := listUpdate_chain_of_disjoint hG.inv.heap hL.chain hup hc hne hd
  refine ⟨hc', Heap.infosAt_congr fun i hi => ?_⟩
  obtain ⟨-, -, -, hlive⟩ := hc'
  exact listUpdate_info_eq hG.inv.heap hL.chain hup (hlive i hi)

/-- The CNAME list read after the update is the one before. -/
theorem Lookup.cnameIds {t : CacheType} {l : ℕ} {ids : List ℕ} (hG : c.Good S)
    (hL : Lookup S c now question t l ids c')
    (hz : ∀ n ∈ c.heap.infosAt (ids.filter (!c.heap.expiredAt now ·)), ¬ n.isZero)
    {cname : List (ℕ × ListNode)} (hr : cnameNodes c' question = .ok cname) :
    c.CnameIds question (cname.map Prod.fst) ∧
      cname.map (·.2.unlinked) = c.heap.infosAt (cname.map Prod.fst) := by
  rw [cnameNodes] at hr
  rw [Cache.CnameIds]
  split_ifs at hr ⊢ with hA
  · obtain ⟨o, hf, hr⟩ := bind_eq_ok.mp hr
    obtain ⟨o', hf', ho⟩ := cacheFind_spec hL.inv.index (hL.safe.lookupSafe c' .cname)
    obtain rfl := Except.ok.inj (hf'.symm.trans hf)
    have hhas : ∀ l, c'.Has .cname question.qname l ↔ c.Has .cname question.qname l := by
      obtain ⟨heap, size, -, rfl⟩ := hL.update
      exact fun _ => Iff.rfl
    cases o' with
    | none =>
      cases hr
      refine ⟨.inr ⟨fun l hl => ?_, rfl⟩, rfl⟩
      cases (ho l).mpr ((hhas l).mpr hl)
    | some l' =>
      have hl' := (hhas l').mp ((ho l').mp rfl)
      obtain ⟨s, ids', hc⟩ := hG.inv.chain hl'
      -- an A query updates the IPv4 list, which is not the CNAME list
      have hne : l' ≠ l := by
        rintro rfl
        have ht := hL.type
        rw [← (hG.inv.index.inj hl' hL.has).1, hA] at ht
        cases ht
      obtain ⟨hc', hinfos⟩ := hL.other_chain hG hz hne hc
      obtain ⟨ids'', hc'', rfl⟩ := Heap.listNodes_eq_ok.mp hr
      obtain rfl := hc''.unique hc'
      obtain ⟨-, -, -, hlive⟩ := hc'
      rw [Heap.nodesAt_fst hlive, Heap.nodesAt_unlinked]
      exact ⟨.inl ⟨l', hl', hc⟩, hinfos⟩
  · cases hr
    exact ⟨rfl, rfl⟩

/-- **A cached reply** is written from the CNAME list and the list found. -/
theorem handleReadCache_cached (hG : c.Good S) {hd : DnsHeader} {cname list : List (ℕ × ListNode)}
    {datagram : List UInt8}
    (hr : handleReadCache c now header question = .ok (c', .cached hd cname list datagram)) :
    ∃ t l ids cids, CachedFrom S c now header question hd cname list datagram t l ids cids c' := by
  rcases handleReadCache_lookup hG.inv hr with ⟨-, h⟩ | ⟨t, l, ids, hL, hr⟩
  · cases h
  rw [replyFrom, foldl_countNode_nodesAt, any_isZero_nodesAt, hL.infosAt] at hr
  split_ifs at hr with hzero hrec
  · cases hr
  · obtain ⟨cname', hcname, hr⟩ := bind_eq_ok.mp hr
    cases hr
    have hz : ∀ n ∈ c.heap.infosAt (ids.filter (!c.heap.expiredAt now ·)), ¬ n.isZero :=
      fun n hn hzn => hzero ⟨hrec, List.any_eq_true.mpr ⟨n, hn, hzn⟩⟩
    obtain ⟨hcids, hcinfos⟩ := hL.cnameIds hG hz hcname
    obtain ⟨-, -, -, hlive⟩ := hL.kept
    refine ⟨t, l, ids, _, hL, hcids, rfl, hcinfos, Heap.nodesAt_fst hlive, ?_, rfl, hrec, hz, ?_⟩
    · rw [Heap.nodesAt_unlinked, hL.infosAt]
    · rw [writtenNodes, List.map_append, List.filter_append, List.flatMap_append, flatMap_dumpNode,
        flatMap_dumpNode]
      simp only [List.append_assoc]
  · cases hr

/-! ## Sections -/

/-- The position of a section in a message. -/
def RrType.rank : RrType → ℕ
  | .answer => 0
  | .authority => 1
  | .additional => 2

/-- **The header counts the nodes** in their order: first the answers, then the authority and the
additional ones. -/
structure SectionsMatch (header : DnsHeader) (nodes : List ListNode) : Prop where
  length : nodes.length =
    header.ancount.toNat + header.nscount.toNat + header.arcount.toNat
  answer : nodes.take header.ancount.toNat = nodes.filter (·.type = some .answer)
  authority : (nodes.drop header.ancount.toNat).take header.nscount.toNat =
    nodes.filter (·.type = some .authority)
  additional : nodes.drop (header.ancount.toNat + header.nscount.toNat) =
    nodes.filter (·.type = some .additional)

/-- The nodes stand in the order of their sections. -/
def InSectionOrder (nodes : List ListNode) : Prop :=
  nodes.Pairwise fun m n => ∀ a ∈ m.type, ∀ b ∈ n.type, a.rank ≤ b.rank

/-- **The sections fit**: an A query finds no record in the CNAME list, the unexpired records of
the list of the queried type stand in the order of their sections, and no section has `2 ^ 16` of
them. -/
def Cache.SectionsFit (c : Cache) (now : ℤ) (question : DnsQuestion) : Prop :=
  (∀ cids, c.CnameIds question cids → ∀ n ∈ c.heap.infosAt cids, n.data = none) ∧
    ∀ t l ids, cacheTypeOf question.qtype = some t → c.Has t question.qname l →
      c.heap.Chain l ids →
        InSectionOrder (c.heap.infosAt (ids.filter (!c.heap.expiredAt now ·))) ∧
        ∀ rrType,
          sectionCount rrType (c.heap.infosAt (ids.filter (!c.heap.expiredAt now ·))) < 2 ^ 16

/-- A list of typed nodes in order is its three sections, one after the other. -/
theorem inSectionOrder_iff {nodes : List ListNode} (ht : ∀ n ∈ nodes, n.type.isSome) :
    InSectionOrder nodes ↔ nodes = nodes.filter (·.type = some .answer) ++
      nodes.filter (·.type = some .authority) ++ nodes.filter (·.type = some .additional) := by
  constructor
  · intro ho
    induction nodes with
    | nil => rfl
    | cons n nodes ih =>
      obtain ⟨hn, ho⟩ := List.pairwise_cons.mp ho
      have ih := ih (fun m hm => ht m (List.mem_cons_of_mem _ hm)) ho
      obtain ⟨a, ha⟩ := Option.isSome_iff_exists.mp (ht n List.mem_cons_self)
      -- no section before that of the first node is left
      have hempty : ∀ b : RrType, b.rank < a.rank → nodes.filter (·.type = some b) = [] := by
        intro b hb
        apply List.filter_eq_nil_iff.mpr
        intro m hm hmb
        have := hn m hm a ha b (by simpa using hmb)
        omega
      cases a with
      | answer => simpa [ha] using ih
      | authority =>
        rw [hempty .answer (by decide)] at ih
        simpa [ha, hempty .answer (by decide)] using ih
      | additional =>
        rw [hempty .answer (by decide), hempty .authority (by decide)] at ih
        simpa [ha, hempty .answer (by decide), hempty .authority (by decide)] using ih
  · intro h
    rw [InSectionOrder, h]
    have hrank : ∀ {a b : RrType}, a.rank ≤ b.rank → ∀ m ∈ nodes.filter (·.type = some a),
        ∀ n ∈ nodes.filter (·.type = some b), ∀ a ∈ m.type, ∀ b ∈ n.type, a.rank ≤ b.rank := by
      intro a b hab m hm n hn a' ha' b' hb'
      rw [of_decide_eq_true (List.mem_filter.mp hm).2] at ha'
      rw [of_decide_eq_true (List.mem_filter.mp hn).2] at hb'
      rwa [← Option.some.inj ha', ← Option.some.inj hb']
    have hself : ∀ a : RrType, (nodes.filter (·.type = some a)).Pairwise
        fun m n => ∀ a ∈ m.type, ∀ b ∈ n.type, a.rank ≤ b.rank :=
      fun a => List.pairwise_of_forall_mem_list fun m hm n hn => hrank le_rfl m hm n hn
    refine List.pairwise_append.mpr ⟨List.pairwise_append.mpr
      ⟨hself _, hself _, hrank (by decide)⟩, hself _, fun m hm n hn => ?_⟩
    rcases List.mem_append.mp hm with hm | hm
    · exact hrank (by decide) m hm n hn
    · exact hrank (by decide) m hm n hn

/-- The sizes of the sections of typed nodes add up. -/
theorem length_eq_sectionCount {nodes : List ListNode} (ht : ∀ n ∈ nodes, n.type.isSome) :
    nodes.length = sectionCount .answer nodes + sectionCount .authority nodes +
      sectionCount .additional nodes := by
  induction nodes with
  | nil => rfl
  | cons n nodes ih =>
    have ih := ih fun m hm => ht m (List.mem_cons_of_mem _ hm)
    obtain ⟨a, ha⟩ := Option.isSome_iff_exists.mp (ht n List.mem_cons_self)
    simp only [sectionCount, List.countP_cons, List.length_cons, ha, Option.some.injEq] at ih ⊢
    cases a <;> simp <;> omega

theorem sectionCount_eq_length (rrType : RrType) (nodes : List ListNode) :
    sectionCount rrType nodes = (nodes.filter (·.type = some rrType)).length :=
  List.countP_eq_length_filter

/-- **The header matches** the CNAME nodes and the nodes it was counted over exactly when there
are no CNAME nodes, and the others are in order and did not wrap a count. -/
theorem sectionsMatch_iff {cname nodes : List ListNode} (ht : ∀ n ∈ cname ++ nodes, n.type.isSome)
    {header : DnsHeader} : SectionsMatch (nodes.foldl countNode (cachedHeader header))
      (cname ++ nodes) ↔
    cname = [] ∧ InSectionOrder nodes ∧ ∀ rrType, sectionCount rrType nodes < 2 ^ 16 := by
  have htn : ∀ n ∈ nodes, n.type.isSome := fun n hn => ht n (List.mem_append_right _ hn)
  have hlen := length_eq_sectionCount htn
  have hcount : ∀ rrType, (UInt16.ofNat (sectionCount rrType nodes)).toNat =
      sectionCount rrType nodes % 2 ^ 16 := fun rrType => UInt16.toNat_ofNat'
  rw [foldl_countNode]
  simp only [cachedHeader, getDefaultHeader, UInt16.zero_add]
  constructor
  · rintro ⟨hlength, hanswer, hauthority, hadditional⟩
    simp only [hcount, List.length_append] at hlength
    have hmod := fun rrType => Nat.mod_le (sectionCount rrType nodes) (2 ^ 16)
    have h₁ := hmod .answer
    have h₂ := hmod .authority
    have h₃ := hmod .additional
    -- nothing is left for the CNAME nodes, nor for the remainders
    have hcname : cname = [] := List.length_eq_zero_iff.mp (by omega)
    have hsmall : ∀ rrType, sectionCount rrType nodes % 2 ^ 16 = sectionCount rrType nodes := by
      rintro (_ | _ | _) <;> omega
    subst hcname
    refine ⟨rfl, (inSectionOrder_iff htn).mpr ?_, fun rrType => ?_⟩
    · rw [List.nil_append] at hanswer hauthority hadditional
      rw [← hanswer, ← hauthority, ← hadditional, ← List.take_add, List.take_append_drop]
    · rw [← hsmall rrType]
      exact Nat.mod_lt _ (by decide)
  · rintro ⟨rfl, ho, hsmall⟩
    have hc := fun rrType => (hcount rrType).trans (Nat.mod_eq_of_lt (hsmall rrType))
    have hsplit := (inSectionOrder_iff htn).mp ho
    rw [List.nil_append]
    simp only [sectionCount_eq_length] at hc hlen
    refine ⟨?_, ?_, ?_, ?_⟩ <;> simp only [hc, sectionCount_eq_length]
    · exact hlen
    all_goals
      generalize nodes.filter (·.type = some .answer) = as at *
      generalize nodes.filter (·.type = some .authority) = bs at *
      generalize nodes.filter (·.type = some .additional) = cs at *
      rw [hsplit]
      simp

/-! ## The sections of a cached reply -/

theorem sectionCount_filter_data (rrType : RrType) (nodes : List ListNode) :
    sectionCount rrType (nodes.filter (·.data.isSome)) = sectionCount rrType nodes := by
  rw [sectionCount, List.countP_filter, sectionCount]
  apply List.countP_congr
  intro n _
  have := n.typed
  cases hn : n.type with
  | none => simp
  | some a =>
    rw [hn] at this
    simp [this]

theorem foldl_countNode_filter_data (nodes : List ListNode) (header : DnsHeader) :
    (nodes.filter (·.data.isSome)).foldl countNode header = nodes.foldl countNode header := by
  simp only [foldl_countNode, sectionCount_filter_data]

theorem inSectionOrder_filter_data {nodes : List ListNode} :
    InSectionOrder (nodes.filter (·.data.isSome)) ↔ InSectionOrder nodes := by
  rw [InSectionOrder, List.pairwise_filter]
  refine ⟨List.Pairwise.imp fun {m n} h a ha b hb => h ?_ ?_ a ha b hb,
    List.Pairwise.imp fun h _ _ => h⟩
  · rw [m.typed, Option.mem_def.mp ha, Option.isSome_some]
  · rw [n.typed, Option.mem_def.mp hb, Option.isSome_some]

theorem Cache.CnameIds.unique (hI : c.IndexInv) {cids cids' : List ℕ}
    (h : c.CnameIds question cids) (h' : c.CnameIds question cids') : cids = cids' := by
  rw [Cache.CnameIds] at h h'
  split_ifs at h h'
  · rcases h with ⟨l, hl, hc⟩ | ⟨hn, rfl⟩
    · rcases h' with ⟨l', hl', hc'⟩ | ⟨hn', -⟩
      · obtain rfl := hI.has_unique hl hl'
        exact hc.unique hc'
      · exact absurd hl (hn' l)
    · rcases h' with ⟨l', hl', -⟩ | ⟨-, rfl⟩
      · exact absurd hl' (hn l')
      · rfl
  · rw [h, h']

theorem Cache.CnameIds.live {cids : List ℕ} (h : c.CnameIds question cids) :
    ∀ i ∈ cids, (c.heap.node i).isSome := by
  rw [Cache.CnameIds] at h
  split_ifs at h
  · rcases h with ⟨l, -, -, -, -, hlive⟩ | ⟨-, rfl⟩
    · exact hlive
    · exact fun i hi => nomatch hi
  · subst h
    exact fun i hi => nomatch hi

/-- The nodes on the lists that a reply is written from, but not expired, are its nodes. -/
theorem CachedFrom.mem_ids {hd : DnsHeader} {cname list : List (ℕ × ListNode)}
    {datagram : List UInt8} {t : CacheType} {l : ℕ} {ids cids : List ℕ}
    (hF : CachedFrom S c now header question hd cname list datagram t l ids cids c') {i : ℕ} :
    i ∈ (cname ++ list).map Prod.fst ↔ i ∈ cids ∨ i ∈ ids ∧ c.heap.expiredAt now i = false := by
  rw [List.map_append, hF.cnameFst, hF.listFst, List.mem_append, List.mem_filter]
  simp

/-- The nodes of a reply are live. -/
theorem CachedFrom.live {hd : DnsHeader} {cname list : List (ℕ × ListNode)}
    {datagram : List UInt8} {t : CacheType} {l : ℕ} {ids cids : List ℕ}
    (hF : CachedFrom S c now header question hd cname list datagram t l ids cids c') :
    ∀ i ∈ (cname ++ list).map Prod.fst, (c.heap.node i).isSome := by
  intro i hi
  rcases hF.mem_ids.mp hi with hi | ⟨hi, -⟩
  · exact hF.cnameIds.live i hi
  · obtain ⟨-, -, -, hlive⟩ := hF.lookup.chain
    exact hlive i hi

/-- The sections fit when they do for the lists a cached reply is written from. -/
theorem CachedFrom.sectionsFit_iff (hI : c.IndexInv) {hd : DnsHeader}
    {cname list : List (ℕ × ListNode)} {datagram : List UInt8} {t : CacheType} {l : ℕ}
    {ids cids : List ℕ}
    (hF : CachedFrom S c now header question hd cname list datagram t l ids cids c') :
    c.SectionsFit now question ↔
      (∀ n ∈ c.heap.infosAt cids, n.data = none) ∧
        InSectionOrder (c.heap.infosAt (ids.filter (!c.heap.expiredAt now ·))) ∧
        ∀ rrType,
          sectionCount rrType (c.heap.infosAt (ids.filter (!c.heap.expiredAt now ·))) < 2 ^ 16 := by
  constructor
  · rintro ⟨hcname, hlist⟩
    exact ⟨hcname _ hF.cnameIds,
      hlist t l ids hF.lookup.type hF.lookup.has hF.lookup.chain⟩
  · rintro ⟨hcname, hlist⟩
    refine ⟨fun cids' h => h.unique hI hF.cnameIds ▸ hcname, fun t' l' ids' ht hl hc => ?_⟩
    obtain ⟨rfl, rfl, rfl⟩ := hF.lookup.unique hI ht hl hc
    exact hlist

/-- **The sections of a cached reply** match the header it was counted into exactly when they
fit, in every state reached by responses and lookups after the load. -/
theorem cachedReply_sections {file : List UInt8} (hload : readHostsFile Cache.init file = .ok c₀)
    (hrun : c₀.Run log c) {hd : DnsHeader} {cname list : List (ℕ × ListNode)}
    {datagram : List UInt8}
    (hr : handleReadCache c now header question = .ok (c', .cached hd cname list datagram)) :
    datagram = dumpHeader hd ++ dumpQuestion question ++
        (writtenNodes cname list).flatMap (dumpNode now) ∧
      (SectionsMatch hd (writtenNodes cname list) ↔ c.SectionsFit now question) := by
  obtain ⟨S, hG⟩ := readHostsFile_good hload
  have hG := hrun.good hG
  obtain ⟨t, l, ids, cids, hF⟩ := handleReadCache_cached hG hr
  refine ⟨hF.datagram, ?_⟩
  rw [hF.sectionsFit_iff hG.inv.index, writtenNodes, List.map_append, List.filter_append,
    hF.cnameInfos, hF.listInfos, hF.counts, ← foldl_countNode_filter_data,
    sectionsMatch_iff fun n hn => ?_]
  · refine and_congr ?_ (and_congr inSectionOrder_filter_data (forall_congr' fun rrType => ?_))
    · simp [List.filter_eq_nil_iff]
    · rw [sectionCount_filter_data]
  · rw [← n.typed]
    rw [← List.filter_append] at hn
    exact (List.mem_filter.mp hn).2

/-- `a.b.` is an alias of `c.d.`. -/
def aliasRecord : DnsResourceRecord where
  name := .ofBlock (ascii "a.b.")
  type := 5
  rclass := 1
  ttl := 60
  rdlength := 5
  rdata := [1, 99, 1, 100, 0]
  rdata_length := rfl

/-- The address of `c.d.`. -/
def addressRecord : DnsResourceRecord where
  name := .ofBlock (ascii "c.d.")
  type := 1
  rclass := 1
  ttl := 60
  rdlength := 4
  rdata := [10, 3, 9, 44]
  rdata_length := rfl

/-- A query for the address of `a.b.`. -/
def addressQuestion : DnsQuestion := ⟨.ofBlock (ascii "a.b."), 1, 1⟩

/-- The response to it. -/
def aliasResponse : Response where
  header := { getDefaultHeader with ancount := 2 }
  question := addressQuestion
  answer := [aliasRecord, addressRecord]
  authority := []
  additional := []
  answer_length := by decide
  authority_length := by decide
  additional_length := by decide

theorem aliasReply : ∃ c c' hd cname list datagram,
    cacheResponse Cache.init 0 aliasResponse = .ok (c, ⟨[0, 2], [], []⟩) ∧
      handleReadCache c 10 getDefaultHeader addressQuestion =
        .ok (c', .cached hd cname list datagram) ∧
      cname.map Prod.fst = [1, 0] ∧ list.map Prod.fst = [3, 2] ∧
      list.map (·.2.type) = [none, some .answer] :=
  ⟨_, _, _, _, _, _, rfl, rfl, rfl, rfl, rfl⟩

theorem cachedReply_sections_alias : ∃ c₀ log c c' hd cname list datagram,
    readHostsFile Cache.init [] = .ok c₀ ∧ c₀.Run log c ∧
      handleReadCache c 10 getDefaultHeader addressQuestion =
        .ok (c', .cached hd cname list datagram) ∧
      datagram = dumpHeader hd ++ dumpQuestion addressQuestion ++
        (writtenNodes cname list).flatMap (dumpNode 10) ∧
      (SectionsMatch hd (writtenNodes cname list) ↔ c.SectionsFit 10 addressQuestion) := by
  obtain ⟨c, c', hd, cname, list, datagram, hresp, hread, -⟩ := aliasReply
  have hload : readHostsFile Cache.init [] = .ok Cache.init := rfl
  have hrun : Cache.init.Run _ c := .response .start hresp
  exact ⟨_, _, c, c', hd, cname, list, datagram, hload, hrun, hread,
    cachedReply_sections hload hrun hread⟩

theorem not_sectionsMatch_alias : ¬ ∀ file c₀ clock log c now header question c' hd cname list
    datagram, readHostsFile Cache.init file = .ok c₀ → c₀.ClockedRun clock log c → clock ≤ now →
      handleReadCache c now header question = .ok (c', .cached hd cname list datagram) →
        SectionsMatch hd (writtenNodes cname list) := by
  intro hall
  have h := hall [] _ _ _ _ 10 getDefaultHeader addressQuestion _ _ _ _ _ rfl
    (.response (r := aliasResponse) (.start 0) (le_refl (0 : ℤ)) rfl) (by decide) rfl
  exact absurd h.length (by decide)

end Adrift
