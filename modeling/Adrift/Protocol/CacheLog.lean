import Mathlib
import Adrift.Lib.ExpiringLog
import Adrift.Protocol.Override

/-!
# The cache as a log

Of a domain that is not blocked, the cache says what the hosts file and the responses said, less
what has expired. An update drops records early or late, but none that is unexpired, and the clock
never runs backwards: so what a lookup finds depends on the log of the responses alone, and not on
the lookups before it.

## Main definitions

* `hostsNodes`, `learnedNodes`, `storedNodes`: what was put under a type and a key
* `replyOf now header question cname nodes`: the reply from the records of given nodes
* `ReadCache.datagram`: what `handle_read_cache` sends

## Main results

* `readHostsFile_own`: what the load leaves for a domain that is not blocked
* `Cache.ClockedRun.swept`: a list of a run is its log without some expired records
* `handleReadCache_datagram`: a reply is written from the unexpired records of a list
* `handleReadCache_log`: a reply after a run is written from the log
* `cachedReply_of_log`: so it is written from the unexpired records of the log
* `lookups_unobservable`: AAAA and CNAME replies are the same whatever was looked up before
-/

namespace Adrift

open ExpiringLog Outcome

variable {file : List UInt8} {es done : List (InAddr × CString)} {S : Set ℕ}
  {cls : ℕ → Option CacheType × CString} {c₀ c c' : Cache} {t : CacheType} {d k : CString}
  {ns base cs : List ListNode} {now clock : ℤ} {log : List Logged} {header : DnsHeader}
  {question : DnsQuestion} {r : ReadCache} {addr : InAddr}

/-! ## What the load leaves -/

/-- The nodes of the hosts file under a type and a key that is not blocked. -/
def hostsNodes (es : List (InAddr × CString)) (t : CacheType) (k : CString) : List ListNode :=
  if t = .ipv4 then (es.filter (·.2 = k)).map (hostsNode ·.1 k) else []

/-- A frame of a key keeps its records. -/
theorem KeyFrame.records {cls : ℕ → CString} (hF : KeyFrame cls d c c') (hI : c.Inv S)
    (hC : ClassInv (fun _ k => k) cls c) (hr : c.Records t d ns) : c'.Records t d ns := by
  rcases hr with ⟨hno, rfl⟩ | ⟨l, s, ids, hl, ⟨list, hlist, hp, hlive⟩, rfl⟩
  · exact .inl ⟨fun l hl => hno l ((hF.has _ _).mp hl), rfl⟩
  · have hinfo : ∀ i ∈ s :: ids, c'.heap.info i = c.heap.info i := by
      intro i hi
      obtain ⟨n, hn⟩ := Heap.exists_info (hlive i hi)
      exact (hF.info hn).trans hn.symm
    refine .inr ⟨l, s, ids, (hF.has _ _).mpr hl, ⟨list, (hF.list hl).trans hlist,
      hF.path hI hC hp (head hI hC hl hlist), ?_⟩, ?_⟩
    · intro i hi
      obtain ⟨n, hn⟩ := Heap.exists_info (hlive i hi)
      exact Heap.isSome_of_info (hF.info hn)
    · exact (Heap.infosAt_congr fun i hi => hinfo i (List.mem_cons_of_mem s hi)).symm

namespace Loaded

/-- An entry of another domain leaves the records alone. -/
theorem records_other (hD : Loaded es done c) (hmem : (addr, k) ∈ es) (hkd : k ≠ d)
    (hr : insertHostsEntry c addr k = .ok c') (h : c.Records t d ns) : c'.Records t d ns := by
  obtain ⟨⟨S, cls, hL⟩, hD⟩ := hD
  have hL₁ := hL.alloc addr k
  have hp := hL.inv.heap.unlinked_alloc (n := hostsNode addr k) rfl rfl
  have hn : (c.heap.allocNode (hostsNode addr k)).info c.heap.nextNode = some (hostsNode addr k) :=
    by rw [Heap.allocNode_info, Function.update_self]; rfl
  have hk := Function.update_self c.heap.nextNode (classOf es .ipv4 k) cls
  have hF : KeyFrame (fun x => (cls x).2) k c _ := .alloc (n := hostsNode addr k) rfl
  have h₁ := KeyFrame.records (.alloc (n := hostsNode addr k) rfl) hL.inv hL.keys h
  obtain ⟨c₁, hr₁, hr⟩ := insertHostsEntry_eq_ok.mp hr
  have h₂ := (KeyFrame.insert hL₁.inv hL₁.keys hkd hr₁).records hL₁.inv hL₁.keys h₁
  split_ifs at hr with hzero
  · obtain ⟨c₂, hr₂, hr₃⟩ := hr
    subst hzero
    cases hinv : invalidKey k with
    | true =>
      simp only [cacheInsert, hinv, if_true, Except.ok.injEq] at hr₁ hr₂ hr₃
      obtain rfl := hr₁.trans (hr₂.trans hr₃)
      exact h₁
    | false =>
      -- the invariant between the inserts of the shared node
      have hT := tailReached (Loaded.kept (hF.kept hL) (hD k hinv)) hL₁.inv hp
      have hZ := hL₁.zeroInserts hp hn (hostsNode_isZero k) hk hmem hT
      obtain ⟨⟨cls₁, hZ₁⟩, -⟩ := hZ.insert (hostsNode_isZero k) hinv (by simp) hr₁
      obtain ⟨⟨cls₂, hZ₂⟩, -⟩ := hZ₁.insert (hostsNode_isZero k) hinv (by simp) hr₂
      have h₃ := (KeyFrame.insert hZ₁.load.inv hZ₁.load.keys hkd hr₂).records hZ₁.load.inv
        hZ₁.load.keys h₂
      exact (KeyFrame.insert hZ₂.load.inv hZ₂.load.keys hkd hr₃).records hZ₂.load.inv
        hZ₂.load.keys h₃
  · exact hr ▸ h₂

/-- An entry of the domain is put behind its records. -/
theorem records_self (hD : Loaded es done c) (hz : (zeroAddr, d) ∉ es) (hsub : done ⊆ es)
    (hmem : (addr, d) ∈ es) (hv : invalidKey d = false)
    (hr : insertHostsEntry c addr d = .ok c') (h : c.Records .ipv4 d ns) :
    c'.Records .ipv4 d (ns ++ [hostsNode addr d]) := by
  have hzero : addr ≠ zeroAddr := by
    rintro rfl
    exact hz hmem
  have hP := hD.domain d hv
  rw [if_neg fun hd => hz (hsub hd)] at hP
  obtain ⟨⟨S, cls, hL⟩, -⟩ := hD
  have hL₁ := hL.alloc addr d
  have hp := hL.inv.heap.unlinked_alloc (n := hostsNode addr d) rfl rfl
  have hn : (c.heap.allocNode (hostsNode addr d)).info c.heap.nextNode = some (hostsNode addr d) :=
    by rw [Heap.allocNode_info, Function.update_self]; rfl
  have hO : c.Own .ipv4 d ns := ⟨h, hP.tail⟩
  have hO₁ := hO.untouched (.alloc (n := hostsNode addr d) rfl) fun _ => rfl
  obtain ⟨c₁, hr₁, hr⟩ := insertHostsEntry_eq_ok.mp hr
  rw [if_neg hzero] at hr
  subst hr
  rcases cacheInsert_inserted hL₁.inv.index hr₁ with ⟨hinv, -⟩ | ⟨-, l, τ, hi⟩
  · cases hv.symm.trans hinv
  · exact (hO₁.insert_self hL₁.inv hp hn hi (cacheInsert_inv hL₁.inv.index hr₁)).records

/-- **The loading loop** puts the entries of a domain that is not blocked behind each other. -/
theorem records (hD : Loaded es done c) (hz : (zeroAddr, d) ∉ es) (hv : invalidKey d = false)
    (hdone : done ⊆ es) {todo : List (InAddr × CString)} (hsub : todo ⊆ es)
    (hr : todo.foldlM (fun c e => insertHostsEntry c e.1 e.2) c = .ok c')
    (h : c.Records .ipv4 d ns) : c'.Records .ipv4 d (ns ++ hostsNodes todo .ipv4 d) := by
  induction todo generalizing done c ns with
  | nil =>
    cases hr
    rwa [hostsNodes, if_pos rfl, List.filter_nil, List.map_nil, List.append_nil]
  | cons e todo ih =>
    obtain ⟨addr, k⟩ := e
    rw [List.foldlM_cons] at hr
    obtain ⟨c₁, hr₁, hr⟩ := bind_eq_ok.mp hr
    have hmem := hsub List.mem_cons_self
    have hD₁ := hD.entry hmem hr₁
    have hdone₁ : done ++ [(addr, k)] ⊆ es := List.append_subset.mpr ⟨hdone, by simpa using hmem⟩
    have hsub₁ : todo ⊆ es := fun x hx => hsub (List.mem_cons_of_mem _ hx)
    by_cases hkd : k = d
    · subst hkd
      have h₁ := ih hD₁ hdone₁ hsub₁ hr (hD.records_self hz hdone hmem hv hr₁ h)
      rw [List.append_assoc] at h₁
      rw [hostsNodes, if_pos rfl] at h₁ ⊢
      rwa [List.filter_cons_of_pos (by simp), List.map_cons]
    · have h₁ := ih hD₁ hdone₁ hsub₁ hr (hD.records_other hmem hkd hr₁ h)
      rw [hostsNodes, if_pos rfl] at h₁ ⊢
      rwa [List.filter_cons_of_neg (by simpa using hkd)]

end Loaded

/-- **What the load leaves for a domain** that is not blocked. -/
theorem readHostsFile_own (hload : readHostsFile Cache.init file = .ok c)
    (hz : (zeroAddr, d) ∉ hostsEntries file) (hv : invalidKey d = false) (t : CacheType) :
    c.Own t d (hostsNodes (hostsEntries file) t d) := by
  have hP := (readHostsFile_loaded hload).domain d hv
  rw [if_neg hz] at hP
  by_cases ht : t = .ipv4
  · subst ht
    refine ⟨?_, hP.tail⟩
    have h₀ : Cache.init.Records .ipv4 d [] := .inl ⟨fun l => Cache.init_has _ _ l, rfl⟩
    exact Loaded.init.records hz hv (List.nil_subset _) (List.Subset.refl _)
      (readHostsFile_eq .. ▸ hload) h₀
  · have hno : ∀ l, ¬ c.Has t d l := fun l hl => ht (hP.absent hl)
    rw [hostsNodes, if_neg ht]
    exact ⟨.inl ⟨hno, rfl⟩, fun hl => absurd hl (hno _)⟩

/-! ## What the responses put behind it -/

/-- The records of a response with their sections, in order. -/
def Response.sections (r : Response) : List (RrType × DnsResourceRecord) :=
  r.answer.map (.answer, ·) ++ r.authority.map (.authority, ·) ++ r.additional.map (.additional, ·)

/-- The nodes that a response puts under a type and a key. -/
def Logged.stored (e : Logged) (t : CacheType) (k : CString) : List ListNode :=
  if e.response.header.rcode = ReplyCode.noError.toBits then
    e.response.sections.flatMap fun x => addedNodes t k e.now e.response.question.qname x.1 x.2
  else []

/-- The nodes that the responses of a log put under a type and a key. -/
def learnedNodes (log : List Logged) (t : CacheType) (k : CString) : List ListNode :=
  log.flatMap (·.stored t k)

/-- **What was put under a type and a key** that is not blocked: by the hosts file, and by the
responses. Nothing is put under a key that the guard of the cache drops. -/
def storedNodes (file : List UInt8) (log : List Logged) (t : CacheType) (k : CString) :
    List ListNode :=
  if invalidKey k then [] else hostsNodes (hostsEntries file) t k ++ learnedNodes log t k

/-- What is expired stays expired. -/
theorem ListNode.expired_decays : Decays ListNode.expired := by
  intro now now' h n hn
  simp only [expired, decide_eq_true_eq] at hn ⊢
  exact ⟨hn.1, by omega⟩

/-- A list of its own in a cache that keeps its invariants, `S` being the shared nodes. -/
structure Cache.OwnInv (S : Set ℕ) (es : List (InAddr × CString)) (t : CacheType) (k : CString)
    (ns : List ListNode) (c : Cache) : Prop where
  inv : c.Inv S
  cls : ∃ cls, ClassInv (classOf es) cls c
  own : c.Own t k ns

theorem cacheSection_own (hz : (zeroAddr, k) ∉ es) (hv : invalidKey k = false) {q : CString}
    {rrType : RrType} {rrs : List DnsResourceRecord} {ps : List ℕ} (hO : c.OwnInv S es t k ns)
    (hr : cacheSection now q rrType c rrs = .ok (c', ps)) :
    c'.OwnInv S es t k (ns ++ rrs.flatMap (addedNodes t k now q rrType)) := by
  have h₀ : c.OwnInv S es t k (ns ++ [].flatMap (addedNodes t k now q rrType)) := by
    rwa [List.flatMap_nil, List.append_nil]
  apply cacheSection_induction
    (P := fun done c => c.OwnInv S es t k (ns ++ done.flatMap (addedNodes t k now q rrType)))
    ?_ h₀ hr
  rintro done rr c c' p - ⟨hI, ⟨cls, hC⟩, hO⟩ hr
  obtain ⟨cls', hC', -⟩ := cacheRecord_class hC hI hr
  refine ⟨cacheRecord_inv hI hr, ⟨cls', hC'⟩, ?_⟩
  rw [List.flatMap_append, List.flatMap_singleton, ← List.append_assoc]
  exact hO.record hI hC hz hv hr

/-- **A response** puts its records behind the others. -/
theorem cacheResponse_own (hz : (zeroAddr, k) ∉ es) (hv : invalidKey k = false)
    {response : Response} {nodes : SectionNodes} (hO : c.OwnInv S es t k ns)
    (hr : cacheResponse c now response = .ok (c', nodes)) :
    c'.OwnInv S es t k (ns ++ Logged.stored ⟨now, response, nodes⟩ t k) := by
  by_cases hcode : response.header.rcode = ReplyCode.noError.toBits
  · rw [cacheResponse, if_pos hcode] at hr
    obtain ⟨⟨c₁, as⟩, h₁, hr⟩ := bind_eq_ok.mp hr
    obtain ⟨⟨c₂, ns⟩, h₂, hr⟩ := bind_eq_ok.mp hr
    obtain ⟨⟨c₃, rs⟩, h₃, hr⟩ := bind_eq_ok.mp hr
    cases hr
    have hO₃ := cacheSection_own hz hv (cacheSection_own hz hv (cacheSection_own hz hv hO h₁) h₂) h₃
    rw [Logged.stored, if_pos hcode, Response.sections]
    simpa only [List.flatMap_append, List.flatMap_map, List.append_assoc] using hO₃
  · rw [Logged.stored, if_neg hcode, List.append_nil, cacheResponse_of_error hcode hr]
    exact hO

/-- **A list of a run is its log** without some records that are expired from the last time on. -/
theorem Cache.ClockedRun.swept (hrun : c₀.ClockedRun clock log c) (hz : (zeroAddr, k) ∉ es)
    (hv : invalidKey k = false) (hO : c₀.OwnInv S es t k base) : ∃ ns, c.OwnInv S es t k ns ∧
      SweptFrom ListNode.expired clock (base ++ learnedNodes log t k) ns := by
  induction hrun with
  | start clock =>
    refine ⟨base, hO, ?_⟩
    rw [learnedNodes, List.flatMap_nil, List.append_nil]
    exact .refl _ _
  | response _ hnow hr ih =>
    obtain ⟨ns, hO, hswept⟩ := ih
    refine ⟨_, cacheResponse_own hz hv hO hr, ?_⟩
    rw [learnedNodes, List.flatMap_append, List.flatMap_singleton, ← List.append_assoc]
    exact (hswept.mono hnow).append _
  | @lookup _ _ _ _ _ _ question _ _ hnow hr ih =>
    obtain ⟨ns, ⟨hI, ⟨cls, hC⟩, hO⟩, hswept⟩ := ih
    have hswept := hswept.mono hnow
    rcases handleReadCache_cases hr with ⟨rfl, -⟩ | ⟨t', l, heap, size, _, -, hf, hup, rfl, -⟩
    · exact ⟨ns, ⟨hI, ⟨cls, hC⟩, hO⟩, hswept⟩
    · have hl := (cacheFind_eq_some hI.index hf).1
      have hI' := hI.update (hI.index.live hl) hup
      have hC' := hC.update hI (hI.index.live hl) hup
      by_cases he : (t, k) = (t', question.qname)
      · obtain ⟨rfl, rfl⟩ := Prod.mk.inj he
        exact ⟨_, ⟨hI', ⟨cls, hC'⟩, hO.update_self hI hl hup⟩, hswept.sweep ListNode.expired_decays⟩
      · exact ⟨ns, ⟨hI', ⟨cls, hC'⟩, hO.update_other hI hC hz hl he hup⟩, hswept⟩

/-! ## Replies -/

/-- What `handle_read_cache` sends. -/
def ReadCache.datagram : ReadCache → Option (List UInt8)
  | .miss => none
  | .nameError datagram => some datagram
  | .cached _ _ _ datagram => some datagram

/-- **The reply from the records of given nodes**: none if the header would count no records, an
error if one of them has the zero address, and else the CNAME records and these. -/
def replyOf (now : ℤ) (header : DnsHeader) (question : DnsQuestion) (cname nodes : List ListNode) :
    Option (List UInt8) :=
  let hd := nodes.foldl countNode (cachedHeader header)
  if ¬ hd.hasRecords then none
  else if nodes.any (·.isZero) then some (nameErrorReply header question)
  else some (dumpHeader hd ++ dumpQuestion question ++ (cname ++ nodes).flatMap (dumpNode now))

theorem any_isZero_filter_data (nodes : List ListNode) :
    (nodes.filter (·.data.isSome)).any (·.isZero) = nodes.any (·.isZero) := by
  rw [List.any_filter]
  congr 1
  funext n
  cases hn : n.isZero with
  | false => rw [Bool.and_false]
  | true => rw [ListNode.isSome_of_isZero hn, Bool.and_self]

/-- The reply to a lookup that finds no records, or one with the zero address. -/
theorem replyFrom_datagram {nodes : List (ℕ × ListNode)} {ids : List ℕ} {h : Heap}
    (hnodes : nodes = h.nodesAt ids) (hr : replyFrom c now header question nodes = .ok r) :
    (∃ hd cname datagram, r = .cached hd cname nodes datagram) ∨
      ∀ cname, r.datagram =
        replyOf now header question cname ((h.infosAt ids).filter (·.data.isSome)) := by
  subst hnodes
  rw [replyFrom, foldl_countNode_nodesAt, any_isZero_nodesAt] at hr
  rw [← foldl_countNode_filter_data, ← any_isZero_filter_data] at hr
  split_ifs at hr with hzero hrec
  · cases hr
    right
    intro cname
    rw [replyOf, if_neg (not_not.mpr hzero.1), if_pos hzero.2]
    rfl
  · obtain ⟨cname, -, hr⟩ := bind_eq_ok.mp hr
    cases hr
    exact .inl ⟨_, _, _, rfl⟩
  · cases hr
    right
    intro cname
    rw [replyOf, if_pos hrec]
    rfl

/-- A cached reply is the one from the records that are written and counted. -/
theorem CachedFrom.replyOf {hd : DnsHeader} {cname list : List (ℕ × ListNode)}
    {datagram : List UInt8} {l : ℕ} {ids cids : List ℕ} (hI : c.Inv S)
    (hF : CachedFrom S c now header question hd cname list datagram t l ids cids c')
    (hns : c.Records t question.qname ns) (hcs : c.Records .cname question.qname cs) :
    some datagram = Adrift.replyOf now header question (if question.qtype = 1 then cs else [])
      (alive ListNode.expired now ns) := by
  have hlist := hF.lookup.records hI hns
  have hcounts : hd = (alive ListNode.expired now ns).foldl countNode (cachedHeader header) := by
    rw [hF.counts, ← foldl_countNode_filter_data, hlist]
    rfl
  have hzero : ¬ (alive ListNode.expired now ns).any (·.isZero) = true := by
    rw [List.any_eq_true]
    rintro ⟨n, hn, hz⟩
    rw [alive, ← hlist] at hn
    exact hF.notZero n (List.mem_filter.mp hn).1 hz
  have hwritten : writtenNodes cname list =
      (if question.qtype = 1 then cs else []) ++ alive ListNode.expired now ns := by
    split_ifs with hA
    · obtain rfl := Option.some.inj ((cacheTypeOf_address hA).symm.trans hF.lookup.type)
      exact (hF.written hI hA hns hcs).1
    · have hcids := hF.cnameIds
      rw [Cache.CnameIds, if_neg hA] at hcids
      rw [writtenNodes, List.map_append, List.filter_append, hF.cnameInfos, hF.listInfos, hlist,
        hcids]
      rfl
  rw [Adrift.replyOf, ← hcounts, if_neg (not_not.mpr hF.hasRecords), if_neg hzero, hF.datagram,
    hwritten]

/-- **A reply is written from the unexpired records** of the list, and from the CNAME list. -/
theorem handleReadCache_datagram (hG : c.Good S) (ht : cacheTypeOf question.qtype = some t)
    (hns : c.Records t question.qname ns) (hcs : c.Records .cname question.qname cs)
    (hr : handleReadCache c now header question = .ok (c', r)) :
    r.datagram = replyOf now header question (if question.qtype = 1 then cs else [])
      (alive ListNode.expired now ns) := by
  obtain ⟨o, hlist, hfound⟩ := bind_eq_ok.mp hr
  cases o with
  | none =>
    cases hfound
    have hfind : cacheFind c t question.qname = .ok none := by rwa [questionList, ht] at hlist
    rcases hns with ⟨-, rfl⟩ | ⟨l, -, -, hl, -⟩
    · rfl
    · exact absurd hl (cacheFind_eq_none hfind l)
  | some l =>
    obtain ⟨t', ht', hfind⟩ := questionList_eq_some.mp hlist
    obtain rfl := Option.some.inj (ht.symm.trans ht')
    obtain ⟨ids, hL, hreply⟩ := handleReadCache_found hG.inv ht hfind hr
    rcases replyFrom_datagram rfl hreply with ⟨hd, cname, datagram, rfl⟩ | hdatagram
    · obtain ⟨t', l', ids', cids, hF⟩ := handleReadCache_cached hG hr
      obtain rfl := Option.some.inj (ht.symm.trans hF.lookup.type)
      exact hF.replyOf hG.inv hns hcs
    · rw [hdatagram, hL.infosAt, hL.records hG.inv hns]
      rfl

/-- The lists of a run that a reply is written from. -/
theorem Cache.ClockedRun.records (hload : readHostsFile Cache.init file = .ok c₀)
    (hb : ¬ IsBlocked file k) (hrun : c₀.ClockedRun clock log c) (t : CacheType) :
    ∃ ns, c.Records t k ns ∧ SweptFrom ListNode.expired clock (storedNodes file log t k) ns := by
  cases hv : invalidKey k with
  | true =>
    rw [storedNodes, if_pos hv]
    have hno : ∀ l, ¬ c.Has t k l := fun l hl => Bool.false_ne_true (hl.1.symm.trans hv)
    exact ⟨[], .inl ⟨hno, rfl⟩, .refl _ _⟩
  | false =>
    have hz : (zeroAddr, k) ∉ hostsEntries file := fun hz => hb ⟨hz, hv⟩
    obtain ⟨S, cls, hL⟩ := (readHostsFile_loaded hload).load
    have hO := readHostsFile_own hload hz hv t
    obtain ⟨ns, hO', hswept⟩ := hrun.swept hz hv ⟨hL.inv, ⟨cls, hL.cls⟩, hO⟩
    rw [storedNodes, hv, if_neg Bool.false_ne_true]
    exact ⟨ns, hO'.own.records, hswept⟩

/-- **A reply after a run** is written from the unexpired records of the log, and from a CNAME list
of which only expired records may be missing. -/
theorem handleReadCache_log (hload : readHostsFile Cache.init file = .ok c₀)
    (hb : ¬ IsBlocked file question.qname) (hrun : c₀.ClockedRun clock log c) (hnow : clock ≤ now)
    (ht : cacheTypeOf question.qtype = some t)
    (hr : handleReadCache c now header question = .ok (c', r)) : ∃ ns cname,
      c.Records t question.qname ns ∧ alive ListNode.expired now
          (storedNodes file log t question.qname) = alive ListNode.expired now ns ∧
        SweptFrom ListNode.expired clock (storedNodes file log .cname question.qname) cname ∧
        r.datagram = replyOf now header question (if question.qtype = 1 then cname else [])
          (alive ListNode.expired now (storedNodes file log t question.qname)) := by
  obtain ⟨S, hG₀⟩ := readHostsFile_good hload
  obtain ⟨ns, hns, hswept⟩ := hrun.records hload hb t
  obtain ⟨cs, hcs, hcname⟩ := hrun.records hload hb .cname
  have halive := hswept.alive_eq now hnow
  refine ⟨ns, cs, hns, halive, hcname, ?_⟩
  rw [handleReadCache_datagram (hrun.run.good hG₀) ht hns hcs hr, halive]

/-- **Replies are written from the log**: of a domain that is not blocked, a query is answered from
what the hosts file and the responses said and is not expired, behind CNAME records of which only
expired ones may be missing. -/
theorem cachedReply_of_log (hload : readHostsFile Cache.init file = .ok c₀)
    (hz : (zeroAddr, question.qname) ∉ hostsEntries file) (hrun : c₀.ClockedRun clock log c)
    (hnow : clock ≤ now) (ht : cacheTypeOf question.qtype = some t)
    (hr : handleReadCache c now header question = .ok (c', r)) : ∃ cname,
      SweptFrom ListNode.expired clock (storedNodes file log .cname question.qname) cname ∧
        r.datagram = replyOf now header question (if question.qtype = 1 then cname else [])
          (alive ListNode.expired now (storedNodes file log t question.qname)) := by
  have hb : ¬ IsBlocked file question.qname := fun hb => hz hb.1
  obtain ⟨_, cname, -, -, hcname, hdatagram⟩ := handleReadCache_log hload hb hrun hnow ht hr
  exact ⟨cname, hcname, hdatagram⟩

theorem cachedReply_of_log_alias : ∃ c₀ log c c' r cname,
    readHostsFile Cache.init [] = .ok c₀ ∧ c₀.ClockedRun 0 log c ∧
      handleReadCache c 10 getDefaultHeader addressQuestion = .ok (c', r) ∧
      SweptFrom ListNode.expired 0 (storedNodes [] log .cname addressQuestion.qname) cname ∧
        r.datagram = replyOf 10 getDefaultHeader addressQuestion cname
          (alive ListNode.expired 10 (storedNodes [] log .ipv4 addressQuestion.qname)) := by
  obtain ⟨c, c', hd, cname, list, datagram, hresp, hread, -⟩ := aliasReply
  have hload : readHostsFile Cache.init [] = .ok Cache.init := rfl
  have hrun : Cache.init.ClockedRun 0 _ c := .response (.start 0) le_rfl hresp
  obtain ⟨cname, h⟩ := cachedReply_of_log hload List.not_mem_nil hrun (by decide) rfl hread
  exact ⟨_, _, c, c', _, cname, hload, hrun, hread, h⟩

/-- The log is the same. -/
def SameResponses (log log' : List Logged) : Prop :=
  log.map (fun e => (e.now, e.response)) = log'.map fun e => (e.now, e.response)

theorem SameResponses.learnedNodes {log' : List Logged} (h : SameResponses log log')
    (t : CacheType) (k : CString) : learnedNodes log t k = Adrift.learnedNodes log' t k := by
  have hof : ∀ log : List Logged, Adrift.learnedNodes log t k =
      (log.map fun e => (e.now, e.response)).flatMap
        fun e => Logged.stored ⟨e.1, e.2, ⟨[], [], []⟩⟩ t k := by
    intro log
    rw [List.flatMap_map]
    rfl
  rw [hof, hof, h]

/-- **Lookups cannot be observed**: after the same responses a query is answered alike, whatever was
looked up before. An A query is, as long as no CNAME record of the name is expired: an update of
their list may have dropped it. -/
theorem lookups_unobservable {log' : List Logged} {c₁ c₁' : Cache} {clock' : ℤ} {r' : ReadCache}
    (hload : readHostsFile Cache.init file = .ok c₀)
    (hz : (zeroAddr, question.qname) ∉ hostsEntries file) (hrun : c₀.ClockedRun clock log c)
    (hrun' : c₀.ClockedRun clock' log' c₁) (hlog : SameResponses log log') (hnow : clock ≤ now)
    (hnow' : clock' ≤ now)
    (hcname : question.qtype = 1 →
      ∀ n ∈ storedNodes file log .cname question.qname, n.expired now = false)
    (hr : handleReadCache c now header question = .ok (c', r))
    (hr' : handleReadCache c₁ now header question = .ok (c₁', r')) : r.datagram = r'.datagram := by
  have hstored : ∀ t, storedNodes file log' t question.qname =
      storedNodes file log t question.qname := by
    intro t
    rw [storedNodes, storedNodes, hlog.learnedNodes]
  cases ht : cacheTypeOf question.qtype with
  | none =>
    have hmiss : ∀ {c c' r}, handleReadCache c now header question = .ok (c', r) → r = .miss := by
      intro c c' r hr
      rw [handleReadCache, questionList, ht] at hr
      cases hr
      rfl
    rw [hmiss hr, hmiss hr']
  | some t =>
    have hb : ¬ IsBlocked file question.qname := fun hb => hz hb.1
    obtain ⟨_, cs, -, -, hcswept, hdatagram⟩ := handleReadCache_log hload hb hrun hnow ht hr
    obtain ⟨_, cs', -, -, hcswept', hdatagram'⟩ := handleReadCache_log hload hb hrun' hnow' ht hr'
    rw [hstored] at hcswept' hdatagram'
    rw [hdatagram, hdatagram']
    split_ifs with hA
    · rw [(hcswept.mono hnow).eq_of_alive (hcname hA),
        (hcswept'.mono hnow').eq_of_alive (hcname hA)]
    · rfl

theorem lookups_unobservable_alias : ∃ c c' c₁ c₁' r r' log,
    Cache.init.ClockedRun 0 log c ∧ Cache.init.ClockedRun 10 log c₁ ∧
      handleReadCache c 20 getDefaultHeader addressQuestion = .ok (c', r) ∧
      handleReadCache c₁ 20 getDefaultHeader addressQuestion = .ok (c₁', r') ∧
      r.datagram = r'.datagram ∧ r'.datagram.isSome := by
  obtain ⟨c, c', c₁, c₁', r, r', r₀, hresp, hread, hr, hr', hsome⟩ : ∃ c c' c₁ c₁' r r' r₀,
      cacheResponse Cache.init 0 aliasResponse = .ok (c, ⟨[0, 2], [], []⟩) ∧
        handleReadCache c 10 getDefaultHeader addressQuestion = .ok (c₁, r₀) ∧
        handleReadCache c 20 getDefaultHeader addressQuestion = .ok (c', r) ∧
        handleReadCache c₁ 20 getDefaultHeader addressQuestion = .ok (c₁', r') ∧
        r'.datagram.isSome :=
    ⟨_, _, _, _, _, _, _, rfl, rfl, rfl, rfl, rfl⟩
  have hload : readHostsFile Cache.init [] = .ok Cache.init := rfl
  have hrun : Cache.init.ClockedRun 0 _ c := .response (.start 0) le_rfl hresp
  have hrun' : Cache.init.ClockedRun 10 _ c₁ := .lookup hrun (by decide) hread
  have hsame := lookups_unobservable hload List.not_mem_nil hrun hrun' rfl (by decide) (by decide)
    (fun _ => by decide) hr hr'
  exact ⟨c, c', c₁, c₁', r, r', _, hrun, hrun', hr, hr', hsame, hsome⟩

end Adrift
