import Adrift.Lib.DomainName
import Adrift.Protocol.Blacklist
import Adrift.Protocol.Freshness
import Mathlib.Logic.Relation

/-!
# Answers from the cache

The records of a response are cached under the name of its question and their own type. A reply
answers its question when it brings an answer of the queried type, and the CNAME records that lead
to the owners of its answers.

## Main definitions

* `PlainTarget rr b`: the RDATA of a CNAME record is the uncompressed name `b`
* `Coherent`: the owners of the answers of a response are reached from its question
* `AnswersQuestion`: the same for the nodes of a reply
* `Cache.AnswersFit log c now question`: the condition on the cache under which replies answer

## Main results

* `Cache.Run.classes`: the nodes of a list come from the hosts file, or from records of its type
  and of questions for its name
* `cachedReply_answers`: cached replies answer their question when the answers fit
-/

namespace Adrift

open Outcome

/-! ## The lists of learned records -/

/-- The class of the node of a record. -/
def recordClass (es : List (InAddr × CString)) (k : CString) (rr : DnsResourceRecord) :
    Option CacheType × CString :=
  match cacheTypeOf rr.type with
  | none => (none, k)
  | some t => classOf es t k

variable {es : List (InAddr × CString)} {S : Set ℕ} {cls : ℕ → Option CacheType × CString}
  {c₀ c c' : Cache} {log : List Logged} {now : ℤ} {p : ℕ} {header hd : DnsHeader}
  {question : DnsQuestion} {cname list : List (ℕ × ListNode)} {datagram : List UInt8}

/-- Classes that are the same on the nodes allocated before. -/
def Agree (c : Cache) (cls cls' : ℕ → Option CacheType × CString) : Prop :=
  ∀ x < c.heap.nextNode, cls' x = cls x

theorem cacheRecord_class (hC : ClassInv (classOf es) cls c) (hI : c.Inv S) {qname : CString}
    {rrType : RrType} {rr : DnsResourceRecord}
    (hr : cacheRecord now qname rrType c rr = .ok (c', p)) :
    ∃ cls', ClassInv (classOf es) cls' c' ∧ Agree c cls cls' ∧
      cls' p = recordClass es qname rr := by
  have hC₁ := hC.alloc (n := recordNode now rrType rr) hI rfl (recordClass es qname rr)
  have hI₁ := hI.alloc (n := recordNode now rrType rr) rfl rfl
  have hold : Agree c cls (Function.update cls c.heap.nextNode (recordClass es qname rr)) :=
    fun x hx => Function.update_of_ne hx.ne ..
  obtain ⟨rfl, ⟨-, rfl⟩ | ⟨t, ht, hins⟩⟩ := cacheRecord_cases hr
  · exact ⟨_, hC₁, hold, Function.update_self ..⟩
  · have hp : Function.update cls c.heap.nextNode (recordClass es qname rr) c.heap.nextNode =
        classOf es t qname := by
      rw [Function.update_self, recordClass, ht]
    obtain ⟨cls', hC', hagree⟩ := hC₁.insert hI₁ hp (Nat.lt_succ_self _) hins
    refine ⟨cls', hC', fun x hx => (hagree x (hx.trans (Nat.lt_succ_self _))).trans (hold x hx), ?_⟩
    rw [hagree _ (Nat.lt_succ_self _), Function.update_self]

theorem cacheSection_class (hC : ClassInv (classOf es) cls c) (hI : c.Inv S) {qname : CString}
    {rrType : RrType} {rrs : List DnsResourceRecord} {ps : List ℕ}
    (hr : cacheSection now qname rrType c rrs = .ok (c', ps)) :
    ∃ cls', ClassInv (classOf es) cls' c' ∧ Agree c cls cls' ∧
      ∀ x ∈ sectionRecords rrType ps rrs, cls' x.1 = recordClass es qname x.2.2 := by
  induction rrs generalizing c cls ps with
  | nil =>
    cases hr
    exact ⟨cls, hC, fun _ _ => rfl, fun x hx => nomatch hx⟩
  | cons rr rrs ih =>
    obtain ⟨⟨c₁, p⟩, hrec, hr⟩ := bind_eq_ok.mp hr
    obtain ⟨⟨c₂, ps⟩, hsec, hr⟩ := bind_eq_ok.mp hr
    cases hr
    obtain ⟨cls₁, hC₁, hagree₁, hp⟩ := cacheRecord_class hC hI hrec
    have hext := cacheRecord_extends hI.index hrec
    obtain ⟨cls₂, hC₂, hagree₂, hps⟩ := ih hC₁ (cacheRecord_inv hI hrec) hsec
    refine ⟨cls₂, hC₂, fun x hx => (hagree₂ x (hx.trans_le hext.next)).trans (hagree₁ x hx), ?_⟩
    rintro x hx
    rcases List.mem_cons.mp hx with rfl | hx
    · have hlive := (hext.mem (List.mem_singleton_self _)).2
      exact (hagree₂ p (Heap.lt_of_isSome (Heap.isSome_of_info hlive))).trans hp
    · exact hps x hx

theorem cacheResponse_class (hC : ClassInv (classOf es) cls c) (hI : c.Inv S) {r : Response}
    {nodes : SectionNodes} (hr : cacheResponse c now r = .ok (c', nodes)) :
    ∃ cls', ClassInv (classOf es) cls' c' ∧ Agree c cls cls' ∧
      ∀ x ∈ Logged.records ⟨now, r, nodes⟩, cls' x.1 = recordClass es r.question.qname x.2.2 := by
  rw [cacheResponse] at hr
  split_ifs at hr
  · obtain ⟨⟨c₁, as⟩, h₁, hr⟩ := bind_eq_ok.mp hr
    obtain ⟨⟨c₂, ns⟩, h₂, hr⟩ := bind_eq_ok.mp hr
    obtain ⟨⟨c₃, rs⟩, h₃, hr⟩ := bind_eq_ok.mp hr
    cases hr
    obtain ⟨hI₁, hext₁⟩ := cacheSection_extends hI h₁
    obtain ⟨hI₂, hext₂⟩ := cacheSection_extends hI₁ h₂
    obtain ⟨cls₁, hC₁, ha₁, hx₁⟩ := cacheSection_class hC hI h₁
    obtain ⟨cls₂, hC₂, ha₂, hx₂⟩ := cacheSection_class hC₁ hI₁ h₂
    obtain ⟨cls₃, hC₃, ha₃, hx₃⟩ := cacheSection_class hC₂ hI₂ h₃
    -- a later section does not change the class of a node of an earlier one
    have ha₂₃ : Agree c₁ cls₁ cls₃ := fun x hx =>
      (ha₃ x (hx.trans_le hext₂.next)).trans (ha₂ x hx)
    have hlt : ∀ {c c' : Cache} {xs : List (ℕ × RrType × DnsResourceRecord)},
        Extends c c' (recordNodesAt now xs) → ∀ x ∈ xs, x.1 < c'.heap.nextNode := by
      intro c c' xs hext x hx
      exact Heap.lt_of_isSome (Heap.isSome_of_info (hext.mem (List.mem_map_of_mem hx)).2)
    refine ⟨cls₃, hC₃, fun x hx => (ha₂₃ x (hx.trans_le hext₁.next)).trans (ha₁ x hx), ?_⟩
    intro x hx
    rcases List.mem_append.mp hx with hx | hx
    · rcases List.mem_append.mp hx with hx | hx
      · exact (ha₂₃ _ (hlt hext₁ x hx)).trans (hx₁ x hx)
      · exact (ha₃ _ (hlt hext₂ x hx)).trans (hx₂ x hx)
    · exact hx₃ x hx
  · cases hr
    exact ⟨cls, hC, fun _ _ => rfl, fun _ hx => absurd hx List.not_mem_nil⟩

/-- **A run keeps the classes**: the node of a record is in the class of its type, and of the name
of the question. -/
theorem Cache.Run.classes (hrun : c₀.Run log c) (hI : c₀.Inv S)
    (hC : ClassInv (classOf es) cls c₀) : ∃ cls, ClassInv (classOf es) cls c ∧
      ∀ e ∈ log, ∀ x ∈ e.records, cls x.1 = recordClass es e.response.question.qname x.2.2 := by
  induction hrun with
  | start => exact ⟨cls, hC, fun e he => nomatch he⟩
  | @response log c c' now r nodes hrun hr ih =>
    obtain ⟨cls, hC, hlog⟩ := ih
    obtain ⟨hI, hL⟩ := hrun.logInv hI
    obtain ⟨cls', hC', hagree, hx'⟩ := cacheResponse_class hC hI hr
    refine ⟨cls', hC', fun e he x hx => ?_⟩
    rcases List.mem_append.mp he with he | he
    · exact (hagree _ (hL.learned he hx).2.1).trans (hlog e he x hx)
    · obtain rfl := List.mem_singleton.mp he
      exact hx' x hx
  | @lookup log c c' now header question r hrun hr ih =>
    obtain ⟨cls, hC, hlog⟩ := ih
    obtain ⟨hI, -⟩ := hrun.logInv hI
    rcases handleReadCache_lookup hI hr with ⟨rfl, -⟩ | ⟨t, l, ids, hL, -⟩
    · exact ⟨cls, hC, hlog⟩
    · obtain ⟨heap, size, hup, rfl⟩ := hL.update
      exact ⟨cls, hC.update hI (hI.index.live hL.has) hup, hlog⟩

/-! ## Answers -/

/-- **The uncompressed name `b`** is the RDATA of the record. -/
def PlainTarget (rr : DnsResourceRecord) (b : CString) : Prop :=
  ∃ ls, (∀ l ∈ ls, DomainName.IsLabel l) ∧ rr.rdata = DomainName.wire ls ∧
    b = .ofBlock (DomainName.text ls)

theorem PlainTarget.unique {rr : DnsResourceRecord} {b b' : CString} (h : PlainTarget rr b)
    (h' : PlainTarget rr b') : b = b' := by
  obtain ⟨ls, hls, hw, rfl⟩ := h
  obtain ⟨ks, hks, hw', rfl⟩ := h'
  rw [DomainName.wire_inj hls hks (hw.symm.trans hw')]

/-- A CNAME record among `records` leads from `a` to `b`, the RDATA being read by `reads`. -/
def AliasOf (records : DnsResourceRecord → Prop) (reads : DnsResourceRecord → CString → Prop)
    (a b : CString) : Prop :=
  ∃ rr, records rr ∧ rr.type = 5 ∧ rr.name = a ∧ reads rr b

/-- **A coherent response**: unless it is an error, its CNAME answers lead from the name of its
question to the owners of its answers. -/
def Coherent (reads : DnsResourceRecord → CString → Prop) (r : Response) : Prop :=
  r.header.rcode = ReplyCode.noError.toBits → ∀ rr ∈ r.answer,
    Relation.ReflTransGen (AliasOf (· ∈ r.answer) reads) r.question.qname rr.name

/-- **A reply that answers its question**: it has an answer of the queried type, and its CNAME
records lead from the name of the question to the owners of its answers. -/
def AnswersQuestion (question : DnsQuestion) (nodes : List ListNode) : Prop :=
  (∃ n ∈ nodes, n.type = some .answer ∧ ∃ rr, n.data = some rr ∧ rr.type = question.qtype) ∧
    ∀ n ∈ nodes, n.type = some .answer → ∀ rr, n.data = some rr →
      Relation.ReflTransGen (AliasOf (fun rr => ∃ m ∈ nodes, m.data = some rr) PlainTarget)
        question.qname rr.name

/-- The records at the nodes `ids` were learned since `c₀`. -/
def Cache.FromLearned (c₀ c : Cache) (ids : List ℕ) : Prop :=
  ∀ i ∈ ids, ∀ n, c.heap.info i = some n → n.data.isSome → c₀.heap.nextNode ≤ i

/-- **The answers fit**: the list of the queried type has an unexpired answer; and for every
answer that the reply contains, the name of the question owns it, or the reply also contains all
CNAME answers of its response, uncompressed. -/
def Cache.AnswersFit (log : List Logged) (c : Cache) (now : ℤ) (question : DnsQuestion) : Prop :=
  ∀ cids t l ids, c.CnameIds question cids → cacheTypeOf question.qtype = some t →
    c.Has t question.qname l → c.heap.Chain l ids →
      (∃ n ∈ c.heap.infosAt (ids.filter (!c.heap.expiredAt now ·)), n.type = some .answer) ∧
      ∀ e ∈ log, ∀ i rr, (i, .answer, rr) ∈ e.records →
        i ∈ cids ++ ids.filter (!c.heap.expiredAt now ·) → rr.name = question.qname ∨
          ∀ j rr', (j, .answer, rr') ∈ e.records → rr'.type = 5 →
            j ∈ cids ++ ids.filter (!c.heap.expiredAt now ·) ∧ ∃ b, PlainTarget rr' b

theorem cacheTypeOf_inj {a b : UInt16} {t : CacheType} (ha : cacheTypeOf a = some t)
    (hb : cacheTypeOf b = some t) : a = b := by
  rw [cacheTypeOf] at ha hb
  cases t <;> split_ifs at ha hb <;> simp_all

/-- A cached reply is not about a blocked name. -/
theorem CachedFrom.not_zero {file : List UInt8}
    (hload : readHostsFile Cache.init file = .ok c₀) (hrun : c₀.Run log c) {t : CacheType} {l : ℕ}
    {ids cids : List ℕ}
    (hF : CachedFrom S c now header question hd cname list datagram t l ids cids c') :
    (zeroAddr, question.qname) ∉ hostsEntries file := by
  intro hmem
  obtain ⟨S', cls, hLoad⟩ := (readHostsFile_loaded hload).load
  have hz := readHostsFile_zeroed hload ⟨hmem, hF.lookup.has.1⟩
  obtain ⟨hI, z, front, hB⟩ := hrun.blocks hLoad.inv (hz.blocks hLoad)
  obtain ⟨n, hn, hzero⟩ := hB.mem_kept hI hF.lookup.has hF.lookup.chain now
  exact hF.notZero n hn hzero

/-- **The learned nodes of a list** come from records of its type, in responses to questions for
its name. -/
theorem LogInv.of_chain (hL : LogInv c₀ log c) (hC : ClassInv (classOf es) cls c)
    (hlog : ∀ e ∈ log, ∀ x ∈ e.records, cls x.1 = recordClass es e.response.question.qname x.2.2)
    {t : CacheType} {k : CString} {l : ℕ} {ids : List ℕ} (hk : (zeroAddr, k) ∉ es)
    (hl : c.Has t k l) (hc : c.heap.Chain l ids) {i : ℕ} (hi : i ∈ ids) {n : ListNode}
    (hn : c₀.LearnedNode c i n) : ∃ e ∈ log, ∃ x ∈ e.records, x.1 = i ∧
      n = recordNode e.now x.2.1 x.2.2 ∧ e.response.question.qname = k ∧
      cacheTypeOf x.2.2.type = some t := by
  obtain ⟨-, e, he, x, hx, rfl, rfl⟩ := hL.learnedNode_iff.mp hn
  refine ⟨e, he, x, hx, rfl, rfl, ?_⟩
  have hclass := (hlog e he x hx).symm.trans (hC.mem_chain hl hc _ hi)
  rw [recordClass, classOf, if_neg hk] at hclass
  cases ht : cacheTypeOf x.2.2.type with
  | none =>
    rw [ht] at hclass
    cases hclass
  | some t' =>
    rw [ht] at hclass
    obtain ⟨htype, hkey⟩ := Prod.mk.inj hclass
    rw [hkey, if_neg hk] at htype
    exact ⟨hkey, htype⟩

/-- The nodes of a reply are on lists of the name of the question. -/
theorem CachedFrom.exists_chain {t : CacheType} {l : ℕ} {ids cids : List ℕ}
    (hF : CachedFrom S c now header question hd cname list datagram t l ids cids c') {i : ℕ}
    (hi : i ∈ cids ++ ids.filter (!c.heap.expiredAt now ·)) :
    ∃ t l ids, c.Has t question.qname l ∧ c.heap.Chain l ids ∧ i ∈ ids := by
  rcases List.mem_append.mp hi with hi | hi
  · have hcids := hF.cnameIds
    rw [Cache.CnameIds] at hcids
    split_ifs at hcids
    · rcases hcids with ⟨l', hl', hc'⟩ | ⟨-, rfl⟩
      · exact ⟨_, l', cids, hl', hc', hi⟩
      · cases hi
    · rw [hcids] at hi
      cases hi
  · exact ⟨t, l, ids, hF.lookup.has, hF.lookup.chain, List.mem_of_mem_filter hi⟩

/-- **Cached replies answer their question** when they are written from learned records, the
responses were coherent, and the answers fit. The RDATA of the responses may be read in any way
that reads an uncompressed name as that name. -/
theorem cachedReply_answers {file : List UInt8} (hload : readHostsFile Cache.init file = .ok c₀)
    (hrun : c₀.Run log c) {reads : Logged → DnsResourceRecord → CString → Prop}
    (hreads : ∀ e rr b b', reads e rr b → PlainTarget rr b' → b = b')
    (hcoh : ∀ e ∈ log, Coherent (reads e) e.response)
    (hr : handleReadCache c now header question = .ok (c', .cached hd cname list datagram))
    (hlearned : c₀.FromLearned c ((cname ++ list).map Prod.fst))
    (hfit : c.AnswersFit log now question) :
    AnswersQuestion question (writtenNodes cname list) := by
  obtain ⟨S, cls₀, hLoad⟩ := (readHostsFile_loaded hload).load
  have hG := hrun.good ⟨hLoad.inv, hLoad.shared⟩
  have hL := (hrun.logInv hLoad.inv).2
  obtain ⟨cls, hC, hlog⟩ := hrun.classes hLoad.inv hLoad.cls
  obtain ⟨t, l, ids, cids, hF⟩ := handleReadCache_cached hG hr
  have hnz := hF.not_zero hload hrun
  -- the lists that the reply is written from are those of the condition
  obtain ⟨⟨n₀, hn₀, htype₀⟩, hanswers⟩ :=
    hfit cids t l ids hF.cnameIds hF.lookup.type hF.lookup.has hF.lookup.chain
  rw [List.map_append, hF.cnameFst, hF.listFst] at hlearned
  have hlive := hF.live
  rw [List.map_append, hF.cnameFst, hF.listFst] at hlive
  refine ⟨?_, fun n hn htype rr hrr => ?_⟩
  · -- the list found has records of the queried type only
    obtain ⟨i, hi, hi₀⟩ := Heap.mem_infosAt.mp hn₀
    have hd₀ : n₀.data.isSome := by rw [n₀.typed, htype₀, Option.isSome_some]
    have hW := List.mem_append_right cids hi
    obtain ⟨e, he, x, hx, rfl, rfl, -, ht⟩ := hL.of_chain hC hlog hnz hF.lookup.has hF.lookup.chain
      (List.mem_filter.mp hi).1 ⟨hlearned i hW _ hi₀ hd₀, hi₀, hd₀⟩
    exact ⟨_, hF.mem_written.mpr ⟨hd₀, _, hW, hi₀⟩, htype₀, _, rfl,
      cacheTypeOf_inj ht hF.lookup.type⟩
  · obtain ⟨hd, i, hi, hin⟩ := hF.mem_written.mp hn
    obtain ⟨t', l', ids', hl', hc', hi'⟩ := hF.exists_chain hi
    obtain ⟨e, he, ⟨j, rrType, rr'⟩, hx, rfl, rfl, hq, -⟩ :=
      hL.of_chain hC hlog hnz hl' hc' hi' ⟨hlearned i hi n hin hd, hin, hd⟩
    obtain rfl : rrType = .answer := Option.some.inj htype
    obtain rfl : rr' = rr := Option.some.inj hrr
    rcases hanswers e he _ _ hx hi with hown | hall
    · rw [hown]
    · -- the CNAME records of the response are all in the reply
      obtain ⟨hcode, hnodes⟩ := hL.complete he hx
      rw [← hq]
      have hpath := hcoh e he hcode _ (Logged.mem_answer hx)
      refine Relation.ReflTransGen.mono (fun a b hab => ?_) _ _ hpath
      obtain ⟨rr₁, hrr₁, htype, hname, hb⟩ := hab
      obtain ⟨p, hp⟩ := hnodes rr₁ hrr₁
      obtain ⟨hpW, b', hb'⟩ := hall p rr₁ hp htype
      obtain rfl := hreads e rr₁ b b' hb hb'
      obtain ⟨m, hm⟩ := Heap.exists_info (hlive p hpW)
      obtain rfl := (hL.learned he hp).2.2 m hm
      exact ⟨rr₁, ⟨_, hF.mem_written.mpr ⟨rfl, p, hpW, hm⟩, rfl⟩, htype, hname, hb'⟩

theorem aliasRecord_plainTarget : PlainTarget aliasRecord addressRecord.name :=
  ⟨[ascii "c", ascii "d"], by decide, rfl, rfl⟩

theorem aliasResponse_coherent : Coherent PlainTarget aliasResponse := by
  intro _ rr hrr
  have hstep : AliasOf (· ∈ aliasResponse.answer) PlainTarget aliasResponse.question.qname
      addressRecord.name :=
    ⟨aliasRecord, by simp [aliasResponse], rfl, rfl, aliasRecord_plainTarget⟩
  simp only [aliasResponse, List.mem_cons, List.not_mem_nil, or_false] at hrr
  rcases hrr with rfl | rfl
  · exact .refl
  · exact .single hstep

theorem cachedReply_answers_alias : ∃ c₀ log c c' hd cname list datagram,
    readHostsFile Cache.init [] = .ok c₀ ∧ c₀.Run log c ∧
      handleReadCache c 10 getDefaultHeader addressQuestion =
        .ok (c', .cached hd cname list datagram) ∧
      AnswersQuestion addressQuestion (writtenNodes cname list) := by
  obtain ⟨c, c', hd, cname, list, datagram, hresp, hread, hcname, hlist, htypes⟩ := aliasReply
  have hload : readHostsFile Cache.init [] = .ok Cache.init := rfl
  have hrun : Cache.init.Run _ c := .response .start hresp
  have hreads : ∀ (_ : Logged) rr b b', PlainTarget rr b → PlainTarget rr b' → b = b' :=
    fun _ _ _ _ => PlainTarget.unique
  refine ⟨_, _, c, c', hd, cname, list, datagram, hload, hrun, hread,
    cachedReply_answers hload hrun hreads ?_ hread (fun _ _ _ _ _ => Nat.zero_le _) ?_⟩
  · intro e he
    obtain rfl := List.mem_singleton.mp he
    exact aliasResponse_coherent
  · intro cids t l ids hcids ht hl hc
    -- the lists of the reply
    have hG : Cache.Good ∅ c := hrun.good ⟨Cache.Inv.init, fun h => h.elim⟩
    obtain ⟨t', l', ids', cids', hF⟩ := handleReadCache_cached hG hread
    obtain ⟨rfl, rfl, rfl⟩ := hF.lookup.unique hG.inv.index ht hl hc
    obtain rfl := hcids.unique hG.inv.index hF.cnameIds
    rw [← hF.listInfos, ← hF.listFst, ← hF.cnameFst, hcname, hlist]
    refine ⟨?_, fun e he i rr hx _ => ?_⟩
    · have hmem : some RrType.answer ∈ list.map (·.2.type) := by simp [htypes]
      obtain ⟨x, hx, hxt⟩ := List.mem_map.mp hmem
      exact ⟨_, List.mem_map_of_mem hx, hxt⟩
    · obtain rfl := List.mem_singleton.mp he
      have halias : ∀ j rr',
          (j, .answer, rr') ∈ Logged.records ⟨0, aliasResponse, ⟨[0, 2], [], []⟩⟩ →
            (j = 0 ∧ rr' = aliasRecord) ∨ (j = 2 ∧ rr' = addressRecord) := by
        intro j rr' hx
        simpa [Logged.records, sectionRecords, aliasResponse] using hx
      rcases halias i rr hx with ⟨-, rfl⟩ | ⟨-, rfl⟩
      · exact .inl rfl
      · refine .inr fun j rr' hx h5 => ?_
        rcases halias j rr' hx with ⟨rfl, rfl⟩ | ⟨-, rfl⟩
        · exact ⟨by decide, _, aliasRecord_plainTarget⟩
        · cases h5

/-- The address of `c.d.`, for an AAAA query. -/
def longAddressRecord : DnsResourceRecord where
  name := .ofBlock (ascii "c.d.")
  type := 28
  rclass := 1
  ttl := 60
  rdlength := 16
  rdata := [32, 1, 13, 184, 0, 0, 0, 0, 0, 0, 0, 0, 0, 0, 0, 1]
  rdata_length := rfl

/-- The response to an AAAA query for `a.b.`. -/
def longAliasResponse : Response :=
  { aliasResponse with
    question := { addressQuestion with qtype := 28 }
    answer := [aliasRecord, longAddressRecord]
    answer_length := by decide }

theorem not_answersQuestion_longAlias : ¬ ∀ file c₀ clock log c now header question c' hd cname list
    datagram, readHostsFile Cache.init file = .ok c₀ → c₀.ClockedRun clock log c → clock ≤ now →
      (∀ e ∈ log, Coherent PlainTarget e.response) →
        handleReadCache c now header question = .ok (c', .cached hd cname list datagram) →
          c₀.FromLearned c ((cname ++ list).map Prod.fst) →
            AnswersQuestion question (writtenNodes cname list) := by
  intro hall
  obtain ⟨c, c', hd, cname, list, datagram, hresp, hread, hwritten⟩ : ∃ c c' hd cname list datagram,
      cacheResponse Cache.init 0 longAliasResponse = .ok (c, ⟨[0, 2], [], []⟩) ∧
        handleReadCache c 10 getDefaultHeader longAliasResponse.question =
          .ok (c', .cached hd cname list datagram) ∧
        (writtenNodes cname list).map (fun n => (n.type, n.data)) =
          [(some .answer, some longAddressRecord)] :=
    ⟨_, _, _, _, _, _, rfl, rfl, rfl⟩
  have hcoh : Coherent PlainTarget longAliasResponse := by
    intro _ rr hrr
    have hstep : AliasOf (· ∈ longAliasResponse.answer) PlainTarget
        longAliasResponse.question.qname longAddressRecord.name :=
      ⟨aliasRecord, by simp [longAliasResponse], rfl, rfl, aliasRecord_plainTarget⟩
    simp only [longAliasResponse, List.mem_cons, List.not_mem_nil, or_false] at hrr
    rcases hrr with rfl | rfl
    · exact .refl
    · exact .single hstep
  obtain ⟨-, hanswers⟩ := hall [] _ _ _ c 10 _ _ _ _ _ _ _ rfl
    (.response (.start 0) (le_refl (0 : ℤ)) hresp) (by decide)
    (fun e he => List.mem_singleton.mp he ▸ hcoh) hread (fun _ _ _ _ _ => Nat.zero_le _)
  -- the reply has no CNAME record
  have honly : ∀ n ∈ writtenNodes cname list, n.data = some longAddressRecord := by
    intro n hn
    have hn := List.mem_map_of_mem (f := fun n : ListNode => (n.type, n.data)) hn
    rw [hwritten, List.mem_singleton, Prod.mk.injEq] at hn
    exact hn.2
  obtain ⟨n, hn, hnode⟩ := List.mem_map.mp (hwritten ▸ List.mem_singleton_self _ :
    (some RrType.answer, some longAddressRecord) ∈
      (writtenNodes cname list).map fun n => (n.type, n.data))
  obtain ⟨htype, hdata⟩ := Prod.mk.inj hnode
  rcases (hanswers n hn htype _ hdata).cases_head with heq | ⟨b, ⟨rr, ⟨m, hm, hrr⟩, h5, -⟩, -⟩
  · exact absurd heq (by decide)
  · obtain rfl := Option.some.inj ((honly m hm).symm.trans hrr)
    cases h5

end Adrift
