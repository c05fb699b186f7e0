import Mathlib
import Adrift.Protocol.CacheLog
import Adrift.Protocol.Messages

/-!
# Replies from the cache as messages

What an upstream response says is learned, and said again. As long as it is fresh, and the only one
for its name, a query for a cached type is answered by a message with the records of this type, in
their sections, and with the time they have left. For a blocked name the reply is a message too,
with an error.

## Main definitions

* `Serves now rrType n r`: the node `n` is counted in a section, and written as `r`
* `replyMessage id q answer authority additional`: what a cached reply says
* `servedRecords t t₀ now rs`: the records cached under `t`, with the time they have left
* `Servable msg m q t t₀ now`: a response that can be served

## Main results

* `replyOf_message`: a reply from nodes that serve records is a message
* `learnedResponse_served`: a response is said again
* `blockedName_message`: a query for a blocked name is answered by a name error message
-/

namespace Adrift

open BigEndian DnsMessage DomainName ExpiringLog Outcome

variable {file msg query : List UInt8} {c₀ : Cache} {s : Server} {t : CacheType} {d : CString}
  {as ns rs : List ListNode} {now t₀ clock : ℤ} {log₁ log₂ : List Logged} {header : DnsHeader}
  {response : Response} {nodes : SectionNodes} {rrType : RrType} {rrs : List DnsResourceRecord}
  {answer authority additional records : List Record} {m m' : Message} {q q' : Question}

/-! ## Replies -/

/-- **A node serves a record**: it is counted in the section, and written as the record. -/
structure Serves (now : ℤ) (rrType : RrType) (n : ListNode) (r : Record) : Prop where
  type : n.type = some rrType
  labels : ∀ l ∈ r.owner, IsPlainLabel l
  data : ∃ rr, n.data = some rr ∧ Holds (agedRecord now n rr) r

theorem Serves.dump {n : ListNode} {r : Record} (h : Serves now rrType n r) :
    dumpNode now n = r.written := by
  obtain ⟨rr, hdata, hholds⟩ := h.data
  rw [dumpNode, hdata]
  exact hholds.dump h.labels

theorem Serves.writable {n : ListNode} {r : Record} (h : Serves now rrType n r) : r.Writable := by
  obtain ⟨rr, -, hholds⟩ := h.data
  exact hholds.writable h.labels

/-- **A node is written as a record**, in the section that counts it. -/
def Written (now : ℤ) (n : ListNode) (r : Record) : Prop := ∃ rrType, Serves now rrType n r

/-- Nodes are written as their records. -/
theorem written_dump (h : List.Forall₂ (Written now) ns records) :
    ns.flatMap (dumpNode now) = records.flatMap Record.written := by
  induction h with
  | nil => rfl
  | cons h _ ih =>
    obtain ⟨_, h⟩ := h
    rw [List.flatMap_cons, List.flatMap_cons, h.dump, ih]

theorem written_writable (h : List.Forall₂ (Written now) ns records) :
    ∀ r ∈ records, r.Writable := by
  induction h with
  | nil => exact List.forall_mem_nil _
  | cons h _ ih =>
    obtain ⟨_, h⟩ := h
    exact List.forall_mem_cons.mpr ⟨h.writable, ih⟩

theorem written_typed (h : List.Forall₂ (Written now) ns records) :
    ∀ n ∈ ns, n.type.isSome := by
  induction h with
  | nil => exact List.forall_mem_nil _
  | cons h _ ih =>
    obtain ⟨_, h⟩ := h
    exact List.forall_mem_cons.mpr ⟨Option.isSome_of_eq_some h.type, ih⟩

/-- The nodes of a section count in it, and in no other. -/
theorem sectionCount_serves (h : List.Forall₂ (Serves now rrType) ns records) (rrType' : RrType) :
    sectionCount rrType' ns = if rrType' = rrType then records.length else 0 := by
  induction h with
  | nil => rw [List.length_nil, ite_self]; rfl
  | cons h _ ih =>
    rw [sectionCount] at ih ⊢
    rw [List.countP_cons, ih, h.type]
    by_cases he : rrType' = rrType
    · simp [he]
    · simp [he, Ne.symm he]

/-- Typed nodes are counted, as long as no count wraps. -/
theorem hasRecords_of_fit (ht : ∀ n ∈ ns, n.type.isSome)
    (hfit : ∀ rrType, sectionCount rrType ns < 2 ^ 16) (hsome : ns ≠ []) :
    (ns.foldl countNode (cachedHeader header)).hasRecords = true := by
  rw [hasRecords_foldl_countNode]
  by_contra hnone
  have hzero : ∀ rrType, sectionCount rrType ns = 0 := by
    intro rrType
    rw [← Nat.mod_eq_of_lt (hfit rrType)]
    exact not_not.mp fun hne => hnone ⟨rrType, hne⟩
  apply hsome
  rw [← List.length_eq_zero_iff, length_eq_sectionCount ht, hzero, hzero, hzero]

/-- What a cached reply says. -/
def replyMessage (id : UInt16) (q : Question) (answer authority additional : List Record) :
    Message where
  id := id
  flags := (128, 0)
  question := [q]
  answer := answer
  authority := authority
  additional := additional

/-- **The sections of a reply** are as long as the nodes that are counted in them. -/
structure Sectioned (ns : List ListNode) (answer authority additional : List Record) : Prop where
  answer : answer.length = sectionCount .answer ns
  authority : authority.length = sectionCount .authority ns
  additional : additional.length = sectionCount .additional ns

/-- **A reply from nodes that are written as records is a message**, as long as no count wraps: it
has the records in the order of the nodes. -/
theorem replyOf_written (hls : ∀ l ∈ q.qname, IsPlainLabel l)
    (hrecords : List.Forall₂ (Written now) ns (answer ++ (authority ++ additional)))
    (hsections : Sectioned ns answer authority additional)
    (hfit : ∀ rrType, sectionCount rrType ns < 2 ^ 16) (hsome : ns ≠ [])
    (hzero : ∀ n ∈ ns, n.isZero = false) :
    ∃ datagram, replyOf now header (questionOf q) [] ns = some datagram ∧
      Says datagram (replyMessage header.id q answer authority additional) := by
  have hcounted := @hasRecords_of_fit _ header (written_typed hrecords) hfit hsome
  have hany : ¬ ns.any (·.isZero) = true := by
    rw [List.any_eq_true]
    rintro ⟨n, hn, hz⟩
    exact Bool.false_ne_true ((hzero n hn).symm.trans hz)
  refine ⟨_, by rw [replyOf, if_neg (not_not.mpr hcounted), if_neg hany], ?_⟩
  have hwritten : dumpHeader (ns.foldl countNode (cachedHeader header)) ++
      dumpQuestion (questionOf q) ++ ([] ++ ns).flatMap (dumpNode now) =
        (replyMessage header.id q answer authority additional).written := by
    have hheader : dumpHeader (ns.foldl countNode (cachedHeader header)) =
        headerOctets (replyMessage header.id q answer authority additional) 1
          (.ofNat answer.length) (.ofNat authority.length) (.ofNat additional.length) := by
      rw [foldl_countNode, hsections.answer, hsections.authority, hsections.additional,
        dumpHeader_eq_iff]
      simp [cachedHeader, getDefaultHeader, replyMessage, DnsHeader.flags₁, DnsHeader.flags₂]
    rw [hheader, dumpQuestion_questionOf hls, List.nil_append, written_dump hrecords]
    simp [Message.written, replyMessage, Question.written, questionOctets]
  have hwritable := written_writable hrecords
  have hone : 1 < 2 ^ 16 := Nat.one_lt_two_pow (Nat.succ_ne_zero 15)
  rw [hwritten]
  apply Message.Writable.says_written
  refine ⟨?_, fun r hr => hwritable r (List.mem_append_left _ hr),
    fun r hr => hwritable r (List.mem_append_right _ (List.mem_append_left _ hr)),
    fun r hr => hwritable r (List.mem_append_right _ (List.mem_append_right _ hr)), hone,
    hsections.answer ▸ hfit .answer, hsections.authority ▸ hfit .authority,
    hsections.additional ▸ hfit .additional⟩
  intro q' hq' l hl
  obtain rfl := List.mem_singleton.mp hq'
  exact (hls l hl).1

/-- **A reply from nodes that serve records is a message**: the nodes are in the order of the
sections, and no count wraps. -/
theorem replyOf_message (hls : ∀ l ∈ q.qname, IsPlainLabel l)
    (hanswer : List.Forall₂ (Serves now .answer) as answer)
    (hauthority : List.Forall₂ (Serves now .authority) ns authority)
    (hadditional : List.Forall₂ (Serves now .additional) rs additional)
    (han : answer.length < 2 ^ 16) (hns : authority.length < 2 ^ 16)
    (har : additional.length < 2 ^ 16) (hsome : answer ++ (authority ++ additional) ≠ [])
    (hzero : ∀ n ∈ as ++ (ns ++ rs), n.isZero = false) :
    ∃ datagram, replyOf now header (questionOf q) [] (as ++ (ns ++ rs)) = some datagram ∧
      Says datagram (replyMessage header.id q answer authority additional) := by
  have hcount : ∀ rrType, sectionCount rrType (as ++ (ns ++ rs)) =
      (if rrType = .answer then answer.length else 0) +
        ((if rrType = .authority then authority.length else 0) +
          if rrType = .additional then additional.length else 0) := by
    intro rrType
    rw [← sectionCount_serves hanswer, ← sectionCount_serves hauthority,
      ← sectionCount_serves hadditional]
    simp only [sectionCount, List.countP_append]
  have hsections : Sectioned (as ++ (ns ++ rs)) answer authority additional :=
    ⟨by simp [hcount], by simp [hcount], by simp [hcount]⟩
  have hrecords : List.Forall₂ (Written now) (as ++ (ns ++ rs))
      (answer ++ (authority ++ additional)) :=
    List.rel_append (hanswer.imp fun _ _ h => ⟨_, h⟩)
      (List.rel_append (hauthority.imp fun _ _ h => ⟨_, h⟩)
        (hadditional.imp fun _ _ h => ⟨_, h⟩))
  apply replyOf_written hls hrecords hsections ?_ ?_ hzero
  · intro rrType
    cases rrType with
    | answer => exact hsections.answer ▸ han
    | authority => exact hsections.authority ▸ hns
    | additional => exact hsections.additional ▸ har
  · rintro hnil
    apply hsome
    rw [← List.length_eq_zero_iff, ← hrecords.length_eq, hnil]
    rfl

/-! ## Responses that are said again -/

/-- A record learned at `t₀` with the time it has left. -/
def servedRecord (t₀ now : ℤ) (r : Record) : Record :=
  { r with ttl := .ofInt ((minU32 180 r.ttl).toNat - (now - t₀)) }

/-- The records that are cached under a type, with the time they have left. -/
def servedRecords (t : CacheType) (t₀ now : ℤ) (rs : List Record) : List Record :=
  (rs.filter (cacheTypeOf ·.type = some t)).map (servedRecord t₀ now)

/-- **A response that can be served** under the type `t`: its names can be read and written, it has
a record of the type, none of these is expired or the zero address, and no alias stands in front
of addresses. -/
structure Servable (msg : List UInt8) (m : Message) (q : Question) (t : CacheType) (t₀ now : ℤ) :
    Prop where
  reads : Reads msg (OwnerAt msg) (PlainAt msg) m
  question : m.question = [q]
  response : 128 ≤ m.flags.1.toNat
  noError : m.flags.2.toNat % 16 = 0
  labels : ∀ r ∈ recordsOf m, ∀ l ∈ r.owner, IsPlainLabel l
  served : ∃ r ∈ recordsOf m, cacheTypeOf r.type = some t
  fresh : ∀ r ∈ recordsOf m, cacheTypeOf r.type = some t → now - t₀ ≤ (minU32 180 r.ttl).toNat
  nonzero : ∀ r ∈ recordsOf m, cacheTypeOf r.type = some t → r.rdata.written ≠ [0, 0, 0, 0]
  noAlias : t = .ipv4 → ∀ r ∈ recordsOf m, r.type ≠ 5

/-- The node of a parsed record serves it with the time it has left. -/
theorem recordNode_serves {rr : DnsResourceRecord} {r : Record} (h : Holds rr r)
    (hls : ∀ l ∈ r.owner, IsPlainLabel l) :
    Serves now rrType (recordNode t₀ rrType rr) (servedRecord t₀ now r) := by
  refine ⟨rfl, hls, rr, rfl, h.name, h.type, h.rclass, ?_, h.rdata, h.fits⟩
  show UInt32.ofInt ((minU32 180 rr.ttl).toNat - (now - t₀)) = _
  rw [h.ttl]
  rfl

/-- The nodes of parsed records serve those of the type. -/
theorem addedNodes_serve (h : List.Forall₂ Holds rrs records)
    (hls : ∀ r ∈ records, ∀ l ∈ r.owner, IsPlainLabel l) :
    List.Forall₂ (Serves now rrType) (rrs.flatMap (addedNodes t d t₀ d rrType))
      (servedRecords t t₀ now records) := by
  induction h with
  | nil => exact .nil
  | @cons rr r rrs rs h _ ih =>
    obtain ⟨hr, hrs⟩ := List.forall_mem_cons.mp hls
    rw [List.flatMap_cons, servedRecords]
    by_cases ht : cacheTypeOf r.type = some t
    · rw [List.filter_cons_of_pos (by simpa using ht), addedNodes, if_pos ⟨rfl, h.type ▸ ht⟩]
      exact .cons (recordNode_serves h hr) (ih hrs)
    · rw [List.filter_cons_of_neg (by simpa using ht), addedNodes,
        if_neg fun hadded => ht (h.type ▸ hadded.2)]
      exact ih hrs

/-- The node of a record that was put under the type. -/
theorem exists_of_mem_added (h : List.Forall₂ Holds rrs records) {n : ListNode}
    (hn : n ∈ rrs.flatMap (addedNodes t d t₀ d rrType)) : ∃ rr, ∃ r ∈ records, Holds rr r ∧
      cacheTypeOf r.type = some t ∧ n = recordNode t₀ rrType rr := by
  obtain ⟨rr, hrr, hn⟩ := List.mem_flatMap.mp hn
  rw [addedNodes] at hn
  split_ifs at hn with hadded
  · obtain ⟨r, hr, hholds⟩ : ∃ r ∈ records, Holds rr r := by
      obtain ⟨i, hi, rfl⟩ := List.getElem_of_mem hrr
      exact ⟨_, List.getElem_mem (h.length_eq ▸ hi), h.get hi (h.length_eq ▸ hi)⟩
    exact ⟨rr, r, hr, hholds, hholds.type ▸ hadded.2, List.mem_singleton.mp hn⟩
  · cases hn

/-- What a response puts under a type and the name of its question. -/
theorem stored_eq (hcode : response.header.rcode = ReplyCode.noError.toBits)
    (hd : response.question.qname = d) : Logged.stored ⟨t₀, response, nodes⟩ t d =
      response.answer.flatMap (addedNodes t d t₀ d .answer) ++
        (response.authority.flatMap (addedNodes t d t₀ d .authority) ++
          response.additional.flatMap (addedNodes t d t₀ d .additional)) := by
  rw [Logged.stored, if_pos hcode, Response.sections]
  simp only [hd, List.flatMap_append, List.flatMap_map, List.append_assoc]

/-- A response to another question puts nothing under the name. -/
theorem stored_other {e : Logged} (he : e.response.question.qname ≠ d) : e.stored t d = [] := by
  rw [Logged.stored]
  split_ifs
  · apply List.flatMap_eq_nil_iff.mpr
    intro x _
    rw [addedNodes, if_neg fun h => he h.1]
  · rfl

/-- What was put under the name of the only response for it. -/
theorem storedNodes_single {e : Logged} (hv : invalidKey d = false)
    (hfile : ∀ e ∈ hostsEntries file, e.2 ≠ d)
    (hothers : ∀ e ∈ log₁ ++ log₂, e.response.question.qname ≠ d) (t : CacheType) :
    storedNodes file (log₁ ++ e :: log₂) t d = e.stored t d := by
  have hhosts : hostsNodes (hostsEntries file) t d = [] := by
    rw [hostsNodes]
    split_ifs
    · rw [List.filter_eq_nil_iff.mpr fun e he => by simpa using hfile e he]
      rfl
    · rfl
  have hnone : ∀ {log : List Logged}, log ⊆ log₁ ++ log₂ → learnedNodes log t d = [] := by
    intro log hsub
    apply List.flatMap_eq_nil_iff.mpr
    exact fun e he => stored_other (hothers e (hsub he))
  rw [storedNodes, hv, if_neg Bool.false_ne_true, hhosts, learnedNodes, List.flatMap_append,
    List.flatMap_cons]
  have h₁ := hnone (List.subset_append_left log₁ log₂)
  have h₂ := hnone (List.subset_append_right log₁ log₂)
  rw [learnedNodes] at h₁ h₂
  rw [h₁, h₂, List.nil_append, List.nil_append, List.append_nil]

/-- A query that is not forwarded is answered. -/
theorem answerQuery_datagram {c' : Cache} {r : ReadCache} {client : SockAddr}
    {question : DnsQuestion} {datagram : List UInt8}
    (hread : handleReadCache s.cache now header question = .ok (c', r))
    (hr : r.datagram = some datagram) : answerQuery s now client header question =
      .ok ({ s with cache := c' }, [.reply client datagram]) := by
  rw [answerQuery, hread, ok_bind]
  cases r with
  | miss => cases hr
  | nameError datagram => cases hr; rfl
  | cached hd cname list datagram => cases hr; rfl

namespace Servable

/-- The response is parsed as what it says. -/
theorem holds {hd : DnsHeader} (h : Servable msg m q t t₀ now)
    (hparse : parseStream msg = .ok (hd, .response response)) : HoldsMessage response m := by
  obtain ⟨_, _, hparse', hholds⟩ := parseStream_response_reads h.reads h.question h.response
  cases hparse.symm.trans hparse'
  exact hholds

/-- What is put under the type is neither expired nor zero. -/
theorem added (h : Servable msg m q t t₀ now) (hsub : records ⊆ recordsOf m)
    (hholds : List.Forall₂ Holds rrs records) :
    ∀ n ∈ rrs.flatMap (addedNodes t d t₀ d rrType), n.expired now = false ∧ n.isZero = false := by
  intro n hn
  obtain ⟨rr, r, hr, hrr, ht, rfl⟩ := exists_of_mem_added hholds hn
  have hfresh := h.fresh r (hsub hr) ht
  rw [← hrr.ttl] at hfresh
  constructor
  · apply decide_eq_false
    show ¬ (_ ∧ 10 < now - (t₀ + ((minU32 180 rr.ttl).toNat : ℤ)))
    omega
  · apply decide_eq_false
    rintro ⟨-, hz⟩
    exact h.nonzero r (hsub hr) ht (hrr.rdata.symm.trans hz)

/-- The records of the type are some. -/
theorem servedRecords_ne (h : Servable msg m q t t₀ now) : servedRecords t t₀ now m.answer ++
    (servedRecords t t₀ now m.authority ++ servedRecords t t₀ now m.additional) ≠ [] := by
  obtain ⟨r, hr, ht⟩ := h.served
  have hmem : servedRecord t₀ now r ∈ servedRecords t t₀ now (recordsOf m) :=
    List.mem_map_of_mem (List.mem_filter.mpr ⟨hr, by simpa using ht⟩)
  apply List.ne_nil_of_mem (a := servedRecord t₀ now r)
  simpa only [servedRecords, recordsOf, List.filter_append, List.map_append] using hmem

/-- No alias stands in front of the addresses. -/
theorem added_cname (h : Servable msg m q .ipv4 t₀ now) (hsub : records ⊆ recordsOf m)
    (hholds : List.Forall₂ Holds rrs records) :
    rrs.flatMap (addedNodes .cname d t₀ d rrType) = [] := by
  apply List.eq_nil_iff_forall_not_mem.mpr
  intro n hn
  obtain ⟨_, r, hr, -, ht, -⟩ := exists_of_mem_added hholds hn
  have htype := h.noAlias rfl r (hsub hr)
  rw [cacheTypeOf, if_neg htype] at ht
  split_ifs at ht <;> cases ht

theorem answer_subset (m : Message) : m.answer ⊆ recordsOf m := List.subset_append_left _ _

theorem authority_subset (m : Message) : m.authority ⊆ recordsOf m := fun _ hr =>
  List.mem_append_right _ (List.mem_append_left _ hr)

theorem additional_subset (m : Message) : m.additional ⊆ recordsOf m := fun _ hr =>
  List.mem_append_right _ (List.mem_append_right _ hr)

/-- The name under which the records of the response are put. -/
theorem qname (h : Servable msg m q t t₀ now) (hholds : HoldsMessage response m) :
    response.question.qname = (questionOf q).qname := by
  have hquestion := hholds.question
  rw [h.question, List.map_singleton] at hquestion
  rw [← List.singleton_injective hquestion]

/-- **What is put under the type** serves the records of the type, section by section. -/
theorem stored (h : Servable msg m q t t₀ now) (hholds : HoldsMessage response m)
    (nodes : SectionNodes) : ∃ as ns rs,
      Logged.stored ⟨t₀, response, nodes⟩ t (questionOf q).qname = as ++ (ns ++ rs) ∧
        List.Forall₂ (Serves now .answer) as (servedRecords t t₀ now m.answer) ∧
        List.Forall₂ (Serves now .authority) ns (servedRecords t t₀ now m.authority) ∧
        List.Forall₂ (Serves now .additional) rs (servedRecords t t₀ now m.additional) ∧
        ∀ n ∈ as ++ (ns ++ rs), n.expired now = false ∧ n.isZero = false :=
  ⟨_, _, _, stored_eq (hholds.header.noError h.noError) (h.qname hholds),
    addedNodes_serve hholds.answer fun r hr => h.labels r (answer_subset m hr),
    addedNodes_serve hholds.authority fun r hr => h.labels r (authority_subset m hr),
    addedNodes_serve hholds.additional fun r hr => h.labels r (additional_subset m hr),
    List.forall_mem_append.mpr ⟨h.added (answer_subset m) hholds.answer,
      List.forall_mem_append.mpr ⟨h.added (authority_subset m) hholds.authority,
        h.added (additional_subset m) hholds.additional⟩⟩⟩

/-- A response without aliases puts nothing on the CNAME list. -/
theorem stored_cname (h : Servable msg m q .ipv4 t₀ now) (hholds : HoldsMessage response m)
    (nodes : SectionNodes) :
    Logged.stored ⟨t₀, response, nodes⟩ .cname (questionOf q).qname = [] := by
  rw [stored_eq (hholds.header.noError h.noError) (h.qname hholds),
    h.added_cname (answer_subset m) hholds.answer,
    h.added_cname (authority_subset m) hholds.authority,
    h.added_cname (additional_subset m) hholds.additional]
  rfl

end Servable

theorem servedRecords_length_lt {w : UInt16} (hw : w.toNat = records.length) :
    (servedRecords t t₀ now records).length < 2 ^ 16 := by
  rw [servedRecords, List.length_map]
  have hle := List.length_filter_le (cacheTypeOf ·.type = some t) records
  have hlt := w.toNat_lt
  omega

/-- **A response is said again**: the file has no entry for the name of its question, and no other
response was for this name. Then a query for the name and a cached type that finds room is answered
by a message that fits, with the records of the type, in their sections, and with the time they have
left. -/
theorem learnedResponse_served {client : SockAddr} {hd : DnsHeader}
    (hload : readHostsFile Cache.init file = .ok c₀)
    (hfile : ∀ e ∈ hostsEntries file, e.2 ≠ (questionOf q).qname)
    (hrun : c₀.ClockedRun clock (log₁ ++ ⟨t₀, response, nodes⟩ :: log₂) s.cache)
    (hparse : parseStream msg = .ok (hd, .response response))
    (hothers : ∀ e ∈ log₁ ++ log₂, e.response.question.qname ≠ (questionOf q).qname)
    (hm : Servable msg m q t t₀ now) (hquery : Says query m') (hq' : m'.question = [q'])
    (hqr : m'.flags.1.toNat < 128) (hname : q'.qname = q.qname)
    (ht : cacheTypeOf q'.qtype = some t) (hls : ∀ l ∈ q.qname, IsPlainLabel l)
    (hk : KeySafe (questionOf q).qname) (hv : invalidKey (questionOf q).qname = false)
    (hnow : clock ≤ now) (hroom : HasRoom s now query) :
    ∃ s' datagram, handleStream s now client query = .ok (s', [.reply client datagram]) ∧
      datagram.length ≤ bufferLen ∧
      Says datagram (replyMessage m'.id q' (servedRecords t t₀ now m.answer)
        (servedRecords t t₀ now m.authority) (servedRecords t t₀ now m.additional)) := by
  obtain ⟨S, hG₀⟩ := readHostsFile_good hload
  have hG := hrun.run.good hG₀
  have hqname : (questionOf q').qname = (questionOf q).qname := by rw [questionOf, hname]; rfl
  obtain ⟨header, hH, hparse'⟩ := parseStream_query_reads hquery hq' hqr
  -- the lookup finds its way
  have hsafe : QuerySafe s.cache (questionOf q') := fun t _ =>
    hqname ▸ ⟨hk.lookupSafe s.cache t, fun _ => hk.lookupSafe s.cache .cname⟩
  obtain ⟨c', r, hr⟩ := handleReadCache_ok now hG.inv hsafe header
  have hb : ¬ IsBlocked file (questionOf q').qname := fun hb => hfile _ hb.1 hqname
  obtain ⟨-, cs, -, -, hcname, hdatagram⟩ := handleReadCache_log hload hb hrun hnow ht hr
  -- what was put under the name is what the response says
  have hholds := hm.holds hparse
  obtain ⟨an, au, ad, hstored, hanswer, hauthority, hadditional, hall⟩ := hm.stored hholds nodes
  rw [hqname, storedNodes_single hv hfile hothers] at hcname hdatagram
  have halive : alive ListNode.expired now (an ++ (au ++ ad)) = an ++ (au ++ ad) :=
    List.filter_eq_self.mpr fun n hn => by rw [(hall n hn).1]; rfl
  have hnocname : (if (questionOf q').qtype = 1 then cs else []) = [] := by
    split_ifs with hA
    · obtain rfl := Option.some.inj ((cacheTypeOf_address hA).symm.trans ht)
      rw [hm.stored_cname hholds] at hcname
      exact List.sublist_nil.mp hcname.sublist
    · rfl
  rw [hstored, halive, hnocname] at hdatagram
  obtain ⟨datagram, hreply, hmessage⟩ := @replyOf_message an au ad now header _ _ _ q' (hname ▸ hls)
    hanswer hauthority hadditional (servedRecords_length_lt hholds.header.ancount)
    (servedRecords_length_lt hholds.header.nscount) (servedRecords_length_lt hholds.header.arcount)
    hm.servedRecords_ne fun n hn => (hall n hn).2
  rw [hH.id] at hmessage
  have hanswered := @answerQuery_datagram s now header c' r client _ _ hr (hdatagram.trans hreply)
  have hsent := (handleStream_of_parse hparse').trans hanswered
  exact ⟨_, datagram, hsent, hroom.sent_le hG hsent _ (List.mem_singleton_self _), hmessage⟩

theorem servedMessage_servable :
    Servable servedMessage.written servedMessage sampleQuestion .ipv4 0 10 where
  reads := servedMessage_writable.reads.mono (fun _ _ _ h => ⟨h.nameAt, .inl h⟩) fun _ _ _ h => h
  question := rfl
  response := by decide
  noError := by decide
  labels := by decide
  served := ⟨_, List.mem_singleton_self _, rfl⟩
  fresh := by decide
  nonzero := by decide
  noAlias _ := by decide

/-- The query for `a.b.` finds room for a reply with its address. -/
theorem askingMessage_hasRoom {hd : DnsHeader} {response : Response} {c : Cache}
    {nodes : SectionNodes}
    (hparse : parseStream servedMessage.written = .ok (hd, .response response))
    (hcache : cacheResponse .init 0 response = .ok (c, nodes)) :
    HasRoom (.init c) 10 askingMessage.written := by
  obtain ⟨header, -, hquery⟩ :=
    parseStream_query_reads askingMessage_writable.says_written rfl (by decide)
  -- the reply has a header, a question and a record
  obtain ⟨hd₀, response₀, c₀, nodes₀, c', hd', cname, list, reply, hparse₀, hcache₀, hread, hlen⟩ :
      ∃ hd response c nodes c' hd' cname list reply,
        parseStream servedMessage.written = .ok (hd, .response response) ∧
          cacheResponse .init 0 response = .ok (c, nodes) ∧
          handleReadCache c 10 header (questionOf sampleQuestion) =
            .ok (c', .cached hd' cname list reply) ∧ reply.length = 40 := by
    obtain ⟨zs, hzs⟩ : ∃ zs,
      receiveBuffer servedMessage.written = servedMessage.written ++ zs := ⟨_, rfl⟩
    simp only [parseStream, hzs]
    exact ⟨_, _, _, _, _, _, _, _, _, rfl, rfl, rfl, rfl⟩
  cases hparse₀.symm.trans hparse
  cases hcache₀.symm.trans hcache
  obtain ⟨S, hG⟩ := readHostsFile_good (show readHostsFile Cache.init [] = .ok Cache.init from rfl)
  have hrun : Cache.init.Run ([] ++ [⟨0, response, nodes⟩]) c := .response .start hcache
  have hle : 40 ≤ bufferLen := by decide
  have hone : 1 < mapLen := by decide
  exact hasRoom_query (by decide) hquery
    (replyFits_of_cached (hrun.good hG) hread (hlen.trans_le hle)) hone

/-- The address is learned at time 0, and served at time 10 for 50 seconds. -/
theorem learnedResponse_served_address : ∃ hd response c nodes,
    parseStream servedMessage.written = .ok (hd, .response response) ∧
      cacheResponse .init 0 response = .ok (c, nodes) ∧ ∃ s' datagram,
        handleStream (.init c) 10 ⟨0x7f000001, 5353⟩ askingMessage.written =
          .ok (s', [.reply ⟨0x7f000001, 5353⟩ datagram]) ∧ datagram.length ≤ bufferLen ∧
        Says datagram (replyMessage 7 sampleQuestion
          [⟨[ascii "a", ascii "b"], 1, 1, 50, .octets [10, 3, 9, 44]⟩] [] []) := by
  have hload : readHostsFile Cache.init [] = .ok Cache.init := rfl
  have hservable := servedMessage_servable
  obtain ⟨hd, response, hparse, hholds⟩ :=
    parseStream_response_reads hservable.reads hservable.question hservable.response
  have hsafe : ResponseSafe .init response := fun _ _ _ t _ =>
    ⟨by rw [hservable.qname hholds]; decide, fun l hl => absurd hl (Cache.init_has t _ l)⟩
  obtain ⟨c, nodes, hcache⟩ := cacheResponse_ok 0 Cache.Inv.init.index hsafe
  have hrun : Cache.init.ClockedRun 0 ([] ++ ⟨0, response, nodes⟩ :: []) c :=
    .response (.start 0) le_rfl hcache
  obtain ⟨s', datagram, hreply, hle, hmessage⟩ := @learnedResponse_served [] _ _ _ (.init c) .ipv4
    10 0 0 [] [] response nodes _ _ _ sampleQuestion ⟨0x7f000001, 5353⟩ hd hload
    (fun e he => nomatch he) hrun hparse (fun e he => nomatch he) hservable
    askingMessage_writable.says_written rfl (by decide) rfl rfl (by decide) (by decide) (by decide)
    (by decide) (askingMessage_hasRoom hparse hcache)
  exact ⟨hd, response, c, nodes, hparse, hcache, s', datagram, hreply, hle, hmessage⟩

/-! ## Blocked names -/

variable {c : Cache} {z : ℕ} {front : CacheType → List ℕ} {S : Set ℕ} {question : DnsQuestion}
  {s₀ : Server} {admits : Server → ℤ → List UInt8 → Prop} {client : SockAddr}

/-- The counts of a blocked name do not wrap as long as few nodes were allocated. -/
theorem Blocks.countsFit (hB : Blocks c d z front) (hI : c.Inv S) (hd : question.qname = d)
    (hfew : c.heap.nextNode < 2 ^ 16) : c.CountsFit now question := by
  subst hd
  intro t l ids _ hl hc
  obtain ⟨n, hn, hz⟩ := hB.mem_kept hI hl hc now
  obtain ⟨rrType, htype⟩ : ∃ rrType, n.type = some rrType :=
    Option.isSome_iff_exists.mp (n.typed.symm.trans (ListNode.isSome_of_isZero hz))
  refine ⟨rrType, ?_⟩
  have hpos : 0 < sectionCount rrType (c.heap.infosAt (ids.filter (!c.heap.expiredAt now ·))) :=
    List.countP_pos_iff.mpr ⟨n, hn, by simpa using htype⟩
  have hle : sectionCount rrType (c.heap.infosAt (ids.filter (!c.heap.expiredAt now ·))) ≤
      c.heap.nextNode := by
    obtain ⟨list, -, hp, hlive⟩ := hc
    refine List.countP_le_length.trans ((List.length_filterMap_le _ _).trans ?_)
    exact (List.length_filter_le _ _).trans (Heap.length_le_of_live hp.nodup hlive)
  rw [Nat.mod_eq_of_lt (hle.trans_lt hfew)]
  omega

/-- **A blocked name is answered by a name error message**, with the id and the question of the
query: after any run, as long as few nodes were allocated. -/
theorem blockedName_message (hload : readHostsFile Cache.init file = .ok s₀.cache)
    (hrun : s₀.Run admits s) (hb : IsBlocked file (questionOf q).qname)
    (hk : KeySafe (questionOf q).qname) (hfew : s.cache.heap.nextNode < 2 ^ 16)
    (hquery : Says query m) (hq : m.question = [q]) (hqr : m.flags.1.toNat < 128)
    (hls : ∀ l ∈ q.qname, IsPlainLabel l) (ht : cacheTypeOf q.qtype = some t) :
    ∃ cache datagram, handleStream s now client query =
      .ok ({ s with cache }, [.reply client datagram]) ∧ Says datagram (nameError m.id q) := by
  obtain ⟨log, hrun⟩ := hrun.cache
  obtain ⟨S, cls, hL⟩ := (readHostsFile_loaded hload).load
  obtain ⟨hI, z, front, hB⟩ := hrun.blocks hL.inv ((readHostsFile_zeroed hload hb).blocks hL)
  obtain ⟨header, hH, hparse⟩ := parseStream_query_reads hquery hq hqr
  have hfit : s.cache.CountsFit now (questionOf q) := hB.countsFit hI rfl hfew
  obtain ⟨c', hread⟩ := hB.reply header hI hk ht rfl hfit
  have hanswered := @answerQuery_datagram s now header c' _ client _ _ hread rfl
  exact ⟨c', _, (handleStream_of_parse hparse).trans hanswered,
    hH.id ▸ nameErrorReply_message header hls⟩

theorem blockedFile_loaded : ∃ c₀, readHostsFile Cache.init blockedFile = .ok c₀ ∧
    c₀.heap.nextNode = 4 := ⟨_, rfl, rfl⟩

theorem blockedName_message_blocked : ∃ c₀, readHostsFile Cache.init blockedFile = .ok c₀ ∧
    ∃ cache datagram, handleStream (.init c₀) 0 ⟨0x7f000001, 5353⟩ askingMessage.written =
      .ok ({ Server.init c₀ with cache }, [.reply ⟨0x7f000001, 5353⟩ datagram]) ∧
        Says datagram (nameError 7 sampleQuestion) := by
  obtain ⟨c₀, hload, hnodes⟩ := blockedFile_loaded
  have hrun : (Server.init c₀).Run (fun _ _ _ => True) (.init c₀) := .start
  have hb : IsBlocked blockedFile (questionOf sampleQuestion).qname := by
    unfold IsBlocked
    decide
  have hfew : (Server.init c₀).cache.heap.nextNode < 2 ^ 16 := by
    rw [show (Server.init c₀).cache.heap.nextNode = 4 from hnodes]
    decide
  have hk : KeySafe (questionOf sampleQuestion).qname := by decide
  obtain ⟨cache, datagram, hreply, hmessage⟩ := @blockedName_message blockedFile _ _ .ipv4 0 _ _
    (.init c₀) _ ⟨0x7f000001, 5353⟩ hload hrun hb hk hfew askingMessage_writable.says_written rfl
    (by decide) (by decide) rfl
  exact ⟨c₀, hload, cache, datagram, hreply, hmessage⟩

end Adrift
