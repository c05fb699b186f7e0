import Adrift.Lib.DnsMessage
import Adrift.Protocol.Handle
import Adrift.Protocol.Names

/-!
# Relayed queries

A query that the cache does not answer is forwarded with its header, under a new id, and its
question. Its records are left out, but their counts are not.

## Main definitions

* `questionOf q`: the question as the parser stores it
* `RelaysQuery query datagram`: the datagram asks the question of the query, under its header

## Main results

* `parseHeader_reads`, `parseQuestion_octets`: the header and the question of a message
* `relaysQuery_iff`: a query is relayed exactly when it has no records
-/

namespace Adrift

open BigEndian DnsMessage DomainName Outcome

/-! ## Headers -/

theorem octets16_inj {a b : UInt16} (h : octets16 a = octets16 b) : a = b := by
  simp only [octets16, List.cons.injEq, and_true] at h
  rw [← word16_octets16 a, h.1, h.2, word16_octets16]

/-- The octets of a header determine it. -/
theorem dumpHeader_eq_iff {h : DnsHeader} {m : Message} {qd an ns ar : UInt16} :
    dumpHeader h = headerOctets m qd an ns ar ↔ h.id = m.id ∧ (h.flags₁, h.flags₂) = m.flags ∧
      h.qdcount = qd ∧ h.ancount = an ∧ h.nscount = ns ∧ h.arcount = ar := by
  constructor
  · intro he
    simp only [dumpHeader, headerOctets] at he
    obtain ⟨he, har⟩ := List.append_inj' he rfl
    obtain ⟨he, hns⟩ := List.append_inj' he rfl
    obtain ⟨he, han⟩ := List.append_inj' he rfl
    obtain ⟨he, hqd⟩ := List.append_inj' he rfl
    obtain ⟨hid, hf⟩ := List.append_inj' he rfl
    obtain ⟨hf₁, hf⟩ := List.cons.inj hf
    exact ⟨octets16_inj hid, Prod.ext hf₁ (List.cons.inj hf).1, octets16_inj hqd,
      octets16_inj han, octets16_inj hns, octets16_inj har⟩
  · rintro ⟨hid, hf, rfl, rfl, rfl, rfl⟩
    rw [dumpHeader, headerOctets, hid, ← hf]

/-- **The header of a message** is parsed as it stands. -/
theorem parseHeader_reads {msg : List UInt8} {m : Message} {qd an ns ar : UInt16}
    (h : headerOctets m qd an ns ar <+: msg) : ∃ header,
      parseHeader msg = .ok (header, msg.drop 12) ∧
        dumpHeader header = headerOctets m qd an ns ar := by
  obtain ⟨t, rfl⟩ := h
  obtain ⟨header, hp⟩ : ∃ header, parseHeader (headerOctets m qd an ns ar ++ t) =
    .ok (header, t) := ⟨_, rfl⟩
  exact ⟨header, hp, (List.append_inj (dumpHeader_parseHeader hp) rfl).1.symm⟩

/-- A message is a query when the highest bit of its flags is clear. -/
theorem DnsHeader.qr_eq_zero_iff (h : DnsHeader) : h.qr = 0 ↔ h.flags₁.toNat < 128 := by
  have hrd := h.rd.isLt
  have htc := h.tc.isLt
  have haa := h.aa.isLt
  have hop := h.opcode.isLt
  have hqr := h.qr.isLt
  have hzero : (0 : BitVec 1).toNat = 0 := rfl
  rw [h.flags₁_toNat, ← BitVec.toNat_inj, hzero]
  omega

/-! ## Questions -/

variable {msg : List UInt8} {off b next : ℕ} {q : Question}

theorem parse16_octets16 (w : UInt16) (buf : List UInt8) :
    parse16 (octets16 w ++ buf) = .ok (w, buf) :=
  congrArg (fun w => Except.ok (w, buf)) (word16_octets16 w)

/-- The question as the parser stores it. -/
def questionOf (q : Question) : DnsQuestion := ⟨.ofBlock (text q.qname), q.qtype, q.qclass⟩

/-- The octets of a question whose name is written out. -/
def questionOctets (q : Question) : List UInt8 :=
  wire q.qname ++ octets16 q.qtype ++ octets16 q.qclass

/-- A question whose name is written out stands at `off`. -/
theorem questionBy_iff (hb : PlainAt msg off q.qname b) :
    QuestionBy (NameAt msg) msg off q next ↔
      questionOctets q <+: msg.drop off ∧ next = off + (questionOctets q).length := by
  obtain ⟨-, hw, rfl⟩ := id hb
  rw [questionOctets, List.append_assoc, prefix_append_iff]
  constructor
  · rintro ⟨b, hn, hp, rfl⟩
    obtain ⟨-, rfl⟩ := hn.unique hb.nameAt
    refine ⟨⟨hw, hp⟩, ?_⟩
    simp only [List.length_append, octets16_length]
    omega
  · rintro ⟨⟨-, hp⟩, rfl⟩
    refine ⟨_, hb.nameAt, hp, ?_⟩
    simp only [List.length_append, octets16_length]
    omega

/-- The name of a question that stands at `off`. -/
theorem plainAt_question (hls : ∀ l ∈ q.qname, IsLabel l) (h : questionOctets q <+: msg.drop off) :
    PlainAt msg off q.qname (off + (wire q.qname).length) := by
  rw [questionOctets, List.append_assoc] at h
  exact ⟨hls, (prefix_append_iff.mp h).1, rfl⟩

theorem parseQuestion_octets (hls : ∀ l ∈ q.qname, IsLabel l) (rest : List UInt8) :
    parseQuestion (questionOctets q ++ rest) = .ok (questionOf q, rest) := by
  simp only [parseQuestion, questionOctets, List.append_assoc, parseQname_wire hls, ok_bind,
    parse16_octets16, pure_eq_ok, questionOf]

theorem dumpQuestion_questionOf (hls : ∀ l ∈ q.qname, IsPlainLabel l) :
    dumpQuestion (questionOf q) = questionOctets q := by
  rw [dumpQuestion, questionOf, dumpName_text hls, questionOctets]

/-! ## Relayed queries -/

/-- **The datagram relays the query** `m`: it is a message with the question of the query, and
has its header after the id. -/
def RelaysQuery (query datagram : List UInt8) (m : Message) : Prop :=
  (∃ m', Says datagram m' ∧ m'.question = m.question) ∧
    ∀ i, 2 ≤ i → i < 12 → datagram[i]? = query[i]?

/-- The header is the same after the id. -/
theorem dumpHeader_getElem? (h : DnsHeader) (id : UInt16) (as bs : List UInt8) {i : ℕ}
    (hi : 2 ≤ i) (hlt : i < 12) :
    (dumpHeader { h with id } ++ as)[i]? = (dumpHeader h ++ bs)[i]? := by
  obtain ⟨j, rfl⟩ := Nat.exists_eq_add_of_le' hi
  rw [List.getElem?_append_left (by simpa [dumpHeader] using hlt),
    List.getElem?_append_left (by simpa [dumpHeader] using hlt)]
  rfl

/-- A header and a question are a message when the header counts no records. -/
theorem says_question_iff (header : DnsHeader) (hls : ∀ l ∈ q.qname, IsLabel l)
    (hqd : header.qdcount = 1) :
    (∃ m, Says (dumpHeader header ++ questionOctets q) m ∧ m.question = [q]) ↔
      header.ancount = 0 ∧ header.nscount = 0 ∧ header.arcount = 0 := by
  have hstands : questionOctets q <+: (dumpHeader header ++ questionOctets q).drop 12 :=
    List.prefix_rfl
  have hplain := plainAt_question hls hstands
  constructor
  · rintro ⟨m, ⟨qd, an, ns, ar, o₁, o₂, o₃, hh, -, -, han, hns, har, hqs, h₁, h₂, h₃⟩, hq⟩
    obtain ⟨-, -, -, rfl, rfl, rfl⟩ :=
      dumpHeader_eq_iff.mp (prefix_unique (List.prefix_append _ _) hh rfl)
    rw [hq] at hqs
    obtain ⟨n, hq, rfl⟩ := hqs
    obtain ⟨-, rfl⟩ := (questionBy_iff hplain).mp hq
    -- records take octets, and the datagram ends with the question
    have h₁ := h₁.length_le
    have h₂ := h₂.length_le
    have h₃ := h₃.length_le
    have hlen : (dumpHeader header ++ questionOctets q).length =
        12 + (questionOctets q).length := List.length_append
    refine ⟨?_, ?_, ?_⟩ <;> apply UInt16.toNat_inj.mp <;> rw [UInt16.toNat_zero] <;> omega
  · rintro ⟨han, hns, har⟩
    refine ⟨⟨header.id, (header.flags₁, header.flags₂), [q], [], [], []⟩,
      ⟨1, 0, 0, 0, _, _, _, ?_, ?_, rfl, rfl, rfl, rfl,
        ⟨_, (questionBy_iff hplain).mpr ⟨hstands, rfl⟩, rfl⟩, rfl, rfl, ?_⟩, rfl⟩
    · rw [← dumpHeader_eq_iff.mpr ⟨rfl, rfl, hqd, han, hns, har⟩]
      exact List.prefix_append _ _
    · intro q' hq'
      obtain rfl := Option.some.inj hq'
      exact ⟨_, hplain⟩
    · exact List.length_append

variable {s : Server} {c : Cache} {now : ℤ} {client : SockAddr} {query rest : List UInt8}
  {m : Message} {header : DnsHeader}

/-- **The header of a message**: its id, its flags and its counts. -/
structure HeaderOf (header : DnsHeader) (m : Message) : Prop where
  id : header.id = m.id
  flags : (header.flags₁, header.flags₂) = m.flags
  qdcount : header.qdcount.toNat = m.question.length
  ancount : header.ancount.toNat = m.answer.length
  nscount : header.nscount.toNat = m.authority.length
  arcount : header.arcount.toNat = m.additional.length

/-- The octets of the header under a new id. -/
theorem HeaderOf.dump (h : HeaderOf header m) (id : UInt16) : dumpHeader { header with id } =
    headerOctets { m with id } (.ofNat m.question.length) (.ofNat m.answer.length)
      (.ofNat m.authority.length) (.ofNat m.additional.length) := by
  rw [← h.qdcount, ← h.ancount, ← h.nscount, ← h.arcount]
  simp only [UInt16.ofNat_toNat]
  exact dumpHeader_eq_iff.mpr ⟨rfl, h.flags, rfl, rfl, rfl, rfl⟩

theorem HeaderOf.qdcount_one (h : HeaderOf header m) (hq : m.question = [q]) :
    header.qdcount = 1 := by
  have hqd := h.qdcount
  rw [hq] at hqd
  exact UInt16.toNat_inj.mp hqd

/-- A message of one question begins with its header and its question. -/
theorem message_parts (hread : Says query m) (hq : m.question = [q])
    (hheader : parseHeader query = .ok (header, rest)) : HeaderOf header m ∧
      (∀ l ∈ q.qname, IsLabel l) ∧ ∃ t, query = dumpHeader header ++ (questionOctets q ++ t) := by
  obtain ⟨qd, an, ns, ar, o₁, o₂, o₃, hh, hfirst, hqd, han, hns, har, hqs, -, -, -⟩ := hread
  obtain rfl := dumpHeader_parseHeader hheader
  obtain ⟨hid, hflags, rfl, rfl, rfl, rfl⟩ :=
    dumpHeader_eq_iff.mp (prefix_unique (List.prefix_append _ _) hh rfl)
  obtain ⟨b, hb⟩ := hfirst q (by rw [hq]; rfl)
  rw [hq] at hqs
  obtain ⟨n, hqb, -⟩ := hqs
  obtain ⟨⟨t, rfl⟩, -⟩ := (questionBy_iff hb).mp hqb
  exact ⟨⟨hid, hflags, hqd, han, hns, har⟩, hb.1, t, rfl⟩

/-- A query that the cache does not answer is forwarded with its header and its question. -/
theorem handleStream_query (client : SockAddr) (hread : Says query m) (hq : m.question = [q])
    (hqr : m.flags.1.toNat < 128) (hls : ∀ l ∈ q.qname, IsPlainLabel l)
    (hheader : parseHeader query = .ok (header, rest))
    (hmiss : handleReadCache s.cache now header (questionOf q) = .ok (c, .miss)) :
    ∃ s' id, handleStream s now client query =
      .ok (s', [.relay (dumpHeader { header with id } ++ questionOctets q)]) := by
  obtain ⟨hH, hlabels, t, rfl⟩ := message_parts hread hq hheader
  have hzero : header.qr = 0 := header.qr_eq_zero_iff.mpr (by rwa [← hH.flags] at hqr)
  have hone := hH.qdcount_one hq
  obtain ⟨s', id, hsend⟩ : ∃ s' id, handleSendQuery { s with cache := c } client header
      (questionOf q) = (s', dumpHeader { header with id } ++ dumpQuestion (questionOf q)) :=
    ⟨_, _, rfl⟩
  have hanswer : answerQuery s now client header (questionOf q) =
      .ok (s', [.relay (dumpHeader { header with id } ++ questionOctets q)]) := by
    rw [← dumpQuestion_questionOf hls, answerQuery, hmiss, ok_bind]
    dsimp only
    rw [hsend]
    rfl
  refine ⟨s', id, ?_⟩
  rw [handleStream, receiveBuffer, List.append_assoc, List.append_assoc, parseHeader_dumpHeader,
    ok_bind]
  dsimp only
  rw [if_pos hzero, handleReceiveQuery, if_neg (not_not.mpr hone), parseQuestion_octets hlabels,
    ok_bind]
  exact hanswer

/-- **A query is relayed** exactly when it has no records: a well-formed query of one question with
plain labels, that the cache does not answer. -/
theorem relaysQuery_iff (hread : Says query m) (hq : m.question = [q])
    (hqr : m.flags.1.toNat < 128) (hls : ∀ l ∈ q.qname, IsPlainLabel l)
    (hheader : parseHeader query = .ok (header, rest))
    (hmiss : handleReadCache s.cache now header (questionOf q) = .ok (c, .miss)) :
    ∃ s' datagram, handleStream s now client query = .ok (s', [.relay datagram]) ∧
      (RelaysQuery query datagram m ↔ m.answer = [] ∧ m.authority = [] ∧ m.additional = []) := by
  obtain ⟨s', id, hstream⟩ := handleStream_query client hread hq hqr hls hheader hmiss
  refine ⟨s', _, hstream, ?_⟩
  obtain ⟨hH, hlabels, t, rfl⟩ := message_parts hread hq hheader
  have hempty : ∀ {w : UInt16} {rs : List Record}, w.toNat = rs.length → (w = 0 ↔ rs = []) := by
    intro w rs h
    rw [← List.length_eq_zero_iff, ← h, ← UInt16.toNat_inj, UInt16.toNat_zero]
  rw [RelaysQuery, hq, says_question_iff { header with id } hlabels
    (hH.qdcount_one hq), hempty hH.ancount, hempty hH.nscount, hempty hH.arcount]
  exact and_iff_left fun i hi hlt => dumpHeader_getElem? header id _ _ hi hlt

/-- An A query for `a.b.` with an OPT record. -/
def optQuery : List UInt8 :=
  [0, 7, 1, 0, 0, 1, 0, 0, 0, 0, 0, 1] ++ [1, 97, 1, 98, 0, 0, 1, 0, 1] ++
    [0, 0, 41, 16, 0, 0, 0, 0, 0, 0, 0]

/-- What the query asks. -/
def optQuestion : Question := ⟨[ascii "a", ascii "b"], 1, 1⟩

/-- What the query says. -/
def optMessage : Message where
  id := 7
  flags := (1, 0)
  question := [optQuestion]
  answer := []
  authority := []
  additional := [⟨[], 41, 4096, 0, .octets []⟩]

theorem optQuery_reads : Says optQuery optMessage := by
  have hname : PlainAt optQuery 12 optQuestion.qname 17 := ⟨by decide, by decide, rfl⟩
  have hopt : RecordBy (NameAt optQuery) (NameAt optQuery) optQuery 21
      ⟨[], 41, 4096, 0, .octets []⟩ 32 :=
    ⟨22, 0, .root rfl, by decide, .octets (by decide) (by decide) (by decide) (by decide) rfl, rfl,
      by decide⟩
  exact ⟨1, 0, 0, 1, 21, 21, 21, by decide,
    fun q hq => Option.some.inj hq ▸ ⟨_, hname⟩, rfl, rfl, rfl, rfl,
    ⟨21, ⟨17, hname.nameAt, by decide, rfl⟩, rfl⟩, rfl, rfl, ⟨32, hopt, rfl⟩⟩

theorem relaysQuery_opt : ∃ s' datagram,
    handleStream (.init .init) 0 ⟨0x7f000001, 5353⟩ optQuery = .ok (s', [.relay datagram]) ∧
      (RelaysQuery optQuery datagram optMessage ↔ optMessage.answer = [] ∧
        optMessage.authority = [] ∧ optMessage.additional = []) :=
  relaysQuery_iff optQuery_reads rfl (by decide) (by decide) rfl rfl

theorem not_relaysQuery_opt : ¬ ∀ s c now client query rest m q header, Says query m →
    m.question = [q] → m.flags.1.toNat < 128 → (∀ l ∈ q.qname, IsPlainLabel l) →
      parseHeader query = .ok (header, rest) →
        handleReadCache s.cache now header (questionOf q) = .ok (c, .miss) →
          ∃ s' datagram, handleStream s now client query = .ok (s', [.relay datagram]) ∧
            RelaysQuery query datagram m := by
  intro hall
  obtain ⟨s', datagram, hstream, hrelay, -⟩ := hall (.init .init) _ 0 ⟨0x7f000001, 5353⟩ optQuery
    _ optMessage _ _ optQuery_reads rfl (by decide) (by decide) rfl rfl
  have hmiss : ∀ header, handleReadCache (Server.init Cache.init).cache 0 header
      (questionOf optQuestion) = .ok (.init, .miss) := fun _ => rfl
  obtain ⟨s'', id, hstream'⟩ := handleStream_query ⟨0x7f000001, 5353⟩ optQuery_reads rfl
    (by decide) (by decide) rfl (hmiss _)
  cases hstream.symm.trans hstream'
  obtain ⟨-, -, har⟩ := (says_question_iff _ (by decide) rfl).mp hrelay
  exact absurd (show word16 0 1 = 0 from har) (by decide)

end Adrift
