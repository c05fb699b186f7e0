import Adrift.Protocol.Bounds
import Adrift.Protocol.QueryRelay

/-!
# Relayed responses

A response is relayed with its owner names written out and its record data copied. The data moves
where names before it are written out, and its pointers still say where the names stood in the
response.

## Main definitions

* `RecordKept`, `SectionKept`: records whose data means the same when owner names are written out,
  the octets at the offsets in a set `K` keeping their offsets
* `RelaysInPlace msg m`: all pointers in the data of a response lead to octets that keep their
  offsets

## Main results

* `SectionKept.parse`: the records are parsed, and dumped with their owner names written out
* `SectionKept.reads`: written out, the records say the same
* `relayedResponse_reads`: a response that is relayed in place keeps its meaning
-/

namespace Adrift

open BigEndian DnsMessage DomainName Outcome

variable {msg msg' rest : List UInt8} {K : Set ℕ} {off off' b next : ℕ} {r : Record} {len : UInt16}
  {rs : List Record}

/-- The octets of a record whose owner name is written out. -/
def recordOctets (msg : List UInt8) (r : Record) (b : ℕ) (len : UInt16) : List UInt8 :=
  wire r.owner ++ (fixedOctets r len ++ (msg.drop (b + 10)).take len.toNat)

/-- **The parts of a record** that stands at `off`: an owner name that is written out or one pointer
pair, the fixed octets at `b`, and `len` octets of data. -/
structure RecordAt (msg : List UInt8) (off : ℕ) (r : Record) (b : ℕ) (len : UInt16) : Prop where
  labels : ∀ l ∈ r.owner, IsPlainLabel l
  owner : PlainAt msg off r.owner b ∨ PairAt msg off r.owner b
  fixed : fixedOctets r len <+: msg.drop b
  inside : b + 10 + len.toNat ≤ msg.length

/-- **A record that keeps its meaning** when it is moved from `off` to `off'` and its owner name is
written out: the pointers in its data lead to names in `K`, and those of its own octets that are
in `K` keep their offsets. -/
structure RecordKept (msg : List UInt8) (K : Set ℕ) (off off' : ℕ) (r : Record) (b : ℕ)
    (len : UInt16) : Prop extends RecordAt msg off r b len where
  data : RdataBy (NameVia msg K) msg r.type (b + 10) len.toNat r.rdata
  keptOwner : ∀ i ∈ K, off ≤ i → i < b → off' = off ∧ PlainAt msg off r.owner b
  keptData : ∀ i ∈ K, b ≤ i → i < b + 10 + len.toNat → off' + (wire r.owner).length = b

/-- **The parts of records**, one after the other: `octets` are theirs with the owner names written
out. -/
inductive SectionAt (msg : List UInt8) : ℕ → List Record → ℕ → List UInt8 → Prop
  | nil {off : ℕ} : SectionAt msg off [] off []
  | cons {off b next : ℕ} {r : Record} {rs : List Record} {len : UInt16} {octets : List UInt8}
      (h : RecordAt msg off r b len) (hs : SectionAt msg (b + 10 + len.toNat) rs next octets) :
      SectionAt msg off (r :: rs) next (recordOctets msg r b len ++ octets)

/-- **Records that keep their meaning**, one after the other. -/
inductive SectionKept (msg : List UInt8) (K : Set ℕ) :
    ℕ → ℕ → List Record → ℕ → List UInt8 → Prop
  | nil {off off' : ℕ} : SectionKept msg K off off' [] off []
  | cons {off off' b next : ℕ} {r : Record} {rs : List Record} {len : UInt16}
      {octets : List UInt8} (h : RecordKept msg K off off' r b len)
      (hs : SectionKept msg K (b + 10 + len.toNat) (off' + (recordOctets msg r b len).length) rs
        next octets) :
      SectionKept msg K off off' (r :: rs) next (recordOctets msg r b len ++ octets)

/-! ## The parsed records -/

theorem parse32_octets32 (w : UInt32) (buf : List UInt8) :
    parse32 (octets32 w ++ buf) = .ok (w, buf) :=
  congrArg (fun w => Except.ok (w, buf)) (word32_octets32 w)

theorem RecordAt.length (h : RecordAt msg off r b len) :
    (recordOctets msg r b len).length = (wire r.owner).length + 10 + len.toNat := by
  have hin := h.inside
  simp only [recordOctets, fixedOctets, List.length_append, octets16_length, octets32_length,
    List.length_take, List.length_drop]
  omega

/-- The record is parsed from a buffer, and dumped with its owner name written out. -/
theorem RecordAt.parse (h : RecordAt msg off r b len) (zs : List UInt8) :
    ∃ rr, parseResourceRecord ((msg ++ zs).drop off) (msg ++ zs) =
        .ok (rr, (msg ++ zs).drop (b + 10 + len.toNat)) ∧
      dumpResourceRecord rr = recordOctets msg r b len := by
  have howner := parseOwner_resolved h.owner zs
  obtain ⟨t, ht⟩ := prefix_drop_append h.fixed zs
  obtain rfl : t = (msg ++ zs).drop (b + 10) := by
    rw [← List.drop_drop, ← ht]
    rfl
  -- the record lies inside the message, so what is behind it is not read
  have hdata : ((msg ++ zs).drop (b + 10)).take len.toNat =
      (msg.drop (b + 10)).take len.toNat := by
    have hin := h.inside
    rw [List.drop_append_of_le_length (by omega), List.take_append_of_le_length]
    rw [List.length_drop]
    omega
  have hle : len.toNat ≤ ((msg ++ zs).drop (b + 10)).length := by
    have hin := h.inside
    rw [List.length_drop, List.length_append]
    omega
  refine ⟨⟨.ofBlock (text r.owner), r.type, r.rclass, r.ttl, len, _, List.length_take_of_le hle⟩,
    ?_, ?_⟩
  · rw [parseResourceRecord, howner, ok_bind, ← ht]
    simp only [fixedOctets, List.append_assoc, parse16_octets16, parse32_octets32, ok_bind,
      parseRdata, dif_pos hle, pure_eq_ok]
    rw [List.drop_drop]
  · simp only [dumpResourceRecord, dumpName_text h.labels, recordOctets, fixedOctets, hdata,
      List.append_assoc]

/-- **The records are parsed** from a buffer, and dumped with their owner names written out. -/
theorem SectionAt.parse {octets : List UInt8} (h : SectionAt msg off rs next octets)
    (zs : List UInt8) {n : ℕ} (hn : n = rs.length) :
    ∃ rrs : {rrs : List DnsResourceRecord // rrs.length = n},
      parseRecords (msg ++ zs) n ((msg ++ zs).drop off) = .ok (rrs, (msg ++ zs).drop next) ∧
        rrs.val.flatMap dumpResourceRecord = octets := by
  subst hn
  induction h with
  | nil => exact ⟨⟨[], rfl⟩, rfl, rfl⟩
  | cons h hs ih =>
    obtain ⟨rr, hrr, hdump⟩ := h.parse zs
    obtain ⟨⟨rrs, hlen⟩, hrrs, hdumps⟩ := ih
    refine ⟨⟨rr :: rrs, by rw [List.length_cons, hlen, List.length_cons]⟩, ?_, ?_⟩
    · exact bind_eq_ok.mpr ⟨_, hrr, bind_eq_ok.mpr ⟨_, hrrs, rfl⟩⟩
    · rw [List.flatMap_cons, hdump, hdumps]

theorem SectionAt.append {octets : List UInt8} {rs' : List Record}
    (h : SectionAt msg off (rs ++ rs') next octets) : ∃ m octets₁ octets₂,
      SectionAt msg off rs m octets₁ ∧ SectionAt msg m rs' next octets₂ ∧
        octets = octets₁ ++ octets₂ := by
  induction rs generalizing off octets with
  | nil => exact ⟨off, [], octets, .nil, h, rfl⟩
  | cons r rs ih =>
    cases h with
    | cons h hs =>
      obtain ⟨m, o₁, o₂, h₁, h₂, rfl⟩ := ih hs
      exact ⟨m, _, o₂, .cons h h₁, h₂, (List.append_assoc ..).symm⟩

theorem SectionKept.sectionAt {octets : List UInt8}
    (h : SectionKept msg K off off' rs next octets) : SectionAt msg off rs next octets := by
  induction h with
  | nil => exact .nil
  | cons h _ ih => exact .cons h.toRecordAt ih

variable {m : Message} {q : Question}

/-- **What is sent for a response**: its header under the id of the client, its question, and its
records with their owner names written out. -/
theorem relayedResponse_eq {octets : List UInt8} (hread : Says msg m) (hq : m.question = [q])
    (hqr : 128 ≤ m.flags.1.toNat) (hlabels : ∀ l ∈ q.qname, IsPlainLabel l)
    (hrecords : SectionAt msg (12 + (questionOctets q).length)
      (m.answer ++ (m.authority ++ m.additional)) next octets) :
    ∃ header r, HeaderOf header m ∧ (∃ t, msg = dumpHeader header ++ (questionOctets q ++ t)) ∧
      parseStream msg = .ok (header, .response r) ∧
      ∀ s, handleSendResponse s r.header.id r = .reply (s.convertTable m.id.toNat).bufSock
        (dumpHeader { header with id := (s.convertTable m.id.toNat).bufReqId } ++
          (questionOctets q ++ octets)) := by
  obtain ⟨header, rest, hheader⟩ : ∃ header rest, parseHeader msg = .ok (header, rest) := by
    obtain ⟨_, _, _, _, _, _, _, hh, -⟩ := hread
    obtain ⟨header, hp, -⟩ := parseHeader_reads hh
    exact ⟨_, _, hp⟩
  obtain ⟨hH, hls, t, hmsg⟩ := message_parts hread hq hheader
  obtain ⟨o₂, octets₁, _, h₁, hrest, rfl⟩ := hrecords.append
  obtain ⟨o₃, octets₂, octets₃, h₂, h₃, rfl⟩ := hrest.append
  -- the parsers run over the receive buffer
  obtain ⟨zs, hzs⟩ : ∃ zs, receiveBuffer msg = msg ++ zs := ⟨_, rfl⟩
  have hbuf : parseHeader (msg ++ zs) = .ok (header, (msg ++ zs).drop 12) := by
    rw [hmsg, List.append_assoc, parseHeader_dumpHeader]
    rfl
  have hquestion : parseQuestion ((msg ++ zs).drop 12) =
      .ok (questionOf q, (msg ++ zs).drop (12 + (questionOctets q).length)) := by
    have hdrop : (msg ++ zs).drop 12 = questionOctets q ++ (t ++ zs) := by
      rw [hmsg, List.append_assoc, List.append_assoc]
      rfl
    rw [← List.drop_drop, hdrop, parseQuestion_octets hls, List.drop_left]
  obtain ⟨⟨answer, han⟩, hanswer, hdump₁⟩ := h₁.parse zs hH.ancount
  obtain ⟨⟨authority, hns⟩, hauthority, hdump₂⟩ := h₂.parse zs hH.nscount
  obtain ⟨⟨additional, har⟩, hadditional, hdump₃⟩ := h₃.parse zs hH.arcount
  refine ⟨header, ⟨header, questionOf q, answer, authority, additional, han, hns, har⟩, hH,
    ⟨t, hmsg⟩, ?_, fun s => ?_⟩
  · have hresponse : ¬ header.qr = 0 := by
      rw [header.qr_eq_zero_iff, not_lt]
      rwa [← hH.flags] at hqr
    rw [parseStream, hzs, hbuf, ok_bind]
    dsimp only
    rw [if_neg hresponse]
    refine bind_eq_ok.mpr ⟨_, ?_, rfl⟩
    exact bind_eq_ok.mpr ⟨_, hquestion, bind_eq_ok.mpr ⟨_, hanswer, bind_eq_ok.mpr ⟨_, hauthority,
      bind_eq_ok.mpr ⟨_, hadditional, rfl⟩⟩⟩⟩
  · dsimp only at hdump₁ hdump₂ hdump₃
    simp only [handleSendResponse, dumpQuestion_questionOf hlabels, hdump₁, hdump₂, hdump₃, hH.id,
      List.append_assoc]

/-! ## What the written-out records say -/

/-- The octets after the owner name stand in the message. -/
theorem RecordAt.stands (h : RecordAt msg off r b len) :
    fixedOctets r len ++ (msg.drop (b + 10)).take len.toNat <+: msg.drop b :=
  prefix_append_iff.mpr ⟨h.fixed, List.take_prefix _ _⟩

theorem recordOctets_parts (h : recordOctets msg r b len <+: msg'.drop off') :
    wire r.owner <+: msg'.drop off' ∧
      fixedOctets r len ++ (msg.drop (b + 10)).take len.toNat <+:
        msg'.drop (off' + (wire r.owner).length) :=
  prefix_append_iff.mp h

/-- The octets of a record that are in `K` keep their offsets. -/
theorem RecordKept.agree (h : RecordKept msg K off off' r b len)
    (hstands : recordOctets msg r b len <+: msg'.drop off') :
    ∀ i ∈ K, off ≤ i → i < b + 10 + len.toNat → msg'[i]? = msg[i]? := by
  obtain ⟨howner, hrest⟩ := recordOctets_parts hstands
  intro i hi hoff hlt
  rcases lt_or_ge i b with hb | hb
  · obtain ⟨rfl, -, hw, rfl⟩ := h.keptOwner i hi hoff hb
    obtain ⟨j, rfl⟩ := Nat.exists_eq_add_of_le hoff
    exact getElem?_of_prefix_drop hw howner (by omega)
  · rw [h.keptData i hi hb hlt] at hrest
    obtain ⟨j, rfl⟩ := Nat.exists_eq_add_of_le hb
    refine getElem?_of_prefix_drop h.stands hrest ?_
    have hlen := h.length
    rw [recordOctets, List.length_append] at hlen
    omega

/-- **The octets in `K` keep their offsets**. -/
theorem SectionKept.agree {octets : List UInt8} (h : SectionKept msg K off off' rs next octets)
    (hstands : octets <+: msg'.drop off') :
    ∀ i ∈ K, off ≤ i → i < next → msg'[i]? = msg[i]? := by
  induction h with
  | nil => exact fun i _ hle hlt => absurd hlt (not_lt.mpr hle)
  | cons h hs ih =>
    obtain ⟨hrecord, hrest⟩ := prefix_append_iff.mp hstands
    intro i hi hle hlt
    rcases lt_or_ge i _ with hin | hin
    · exact h.agree hrecord i hi hle hin
    · exact ih hrest i hi hin hlt

/-- The offsets in `K` before the data of a record still are before it. -/
theorem RecordKept.before (h : RecordKept msg K off off' r b len)
    (hbefore : ∀ i ∈ K, i < off → i < off') :
    ∀ i ∈ K, ∀ j, j ≤ len.toNat → i < b + 10 + j →
      i < off' + (wire r.owner).length + 10 + j := by
  intro i hi j hj hlt
  rcases lt_or_ge i off with hoff | hoff
  · have := hbefore i hi hoff
    omega
  · rcases lt_or_ge i b with hb | hb
    · obtain ⟨rfl, -, -, rfl⟩ := h.keptOwner i hi hoff hb
      exact hlt
    · have := h.keptData i hi hb (by omega)
      omega

/-- Written out, a record says the same. -/
theorem RecordKept.reads (h : RecordKept msg K off off' r b len)
    (hK : ∀ i ∈ K, msg'[i]? = msg[i]?) (hbefore : ∀ i ∈ K, i < off → i < off')
    (hstands : recordOctets msg r b len <+: msg'.drop off') :
    RecordBy (NameAt msg') (NameAt msg') msg' off' r
      (off' + (recordOctets msg r b len).length) := by
  obtain ⟨howner, hrest⟩ := recordOctets_parts hstands
  obtain ⟨hfixed, hdata⟩ := prefix_append_iff.mp hrest
  have hlen := h.length
  have hle := hstands.length_le
  rw [List.length_drop] at hle
  refine ⟨_, len, .of_wire (fun l hl => (h.labels l hl).1) howner, hfixed, ?_, by omega, by omega⟩
  apply h.data.shift hK (fun i hi j hj => h.before hbefore i hi j hj.le)
  intro j hj
  have hmsg := List.take_prefix len.toNat (msg.drop (b + 10))
  refine getElem?_of_prefix_drop hmsg hdata ?_
  have hin := h.inside
  rw [List.length_take, List.length_drop]
  omega

/-- **Written out, the records say the same**. -/
theorem SectionKept.reads {octets : List UInt8} (h : SectionKept msg K off off' rs next octets)
    (hK : ∀ i ∈ K, msg'[i]? = msg[i]?) (hbefore : ∀ i ∈ K, i < off → i < off')
    (hstands : octets <+: msg'.drop off') :
    SectionBy (NameAt msg') (NameAt msg') msg' off' rs (off' + octets.length) := by
  induction h with
  | nil => rfl
  | cons h hs ih =>
    obtain ⟨hrecord, hrest⟩ := prefix_append_iff.mp hstands
    refine ⟨_, h.reads hK hbefore hrecord, ?_⟩
    rw [List.length_append, ← Nat.add_assoc]
    refine ih (fun i hi hlt => ?_) hrest
    rw [h.length, ← Nat.add_assoc, ← Nat.add_assoc]
    exact h.before hbefore i hi _ le_rfl hlt

/-! ## Relayed responses -/

/-- **Relayed in place**: the labels of the question carry neither separator nor terminator, and
the pointers in the data of the records lead to names in octets that keep their offsets when the
owner names are written out. -/
def RelaysInPlace (msg : List UInt8) (m : Message) (q : Question) : Prop :=
  (∀ l ∈ q.qname, IsPlainLabel l) ∧ ∃ K octets, (∀ i ∈ K, 12 ≤ i ∧ i < msg.length) ∧
    SectionKept msg K (12 + (questionOctets q).length) (12 + (questionOctets q).length)
      (m.answer ++ (m.authority ++ m.additional)) msg.length octets

/-- Written out, a message of one question says the same under its new id. -/
theorem says_written {header : DnsHeader} {t octets : List UInt8} (hH : HeaderOf header m)
    (hq : m.question = [q]) (hls : ∀ l ∈ q.qname, IsLabel l)
    (hmsg : msg = dumpHeader header ++ (questionOctets q ++ t))
    (hin : ∀ i ∈ K, 12 ≤ i ∧ i < msg.length)
    (hkept : SectionKept msg K (12 + (questionOctets q).length) (12 + (questionOctets q).length)
      (m.answer ++ (m.authority ++ m.additional)) msg.length octets) (id : UInt16) :
    Says (dumpHeader { header with id } ++ (questionOctets q ++ octets)) { m with id } := by
  have hlen : (dumpHeader { header with id } ++ (questionOctets q ++ octets)).length =
      12 + (questionOctets q).length + octets.length := by
    rw [List.length_append, List.length_append, Nat.add_assoc]
    rfl
  have hheader : dumpHeader { header with id } = headerOctets { m with id } header.qdcount
      header.ancount header.nscount header.arcount :=
    dumpHeader_eq_iff.mpr ⟨rfl, hH.flags, rfl, rfl, rfl, rfl⟩
  have hstart : headerOctets { m with id } header.qdcount header.ancount header.nscount
      header.arcount <+: dumpHeader { header with id } ++ (questionOctets q ++ octets) :=
    hheader ▸ List.prefix_append _ _
  have hstands : questionOctets q ++ octets <+:
      (dumpHeader { header with id } ++ (questionOctets q ++ octets)).drop 12 := List.prefix_rfl
  generalize dumpHeader { header with id } ++ (questionOctets q ++ octets) = msg' at *
  have hq₁ : questionOctets q <+: msg.drop 12 := hmsg ▸ List.prefix_append _ _
  obtain ⟨hq₂, hoctets⟩ := prefix_append_iff.mp hstands
  -- the octets in `K` are those of the question, and those of the records that are kept
  have hK : ∀ i ∈ K, msg'[i]? = msg[i]? := by
    intro i hi
    obtain ⟨hlow, hlt⟩ := hin i hi
    obtain ⟨j, rfl⟩ := Nat.exists_eq_add_of_le hlow
    rcases lt_or_ge j (questionOctets q).length with hj | hj
    · exact getElem?_of_prefix_drop hq₁ hq₂ hj
    · exact hkept.agree hoctets _ hi (by omega) hlt
  have hplain := plainAt_question hls hq₂
  have hrecords := hkept.reads hK (fun _ _ h => h) hoctets
  rw [← hlen] at hrecords
  obtain ⟨o₂, han, hrecords⟩ := SectionBy.append_iff.mp hrecords
  obtain ⟨o₃, hns, har⟩ := SectionBy.append_iff.mp hrecords
  refine ⟨_, _, _, _, _, o₂, o₃, hstart, fun q' hq' => ?_, hH.qdcount, hH.ancount, hH.nscount,
    hH.arcount, ?_, han, hns, har⟩
  · obtain rfl : q = q' := by simpa [hq] using hq'
    exact ⟨_, hplain⟩
  · rw [hq]
    exact ⟨_, (questionBy_iff hplain).mpr ⟨hq₂, rfl⟩, rfl⟩

/-- **A response that is relayed in place** keeps its meaning: it is parsed, and what is sent to
the client says the same under the id of the client. -/
theorem relayedResponse_reads (hread : Says msg m) (hq : m.question = [q])
    (hqr : 128 ≤ m.flags.1.toNat) (hplace : RelaysInPlace msg m q) :
    ∃ header r, parseStream msg = .ok (header, .response r) ∧
      ∀ s, ∃ client datagram, handleSendResponse s r.header.id r = .reply client datagram ∧
        Says datagram { m with id := (s.convertTable m.id.toNat).bufReqId } := by
  obtain ⟨hlabels, K, octets, hin, hkept⟩ := hplace
  obtain ⟨header, r, hH, ⟨t, hmsg⟩, hparse, hsent⟩ :=
    relayedResponse_eq hread hq hqr hlabels hkept.sectionAt
  refine ⟨header, r, hparse, fun s => ⟨_, _, hsent s, ?_⟩⟩
  exact says_written hH hq (fun l hl => (hlabels l hl).1) hmsg hin hkept _

/-- A query for `a.b.`. -/
def sampleQuestion : Question := ⟨[ascii "a", ascii "b"], 1, 1⟩

/-- A response with the alias `c.a.b.` of `a.b.`, whose suffix is a pointer to the question. -/
def suffixResponse : List UInt8 :=
  [0, 7, 129, 128, 0, 1, 0, 1, 0, 0, 0, 0] ++ [1, 97, 1, 98, 0, 0, 1, 0, 1] ++
    [192, 12, 0, 5, 0, 1, 0, 0, 0, 60, 0, 4] ++ [1, 99, 192, 12]

/-- The alias. -/
def suffixRecord : Record :=
  ⟨[ascii "a", ascii "b"], 5, 1, 60, .name [ascii "c", ascii "a", ascii "b"]⟩

/-- What the response says. -/
def suffixMessage : Message := ⟨7, (129, 128), [sampleQuestion], [suffixRecord], [], []⟩

theorem suffixResponse_name : PlainAt suffixResponse 12 [ascii "a", ascii "b"] 17 :=
  ⟨by decide, by decide, rfl⟩

/-- The offsets of the name of the question. -/
def nameOffsets : Set ℕ := {i | 12 ≤ i ∧ i < 17}

theorem suffixResponse_data : NameVia suffixResponse nameOffsets 33
    [ascii "c", ascii "a", ascii "b"] 37 := by
  have hK : ∀ i, i ≤ 1 → 12 + i ∈ nameOffsets ∧ 14 + i ∈ nameOffsets := fun i hi =>
    ⟨⟨by omega, by omega⟩, by omega, by omega⟩
  have hin : NameIn suffixResponse nameOffsets 12 [ascii "a", ascii "b"] 17 :=
    .label (by decide) (fun i hi => (hK i hi).1) (by decide)
      (.label (by decide) (fun i hi => (hK i hi).2) (by decide)
        (.root ⟨by decide, by decide⟩ rfl))
  exact .label (by decide) (by decide)
    (.pointer rfl rfl (by decide) rfl (by decide) (by decide) hin)

theorem suffixResponse_owner : NameAt suffixResponse 21 [ascii "a", ascii "b"] 23 :=
  .pointer rfl rfl (by decide) rfl (by decide) (by decide) suffixResponse_name.nameAt

theorem suffixResponse_record : RecordBy (NameAt suffixResponse) (NameAt suffixResponse)
    suffixResponse 21 suffixRecord 37 :=
  ⟨23, 4, suffixResponse_owner, by decide, .name (by decide) suffixResponse_data.nameAt, rfl,
    by decide⟩

theorem suffixResponse_reads : Says suffixResponse suffixMessage :=
  ⟨1, 1, 0, 0, 21, 37, 37, by decide,
    fun q hq => Option.some.inj hq ▸ ⟨_, suffixResponse_name⟩, rfl, rfl, rfl, rfl,
    ⟨21, ⟨17, suffixResponse_name.nameAt, by decide, rfl⟩, rfl⟩,
    ⟨37, suffixResponse_record, rfl⟩, rfl, rfl⟩

theorem suffixResponse_kept : RecordKept suffixResponse nameOffsets 21 21 suffixRecord 23 4 where
  labels := by decide
  owner := .inr ⟨12, 17, by decide, suffixResponse_name, rfl⟩
  fixed := by decide
  inside := by decide
  data := .name (by decide) suffixResponse_data
  keptOwner i hi hlow := absurd (hlow.trans_lt hi.2) (by decide)
  keptData i hi hlow := absurd (hlow.trans_lt hi.2) (by decide)

theorem relayedResponse_reads_suffix :
    ∃ header r, parseStream suffixResponse = .ok (header, .response r) ∧
      ∀ s, ∃ client datagram, handleSendResponse s r.header.id r = .reply client datagram ∧
        Says datagram
          { suffixMessage with id := (s.convertTable suffixMessage.id.toNat).bufReqId } :=
  have hplace : RelaysInPlace suffixResponse suffixMessage sampleQuestion :=
    ⟨by decide, nameOffsets, _, fun _ hi => ⟨hi.1, hi.2.trans (by decide)⟩,
      .cons suffixResponse_kept .nil⟩
  relayedResponse_reads suffixResponse_reads rfl (by decide) hplace

/-- Owner names that are written out, or one pointer pair to a name that is. -/
def OwnerAt (msg : List UInt8) : NameReader := fun off ls next =>
  NameAt msg off ls next ∧ (PlainAt msg off ls next ∨ PairAt msg off ls next)

/-- A response with the SOA record of `a.b.`, whose second name has the suffix `n.` of the
first. -/
def soaResponse : List UInt8 :=
  [0, 7, 129, 131, 0, 1, 0, 0, 0, 1, 0, 0] ++ [1, 97, 1, 98, 0, 0, 1, 0, 1] ++
    [192, 12, 0, 6, 0, 1, 0, 0, 1, 0, 0, 27] ++ [1, 110, 0, 1, 104, 192, 33] ++
    List.replicate 20 0

/-- The SOA record. -/
def soaRecord : Record :=
  ⟨[ascii "a", ascii "b"], 6, 1, 256,
    .soa [ascii "n"] [ascii "h", ascii "n"] (List.replicate 20 0)⟩

/-- What the response says. -/
def soaMessage : Message := ⟨7, (129, 131), [sampleQuestion], [], [soaRecord], []⟩

theorem soaResponse_owner : PairAt soaResponse 21 [ascii "a", ascii "b"] 23 :=
  ⟨12, 17, by decide, ⟨by decide, by decide, rfl⟩, rfl⟩

theorem soaResponse_reads {O : NameReader}
    (hname : O 12 [ascii "a", ascii "b"] 17) (howner : O 21 [ascii "a", ascii "b"] 23) :
    Reads soaResponse O (NameAt soaResponse) soaMessage := by
  have hn : PlainAt soaResponse 33 [ascii "n"] 36 := ⟨by decide, by decide, rfl⟩
  have hh : NameAt soaResponse 36 [ascii "h", ascii "n"] 40 :=
    .label (by decide) (by decide)
      (.pointer rfl rfl (by decide) rfl (by decide) (by decide) hn.nameAt)
  have hrecord : RecordBy O (NameAt soaResponse) soaResponse 21 soaRecord 60 :=
    ⟨23, 27, howner, by decide, .soa rfl hn.nameAt hh (by decide) rfl rfl, rfl, by decide⟩
  exact ⟨1, 0, 1, 0, 21, 21, 60, by decide,
    fun q hq => Option.some.inj hq ▸ ⟨17, by decide, by decide, rfl⟩, rfl, rfl, rfl, rfl,
    ⟨21, ⟨17, hname, by decide, rfl⟩, rfl⟩, rfl, ⟨60, hrecord, rfl⟩, rfl⟩

theorem soaResponse_message : Says soaResponse soaMessage :=
  have hname : PlainAt soaResponse 12 [ascii "a", ascii "b"] 17 := ⟨by decide, by decide, rfl⟩
  soaResponse_reads hname.nameAt
    (.pointer rfl rfl (by decide) rfl (by decide) (by decide) hname.nameAt)

/-- What is sent for the response, to a client whose id is zero. -/
def relayedSoa : List UInt8 :=
  [0, 0, 129, 131, 0, 1, 0, 0, 0, 1, 0, 0] ++
    (questionOctets sampleQuestion ++ (recordOctets soaResponse soaRecord 23 27 ++ []))

/-- The second name of the SOA record is relayed as `h.`: where its pointer leads, the relayed
response has an octet of the time to live. -/
theorem not_says_relayedSoa {m : Message} (hq : m.question = [sampleQuestion])
    (han : m.answer = []) (hns : m.authority = [soaRecord]) : ¬ Says relayedSoa m := by
  rintro ⟨qd, an, ns, ar, o₁, o₂, o₃, -, -, -, -, -, -, hqs, h₁, h₂, -⟩
  rw [hq] at hqs
  rw [han] at h₁
  rw [hns] at h₂
  have hplain : PlainAt relayedSoa 12 sampleQuestion.qname 17 := ⟨by decide, by decide, rfl⟩
  obtain ⟨n, hqb, rfl⟩ := hqs
  obtain ⟨-, rfl⟩ := (questionBy_iff hplain).mp hqb
  obtain rfl := h₁
  obtain ⟨n, ⟨b, len, howner, -, hdata, -⟩, -⟩ := h₂
  have hown : PlainAt relayedSoa 21 soaRecord.owner 26 := ⟨by decide, by decide, rfl⟩
  obtain ⟨-, rfl⟩ := howner.unique hown.nameAt
  cases hdata with
  | soa ht hm hr =>
    have hn : PlainAt relayedSoa 36 [ascii "n"] 39 := ⟨by decide, by decide, rfl⟩
    obtain ⟨-, rfl⟩ := hm.unique hn.nameAt
    have hh : NameAt relayedSoa 39 [ascii "h"] 43 :=
      .label (by decide) (by decide) (.pointer rfl rfl (by decide) rfl (by decide) (by decide)
        (.root rfl))
    exact absurd (hr.unique hh).1 (by decide)

theorem not_relayedResponse_soa : ¬ ∀ msg m q, msg.length ≤ bufferLen → Says msg m →
    Reads msg (OwnerAt msg) (NameAt msg) m → m.question = [q] → 128 ≤ m.flags.1.toNat →
      ∃ header r, parseStream msg = .ok (header, .response r) ∧
        ∀ s client datagram, handleSendResponse s r.header.id r = .reply client datagram →
          datagram.length ≤ bufferLen →
            Says datagram { m with id := (s.convertTable m.id.toNat).bufReqId } := by
  intro hall
  have hname : PlainAt soaResponse 12 [ascii "a", ascii "b"] 17 := ⟨by decide, by decide, rfl⟩
  have hreads : Reads soaResponse (OwnerAt soaResponse) (NameAt soaResponse) soaMessage :=
    soaResponse_reads ⟨hname.nameAt, .inl hname⟩
      ⟨.pointer rfl rfl (by decide) rfl (by decide) (by decide) hname.nameAt,
        .inr soaResponse_owner⟩
  obtain ⟨header, r, hparse, hrelay⟩ := hall soaResponse soaMessage sampleQuestion (by decide)
    soaResponse_message hreads rfl (by decide)
  have hrecord : RecordAt soaResponse 21 soaRecord 23 27 :=
    ⟨by decide, .inr soaResponse_owner, by decide, by decide⟩
  obtain ⟨header', r', hH, -, hparse', hsent⟩ := relayedResponse_eq soaResponse_message rfl
    (by decide) (q := sampleQuestion) (by decide) (.cons hrecord .nil)
  cases hparse.symm.trans hparse'
  have hsent := hsent (.init .init)
  rw [hH.dump] at hsent
  exact not_says_relayedSoa rfl rfl rfl (hrelay (.init .init) ⟨0, 0⟩ relayedSoa hsent (by decide))

end Adrift
