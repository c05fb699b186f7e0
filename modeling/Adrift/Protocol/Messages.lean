import Adrift.Lib.DnsEncoding
import Adrift.Protocol.OwnerNames

/-!
# Messages of the program

The parsers keep what a message says, where its owner names have the forms they read and the names
in its data are written out; and what the writers write of a record says the record again. So do
the replies that the program writes by itself, the two errors among them.

## Main definitions

* `Holds rr r`: the parsed record `rr` is what `r` says
* `HoldsMessage response m`: the parsed response is what the message says
* `nameError id q`, `formatError`: what the error replies say

## Main results

* `parseStream_response_reads`, `parseStream_query_reads`: messages are parsed as what they say
* `Holds.dump`: what is written of a record
* `nameErrorReply_message`, `formatError_message`: the error replies are messages
-/

namespace Adrift

open BigEndian DnsMessage DomainName Outcome

variable {msg : List UInt8} {off next : ℕ} {rr : DnsResourceRecord} {r : Record} {rs : List Record}
  {m : Message} {q : Question} {header : DnsHeader}

/-! ## Records -/

/-- **A parsed record is what a record says**, its names as text and its data written out. -/
structure Holds (rr : DnsResourceRecord) (r : Record) : Prop where
  name : rr.name = .ofBlock (text r.owner)
  type : rr.type = r.type
  rclass : rr.rclass = r.rclass
  ttl : rr.ttl = r.ttl
  rdata : rr.rdata = r.rdata.written
  fits : r.rdata.Fits r.type

theorem Holds.rdlength (h : Holds rr r) : rr.rdlength = .ofNat r.rdata.written.length := by
  rw [← h.rdata, rr.rdata_length, UInt16.ofNat_toNat]

/-- **A record is written** as what it says. -/
theorem Holds.dump (h : Holds rr r) (hls : ∀ l ∈ r.owner, IsPlainLabel l) :
    dumpResourceRecord rr = r.written := by
  rw [dumpResourceRecord, h.name, dumpName_text hls, h.type, h.rclass, h.ttl, h.rdlength, h.rdata,
    Record.written, fixedOctets]
  simp only [List.append_assoc]

theorem Holds.writable (h : Holds rr r) (hls : ∀ l ∈ r.owner, IsPlainLabel l) : r.Writable where
  owner l hl := (hls l hl).1
  fits := h.fits
  length_lt := by
    rw [← h.rdata, rr.rdata_length]
    exact rr.rdlength.toNat_lt

/-- **A record is parsed** from a buffer as what it says. -/
theorem parseResourceRecord_reads (h : RecordBy (OwnerAt msg) (PlainAt msg) msg off r next)
    (zs : List UInt8) : ∃ rr, parseResourceRecord ((msg ++ zs).drop off) (msg ++ zs) =
      .ok (rr, (msg ++ zs).drop next) ∧ Holds rr r := by
  obtain ⟨b, len, ⟨-, howner⟩, hfixed, hdata, rfl, -⟩ := h
  obtain ⟨hfits, hwritten, hlen⟩ := hdata.written
  have hfields : fixedOctets r len ++ r.rdata.written <+: (msg ++ zs).drop b :=
    prefix_drop_append (prefix_append_iff.mpr ⟨hfixed, hwritten⟩) zs
  obtain ⟨t, ht⟩ := hfields
  rw [List.append_assoc] at ht
  have hrest : (msg ++ zs).drop (b + 10 + len.toNat) = t := by
    rw [Nat.add_assoc, ← List.drop_drop, ← ht, ← List.append_assoc, List.drop_left']
    rw [List.length_append, hlen]
    rfl
  have hle : len.toNat ≤ (r.rdata.written ++ t).length := by
    rw [List.length_append]
    omega
  refine ⟨⟨.ofBlock (text r.owner), r.type, r.rclass, r.ttl, len, _, List.length_take_of_le hle⟩,
    ?_, ⟨rfl, rfl, rfl, rfl, List.take_left' hlen, hfits⟩⟩
  rw [parseResourceRecord, parseOwner_resolved howner zs, ok_bind, ← ht, hrest]
  simp only [fixedOctets, List.append_assoc, parse16_octets16, parse32_octets32, ok_bind,
    parseRdata, dif_pos hle, pure_eq_ok, List.drop_left' hlen]

/-- **Records are parsed**, one after the other. -/
theorem parseRecords_reads (h : SectionBy (OwnerAt msg) (PlainAt msg) msg off rs next)
    (zs : List UInt8) {n : ℕ} (hn : n = rs.length) :
    ∃ rrs, parseRecords (msg ++ zs) n ((msg ++ zs).drop off) =
      .ok (rrs, (msg ++ zs).drop next) ∧ List.Forall₂ Holds rrs.val rs := by
  subst hn
  induction rs generalizing off with
  | nil =>
    obtain rfl : next = off := h
    exact ⟨⟨[], rfl⟩, rfl, .nil⟩
  | cons r rs ih =>
    obtain ⟨n, hr, hs⟩ := h
    obtain ⟨⟨rrs, hlen⟩, hrrs, hholds⟩ := ih hs
    obtain ⟨rr, hrr, hr⟩ := parseResourceRecord_reads hr zs
    refine ⟨⟨rr :: rrs, by rw [List.length_cons, hlen, List.length_cons]⟩, ?_, .cons hr hholds⟩
    exact bind_eq_ok.mpr ⟨_, hrr, bind_eq_ok.mpr ⟨_, hrrs, rfl⟩⟩

/-- The records of a message. -/
def recordsOf (m : Message) : List Record := m.answer ++ (m.authority ++ m.additional)

/-! ## Datagrams -/

/-- **A parsed response is what a message says**. -/
structure HoldsMessage (response : Response) (m : Message) : Prop where
  header : HeaderOf response.header m
  question : m.question.map questionOf = [response.question]
  answer : List.Forall₂ Holds response.answer m.answer
  authority : List.Forall₂ Holds response.authority m.authority
  additional : List.Forall₂ Holds response.additional m.additional

/-- A message whose owner names have the forms that the parser reads. -/
theorem says_of_ownerAt {N : NameReader} (hN : N.Le (NameAt msg))
    (hread : Reads msg (OwnerAt msg) N m) : Says msg m :=
  hread.mono (fun _ _ _ h => h.1) hN

/-- The header and the question of a message are parsed from the receive buffer. -/
theorem parse_message (hread : Says msg m) (hq : m.question = [q]) (zs : List UInt8) :
    ∃ header, HeaderOf header m ∧
      parseHeader (msg ++ zs) = .ok (header, (msg ++ zs).drop 12) ∧
      parseQuestion ((msg ++ zs).drop 12) =
        .ok (questionOf q, (msg ++ zs).drop (12 + (questionOctets q).length)) := by
  obtain ⟨_, _, _, _, _, _, _, hh, -⟩ := id hread
  obtain ⟨header, hheader, -⟩ := parseHeader_reads hh
  obtain ⟨hH, hls, t, hmsg⟩ := message_parts hread hq hheader
  have hbuf : msg ++ zs = dumpHeader header ++ (questionOctets q ++ (t ++ zs)) := by
    rw [hmsg]
    simp only [List.append_assoc]
  have hdrop : (msg ++ zs).drop 12 = questionOctets q ++ (t ++ zs) := by
    rw [hbuf]
    rfl
  refine ⟨header, hH, ?_, ?_⟩
  · rw [hdrop, hbuf, parseHeader_dumpHeader]
  · rw [← List.drop_drop, hdrop, parseQuestion_octets hls, List.drop_left]

/-- **A query is parsed** as its question. -/
theorem parseStream_query_reads (hread : Says msg m) (hq : m.question = [q])
    (hqr : m.flags.1.toNat < 128) :
    ∃ header, HeaderOf header m ∧ parseStream msg = .ok (header, .query (questionOf q)) := by
  obtain ⟨zs, hzs⟩ : ∃ zs, receiveBuffer msg = msg ++ zs := ⟨_, rfl⟩
  obtain ⟨header, hH, hheader, hquestion⟩ := parse_message hread hq zs
  have hzero : header.qr = 0 := header.qr_eq_zero_iff.mpr (by rwa [← hH.flags] at hqr)
  refine ⟨header, hH, ?_⟩
  rw [parseStream, hzs, hheader, ok_bind]
  dsimp only
  rw [if_pos hzero, if_neg (not_not.mpr (hH.qdcount_one hq)), hquestion]
  rfl

/-- **A response is parsed** as what it says. -/
theorem parseStream_response_reads (hread : Reads msg (OwnerAt msg) (PlainAt msg) m)
    (hq : m.question = [q]) (hqr : 128 ≤ m.flags.1.toNat) :
    ∃ header r, parseStream msg = .ok (header, .response r) ∧ HoldsMessage r m := by
  obtain ⟨zs, hzs⟩ : ∃ zs, receiveBuffer msg = msg ++ zs := ⟨_, rfl⟩
  have hmessage := says_of_ownerAt (fun _ _ _ h => h.nameAt) hread
  obtain ⟨header, hH, hheader, hquestion⟩ := parse_message hmessage hq zs
  obtain ⟨_, _, _, _, o₁, o₂, o₃, -, hfirst, -, -, -, -, hqs, h₁, h₂, h₃⟩ := hread
  -- the records begin behind the question
  obtain rfl : o₁ = 12 + (questionOctets q).length := by
    rw [hq] at hqs hfirst
    obtain ⟨b, hb⟩ := hfirst q rfl
    have hqs : QuestionsBy (NameAt msg) msg 12 [q] o₁ := hqs.mono fun _ _ _ h => h.1
    obtain ⟨n, hqb, rfl⟩ := hqs
    exact ((questionBy_iff hb).mp hqb).2
  obtain ⟨⟨answer, han⟩, hanswer, hholds₁⟩ := parseRecords_reads h₁ zs hH.ancount
  obtain ⟨⟨authority, hns⟩, hauthority, hholds₂⟩ := parseRecords_reads h₂ zs hH.nscount
  obtain ⟨⟨additional, har⟩, hadditional, hholds₃⟩ := parseRecords_reads h₃ zs hH.arcount
  have hresponse : ¬ header.qr = 0 := by
    rw [header.qr_eq_zero_iff, not_lt]
    rwa [← hH.flags] at hqr
  refine ⟨header, ⟨header, questionOf q, answer, authority, additional, han, hns, har⟩, ?_,
    ⟨hH, by rw [hq, List.map_singleton], hholds₁, hholds₂, hholds₃⟩⟩
  rw [parseStream, hzs, hheader, ok_bind]
  dsimp only
  rw [if_neg hresponse]
  refine bind_eq_ok.mpr ⟨_, ?_, rfl⟩
  exact bind_eq_ok.mpr ⟨_, hquestion, bind_eq_ok.mpr ⟨_, hanswer, bind_eq_ok.mpr ⟨_, hauthority,
    bind_eq_ok.mpr ⟨_, hadditional, rfl⟩⟩⟩⟩

/-- A message without an error code in its flags. -/
theorem HeaderOf.noError (h : HeaderOf header m) (hm : m.flags.2.toNat % 16 = 0) :
    header.rcode = ReplyCode.noError.toBits := by
  have hflags := header.flags₂_toNat
  have hsnd : header.flags₂ = m.flags.2 := congrArg Prod.snd h.flags
  have hlt := header.rcode.isLt
  rw [hsnd] at hflags
  apply BitVec.eq_of_toNat_eq
  show header.rcode.toNat = 0
  omega

/-! ## Error replies -/

/-- The SOA record of the name error reply. -/
def rootAuthority : Record where
  owner := []
  type := 6
  rclass := 1
  ttl := 10800
  rdata := .soa [ascii "a", ascii "root-servers", ascii "net"]
    [ascii "nstld", ascii "verisign-grs", ascii "com"]
    (octets32 2023062600 ++ octets32 1800 ++ octets32 900 ++ octets32 604800 ++ octets32 86400)

/-- What the name error reply says. -/
def nameError (id : UInt16) (q : Question) : Message where
  id := id
  flags := (132, 3)
  question := [q]
  answer := []
  authority := [rootAuthority]
  additional := []

/-- What the format error reply says. -/
def formatError : Message := ⟨0, (132, 1), [], [], [], []⟩

theorem errorAuthority_holds : Holds errorAuthority rootAuthority where
  name := rfl
  type := rfl
  rclass := rfl
  ttl := rfl
  rdata := by decide
  fits := .soa rfl (by decide) (by decide) rfl

/-- **The name error reply is a message**: the question of the query, and an SOA record. -/
theorem nameErrorReply_message (header : DnsHeader) (hls : ∀ l ∈ q.qname, IsPlainLabel l) :
    Says (nameErrorReply header (questionOf q)) (nameError header.id q) := by
  have hroot : ∀ l ∈ rootAuthority.owner, IsPlainLabel l := fun l hl => nomatch hl
  have hdump := errorAuthority_holds.dump hroot
  have hwritten : nameErrorReply header (questionOf q) = (nameError header.id q).written := by
    rw [nameErrorReply, dumpErrorAuthority, hdump, dumpQuestion_questionOf hls]
    simp [Message.written, nameError, List.append_assoc]
    rfl
  rw [hwritten]
  have hone : 1 < 2 ^ 16 := Nat.one_lt_two_pow (Nat.succ_ne_zero 15)
  have hzero : 0 < 2 ^ 16 := Nat.two_pow_pos 16
  have hnone : ∀ r ∈ ([] : List Record), r.Writable := List.forall_mem_nil _
  apply Message.Writable.says_written
  refine ⟨?_, hnone, ?_, hnone, hone, hzero, hone, hzero⟩
  · intro q' hq' l hl
    obtain rfl := List.mem_singleton.mp hq'
    exact (hls l hl).1
  · intro r hr
    obtain rfl := List.mem_singleton.mp hr
    exact errorAuthority_holds.writable hroot

/-- **The format error reply is a message** without a question. -/
theorem formatError_message : Says (dumpHeader (getErrorHeader .formatError)) formatError := by
  have hwritten : dumpHeader (getErrorHeader .formatError) = formatError.written := rfl
  have hzero : 0 < 2 ^ 16 := Nat.two_pow_pos 16
  have hnone : ∀ r ∈ ([] : List Record), r.Writable := List.forall_mem_nil _
  rw [hwritten]
  apply Message.Writable.says_written
  exact ⟨List.forall_mem_nil _, hnone, hnone, hnone, hzero, hzero, hzero, hzero⟩

/-! ## Sample messages -/

/-- What the response for `a.b.` says: one address. -/
def servedMessage : Message where
  id := 1
  flags := (129, 128)
  question := [sampleQuestion]
  answer := [⟨[ascii "a", ascii "b"], 1, 1, 60, .octets [10, 3, 9, 44]⟩]
  authority := []
  additional := []

/-- What the query for `a.b.` says. -/
def askingMessage : Message := ⟨7, (1, 0), [sampleQuestion], [], [], []⟩

theorem servedMessage_writable : servedMessage.Writable := by
  have hrecord : ∀ r ∈ servedMessage.answer, r.Writable := by
    intro r hr
    obtain rfl := List.mem_singleton.mp hr
    exact ⟨by decide, .octets (by decide) (by decide) (by decide), by decide⟩
  have hnone : ∀ r ∈ ([] : List Record), r.Writable := List.forall_mem_nil _
  exact ⟨by decide, hrecord, hnone, hnone, by decide, by decide, by decide, by decide⟩

theorem askingMessage_writable : askingMessage.Writable := by
  have hnone : ∀ r ∈ ([] : List Record), r.Writable := List.forall_mem_nil _
  exact ⟨by decide, hnone, hnone, hnone, by decide, by decide, by decide, by decide⟩

end Adrift
