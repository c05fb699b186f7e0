import Adrift.Protocol.Relay
import Adrift.Protocol.ResponseRelay

/-!
# Decoding what was encoded

A message is dumped part after part, and parsed part after part with one cursor. The parsers of
`handle_receive_response` undo the writers of `handle_send_response`.

## Main definitions

* `IsDotted name`: the name is the dotted text of plain labels
* `dumpMessage r`, `parseMessage buf nameBuf`: all parts of a message, in their order

## Main results

* `handleSendResponse_eq`, `parseResponse_eq`: the handlers dump and parse messages
* `parseRecord_dump`, `parseRecords_dump`: records are read back as they were written
* `parseMessage_dump`: a message is read back as it was written, up to its end
-/

namespace Adrift

open BigEndian DomainName Outcome

/-- **A dotted name**: the text of labels of 1 to 63 octets without separators and terminators,
each followed by a separator. -/
def IsDotted (name : CString) : Prop :=
  ∃ ls : List Label, (∀ l ∈ ls, IsPlainLabel l) ∧ name.octets = text ls

/-- **The octets of a message**: its header, its question and its three sections. -/
def dumpMessage (r : Response) : List UInt8 :=
  dumpHeader r.header ++ dumpQuestion r.question ++ r.answer.flatMap dumpResourceRecord ++
    r.authority.flatMap dumpResourceRecord ++ r.additional.flatMap dumpResourceRecord

/-- The parts of a message after its header, and the cursor behind them. -/
def parseBody (buf nameBuf : List UInt8) (header : DnsHeader) :
    Except Fault (Response × List UInt8) := do
  let (question, buf) ← parseQuestion buf
  let (⟨answer, answer_length⟩, buf) ← parseRecords nameBuf header.ancount.toNat buf
  let (⟨authority, authority_length⟩, buf) ← parseRecords nameBuf header.nscount.toNat buf
  let (⟨additional, additional_length⟩, buf) ← parseRecords nameBuf header.arcount.toNat buf
  return ({ header, question, answer, authority, additional,
            answer_length, authority_length, additional_length }, buf)

/-- **The parts of a message**, and the cursor behind them. -/
def parseMessage (buf nameBuf : List UInt8) : Except Fault (Response × List UInt8) := do
  let (header, buf) ← parseHeader buf
  parseBody buf nameBuf header

/-- `handle_send_response` dumps a message under the id of the client. -/
theorem handleSendResponse_eq (s : Server) (reqId : UInt16) (r : Response) :
    handleSendResponse s reqId r = .reply (s.convertTable reqId.toNat).bufSock
      (dumpMessage
        { r with header := { r.header with id := (s.convertTable reqId.toNat).bufReqId } }) := rfl

/-- `handle_receive_response` parses the parts after the header. -/
theorem parseResponse_eq (buf nameBuf : List UInt8) (header : DnsHeader) :
    parseResponse buf nameBuf header = Prod.fst <$> parseBody buf nameBuf header := by
  rw [parseResponse, parseBody]
  simp only [map_bind, pure_eq_ok, map_ok]

variable {name : CString} {q : DnsQuestion} {rr : DnsResourceRecord} {rrs : List DnsResourceRecord}

/-! ## Names, questions and records -/

/-- A dotted name is written as the octets of its labels. -/
theorem IsDotted.exists_wire (h : IsDotted name) : ∃ ls : List Label,
    (∀ l ∈ ls, IsLabel l) ∧ dumpName name = wire ls ∧ .ofBlock (text ls) = name := by
  obtain ⟨ls, hls, htext⟩ := h
  have hname : .ofBlock (text ls) = name := htext ▸ name.ofBlock_octets
  exact ⟨ls, fun l hl => (hls l hl).1, hname ▸ dumpName_text hls, hname⟩

/-- **A question is read back** as it was written. -/
theorem parseQuestion_dump (h : IsDotted q.qname) (rest : List UInt8) :
    parseQuestion (dumpQuestion q ++ rest) = .ok (q, rest) := by
  obtain ⟨ls, hls, hdump, hname⟩ := h.exists_wire
  simp only [parseQuestion, dumpQuestion, hdump, List.append_assoc, parseQname_wire hls, ok_bind,
    parse16_octets16, pure_eq_ok, hname]

theorem parseRdata_append (rr : DnsResourceRecord) (rest : List UInt8) :
    parseRdata (rr.rdata ++ rest) rr.rdlength = .ok (⟨rr.rdata, rr.rdata_length⟩, rest) := by
  have hle : rr.rdlength.toNat ≤ (rr.rdata ++ rest).length := by
    rw [List.length_append, rr.rdata_length]
    exact Nat.le_add_right _ _
  rw [parseRdata, dif_pos hle]
  simp only [← rr.rdata_length, List.take_left, List.drop_left]

/-- **A record is read back** as it was written: its name is written out, and is not taken for a
pointer. -/
theorem parseRecord_dump (h : IsDotted rr.name) (nameBuf rest : List UInt8) :
    parseResourceRecord (dumpResourceRecord rr ++ rest) nameBuf = .ok (rr, rest) := by
  obtain ⟨ls, hls, hdump, hname⟩ := h.exists_wire
  simp only [parseResourceRecord, dumpResourceRecord, hdump, List.append_assoc,
    parseOwner_wire hls, ok_bind, parse16_octets16, parse32_octets32, parseRdata_append,
    pure_eq_ok, hname]

/-- **A section is read back** as it was written. -/
theorem parseRecords_dump (h : ∀ rr ∈ rrs, IsDotted rr.name) (nameBuf rest : List UInt8) {n : ℕ}
    (hn : rrs.length = n) :
    parseRecords nameBuf n (rrs.flatMap dumpResourceRecord ++ rest) = .ok (⟨rrs, hn⟩, rest) := by
  subst hn
  induction rrs with
  | nil => rfl
  | cons rr rrs ih =>
    have hrr := h rr List.mem_cons_self
    have ih := ih fun rr hrr => h rr (List.mem_cons_of_mem _ hrr)
    rw [List.flatMap_cons, List.append_assoc]
    exact bind_eq_ok.mpr ⟨_, parseRecord_dump hrr _ _, bind_eq_ok.mpr ⟨_, ih, rfl⟩⟩

/-! ## Messages -/

/-- **Decoding undoes encoding**: a message whose names are dotted is read back from its octets, and
whatever follows them is left. -/
theorem parseMessage_dump (r : Response) (hq : IsDotted r.question.qname)
    (hrrs : ∀ rr ∈ r.answer ++ r.authority ++ r.additional, IsDotted rr.name)
    (rest nameBuf : List UInt8) :
    parseMessage (dumpMessage r ++ rest) nameBuf = .ok (r, rest) := by
  -- the sections are read one after the other, as many records as the header counts
  have han : ∀ rr ∈ r.answer, IsDotted rr.name := fun rr h =>
    hrrs rr (List.mem_append_left _ (List.mem_append_left _ h))
  have hns : ∀ rr ∈ r.authority, IsDotted rr.name := fun rr h =>
    hrrs rr (List.mem_append_left _ (List.mem_append_right _ h))
  have har : ∀ rr ∈ r.additional, IsDotted rr.name := fun rr h =>
    hrrs rr (List.mem_append_right _ h)
  rw [parseMessage, dumpMessage]
  simp only [List.append_assoc, parseHeader_dumpHeader, ok_bind, parseBody,
    parseQuestion_dump hq, parseRecords_dump han _ _ r.answer_length,
    parseRecords_dump hns _ _ r.authority_length, parseRecords_dump har _ _ r.additional_length,
    pure_eq_ok]

/-- A response with a record in every section. -/
def sectionsResponse : Response where
  header := { getDefaultHeader with id := 7, rcode := 3, ancount := 1, nscount := 1, arcount := 1 }
  question := localQuestion
  answer := [⟨.ofBlock (ascii "a.b."), 1, 1, 60, 4, [10, 0, 0, 1], rfl⟩]
  authority := [errorAuthority]
  additional := [⟨.ofBlock (ascii "c."), 16, 1, 0, 0, [], rfl⟩]
  answer_length := rfl
  authority_length := rfl
  additional_length := rfl

theorem parseMessage_dump_sections :
    parseMessage (dumpMessage sectionsResponse ++ [192, 0]) [] =
      .ok (sectionsResponse, [192, 0]) := by
  have hab : IsDotted (.ofBlock (ascii "a.b.")) := ⟨[ascii "a", ascii "b"], by decide, by decide⟩
  have hc : IsDotted (.ofBlock (ascii "c.")) := ⟨[ascii "c"], by decide, by decide⟩
  have hroot : IsDotted (.ofBlock []) := ⟨[], by decide, by decide⟩
  refine parseMessage_dump sectionsResponse hab (fun rr hrr => ?_) [192, 0] []
  rcases List.mem_append.mp hrr with hrr | hrr
  · rcases List.mem_append.mp hrr with hrr | hrr
    · cases List.mem_singleton.mp hrr
      exact hab
    · cases List.mem_singleton.mp hrr
      exact hroot
  · cases List.mem_singleton.mp hrr
    exact hc

end Adrift
