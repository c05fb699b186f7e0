import Adrift.Lib.Outcome
import Adrift.Lib.BigEndian
import Adrift.Util.Memory

/-!
# The message codec

`protocol/protocol.c`: the header, question and resource record of a message, read from a cursor
into the receive buffer and written to the end of a send buffer. A cursor is the rest of the
buffer it points into, so that a read past the buffer faults; a send buffer is the octets
written so far, and its capacity is a property to prove, not a part of the model.

## Main definitions

* `DnsHeader`, `DnsQuestion`, `DnsResourceRecord`: the parts of a message
* `parseQname`, `dumpName`: the two codecs of a name
* `parseHeader`, `parseQuestion`, `parseResourceRecord`: the readers
* `dumpHeader`, `dumpQuestion`, `dumpResourceRecord`, `dumpErrorAuthority`: the writers

## Main results

* `parseHeader_dumpHeader`, `dumpHeader_parseHeader`: the header codec loses nothing
-/

namespace Adrift

open BigEndian Outcome

/-- `ReplyCode`. -/
inductive ReplyCode
  | noError | formatError | serverFailure | nameError | notImplemented | refused
  deriving DecidableEq, Repr

/-- The value of a reply code in the header. -/
def ReplyCode.toBits : ReplyCode → BitVec 4
  | noError => 0
  | formatError => 1
  | serverFailure => 2
  | nameError => 3
  | notImplemented => 4
  | refused => 5

/-- `RrType`: the section a record stands in. -/
inductive RrType
  | answer | authority | additional
  deriving DecidableEq, Repr

/-- `DnsHeader`, its bit fields from the least significant one up. -/
structure DnsHeader where
  id : UInt16
  rd : BitVec 1
  tc : BitVec 1
  aa : BitVec 1
  opcode : BitVec 4
  qr : BitVec 1
  rcode : BitVec 4
  cd : BitVec 1
  ad : BitVec 1
  z : BitVec 1
  ra : BitVec 1
  qdcount : UInt16
  ancount : UInt16
  nscount : UInt16
  arcount : UInt16
  deriving DecidableEq

/-- `DnsQuestion`. -/
structure DnsQuestion where
  qname : CString
  qtype : UInt16
  qclass : UInt16
  deriving DecidableEq

/-- `DnsResourceRecord`, `rclass` standing for the field `class`. -/
structure DnsResourceRecord where
  name : CString
  type : UInt16
  rclass : UInt16
  ttl : UInt32
  rdlength : UInt16
  rdata : List UInt8
  /-- The block at `rdata` has `rdlength` octets. -/
  rdata_length : rdata.length = rdlength.toNat
  deriving DecidableEq

/-- `BUFFER_LEN`. -/
def bufferLen : Nat := 2048

/-- The octet of `'.'`. -/
def dot : UInt8 := 46

/-! ## Names -/

/-- The loop of `get_qname_length`, `skip` octets of the current label still to be stepped
over. -/
def qnameLengthFrom : List UInt8 → Nat → Except Fault Nat
  | [], _ => .error .readPastBuffer
  | _ :: buf, skip + 1 => qnameLengthFrom buf skip
  | l :: buf, 0 =>
    if l = 0 then .ok 2 else (· + (l.toNat + 1)) <$> qnameLengthFrom buf l.toNat

/-- `get_qname_length`. -/
def getQnameLength (buf : List UInt8) : Except Fault Nat := qnameLengthFrom buf 0

/-- The loops of `parse_qname`, `left` octets of the current label still to be copied: the
octets written before the terminator, and the cursor. -/
def copyLabels : List UInt8 → Nat → Except Fault (List UInt8 × List UInt8)
  | [], _ => .error .readPastBuffer
  | c :: buf, left + 2 => (fun (out, rest) => (c :: out, rest)) <$> copyLabels buf (left + 1)
  | c :: buf, 1 => (fun (out, rest) => (c :: dot :: out, rest)) <$> copyLabels buf 0
  | l :: buf, 0 => if l = 0 then .ok ([], buf) else copyLabels buf l.toNat

/-- `parse_qname`: the block written, without its last terminator, and the cursor. -/
def parseQname (buf : List UInt8) : Except Fault (List UInt8 × List UInt8) := do
  let _ ← getQnameLength buf
  copyLabels buf 0

/-- The loops of `dump_name`: `len` octets of the label before `qname` are counted, and `q` is
the start of the label. -/
def dumpLabels : List UInt8 → UInt8 → List UInt8 → List UInt8
  | [], len, q => len :: q.take len.toNat ++ [0]
  | c :: qname, len, q =>
    -- the length octet wraps, and cuts the label it stands for
    if c = dot then
      len :: q.take len.toNat ++
        if qname = [] then [0] else dumpLabels qname 0 (q.drop (len.toNat + 1))
    else dumpLabels qname (len + 1) q

/-- `dump_name`: the octets written. -/
def dumpName (qname : CString) : List UInt8 :=
  if qname.octets = [] then [0] else dumpLabels qname.octets 0 qname.octets

/-! ## The header -/

/-- The octet of the query flags. -/
def DnsHeader.flags₁ (h : DnsHeader) : UInt8 :=
  .ofNat (h.rd.toNat + 2 * h.tc.toNat + 4 * h.aa.toNat + 8 * h.opcode.toNat + 128 * h.qr.toNat)

/-- The octet of the reply flags. -/
def DnsHeader.flags₂ (h : DnsHeader) : UInt8 :=
  .ofNat (h.rcode.toNat + 16 * h.cd.toNat + 32 * h.ad.toNat + 64 * h.z.toNat + 128 * h.ra.toNat)

/-- `parse_header`. -/
def parseHeader : List UInt8 → Except Fault (DnsHeader × List UInt8)
  | i₁ :: i₂ :: f₁ :: f₂ :: q₁ :: q₂ :: a₁ :: a₂ :: n₁ :: n₂ :: r₁ :: r₂ :: buf =>
    .ok ({ id := word16 i₁ i₂
           rd := .ofNat 1 f₁.toNat
           tc := .ofNat 1 (f₁.toNat / 2)
           aa := .ofNat 1 (f₁.toNat / 4)
           opcode := .ofNat 4 (f₁.toNat / 8)
           qr := .ofNat 1 (f₁.toNat / 128)
           rcode := .ofNat 4 f₂.toNat
           cd := .ofNat 1 (f₂.toNat / 16)
           ad := .ofNat 1 (f₂.toNat / 32)
           z := .ofNat 1 (f₂.toNat / 64)
           ra := .ofNat 1 (f₂.toNat / 128)
           qdcount := word16 q₁ q₂
           ancount := word16 a₁ a₂
           nscount := word16 n₁ n₂
           arcount := word16 r₁ r₂ }, buf)
  | _ => .error .readPastBuffer

/-- `dump_header`: the octets written. -/
def dumpHeader (h : DnsHeader) : List UInt8 :=
  octets16 h.id ++ [h.flags₁, h.flags₂] ++ octets16 h.qdcount ++ octets16 h.ancount ++
    octets16 h.nscount ++ octets16 h.arcount

/-- `get_error_header`. -/
def getErrorHeader (rcode : ReplyCode) : DnsHeader where
  id := 0
  rd := 0
  tc := 0
  aa := 1
  opcode := 0
  qr := 1
  rcode := rcode.toBits
  cd := 0
  ad := 0
  z := 0
  ra := 0
  qdcount := if rcode = .nameError then 1 else 0
  ancount := 0
  nscount := if rcode = .nameError then 1 else 0
  arcount := 0

/-- `get_default_header`. -/
def getDefaultHeader : DnsHeader where
  id := 0
  rd := 0
  tc := 0
  aa := 0
  opcode := 0
  qr := 1
  rcode := 0
  cd := 0
  ad := 0
  z := 0
  ra := 0
  qdcount := 1
  ancount := 0
  nscount := 0
  arcount := 0

theorem DnsHeader.flags₁_toNat (h : DnsHeader) : h.flags₁.toNat =
    h.rd.toNat + 2 * h.tc.toNat + 4 * h.aa.toNat + 8 * h.opcode.toNat + 128 * h.qr.toNat := by
  have hrd := h.rd.isLt
  have htc := h.tc.isLt
  have haa := h.aa.isLt
  have hop := h.opcode.isLt
  have hqr := h.qr.isLt
  rw [flags₁, UInt8.toNat_ofNat']
  omega

theorem DnsHeader.flags₂_toNat (h : DnsHeader) : h.flags₂.toNat =
    h.rcode.toNat + 16 * h.cd.toNat + 32 * h.ad.toNat + 64 * h.z.toNat + 128 * h.ra.toNat := by
  have hrc := h.rcode.isLt
  have hcd := h.cd.isLt
  have had := h.ad.isLt
  have hz := h.z.isLt
  have hra := h.ra.isLt
  rw [flags₂, UInt8.toNat_ofNat']
  omega

/-- **A header is read back** as it was written. -/
theorem parseHeader_dumpHeader (h : DnsHeader) (buf : List UInt8) :
    parseHeader (dumpHeader h ++ buf) = .ok (h, buf) := by
  have hrd := h.rd.isLt
  have htc := h.tc.isLt
  have haa := h.aa.isLt
  have hop := h.opcode.isLt
  have hqr := h.qr.isLt
  have hrc := h.rcode.isLt
  have hcd := h.cd.isLt
  have had := h.ad.isLt
  have hz := h.z.isLt
  have hra := h.ra.isLt
  simp only [dumpHeader, octets16, List.cons_append, List.nil_append, parseHeader,
    word16_octets16, h.flags₁_toNat, h.flags₂_toNat]
  obtain ⟨id, rd, tc, aa, opcode, qr, rcode, cd, ad, z, ra, qd, an, ns, ar⟩ := h
  simp only [Except.ok.injEq, Prod.mk.injEq, DnsHeader.mk.injEq, and_true, true_and]
  refine ⟨?_, ?_, ?_, ?_, ?_, ?_, ?_, ?_, ?_, ?_⟩ <;> apply BitVec.eq_of_toNat_eq <;>
    simp only [BitVec.toNat_ofNat] <;> dsimp only at * <;> omega

/-- **A header is written back** as it was read. -/
theorem dumpHeader_parseHeader {buf rest : List UInt8} {h : DnsHeader}
    (hr : parseHeader buf = .ok (h, rest)) : buf = dumpHeader h ++ rest := by
  unfold parseHeader at hr
  split at hr
  · rename_i i₁ i₂ f₁ f₂ q₁ q₂ a₁ a₂ n₁ n₂ r₁ r₂ buf
    cases hr
    have hf₁ := f₁.toNat_lt
    have hf₂ := f₂.toNat_lt
    simp only [dumpHeader, octets16_word16, List.cons_append, List.nil_append, List.cons.injEq,
      and_true, true_and]
    constructor <;> apply UInt8.toNat_inj.mp
    · rw [DnsHeader.flags₁_toNat]
      simp only [BitVec.toNat_ofNat]
      omega
    · rw [DnsHeader.flags₂_toNat]
      simp only [BitVec.toNat_ofNat]
      omega
  · cases hr

/-- The id of a datagram: its first two octets, in network order. -/
def wireId (datagram : List UInt8) : UInt16 := word16 (datagram.getD 0 0) (datagram.getD 1 0)

theorem wireId_dumpHeader (h : DnsHeader) (rest : List UInt8) :
    wireId (dumpHeader h ++ rest) = h.id := by
  simp only [wireId, dumpHeader, octets16, List.cons_append, List.nil_append,
    List.getD_cons_zero, List.getD_cons_succ, word16_octets16]

/-! ## Questions and resource records -/

/-- Two octets in network order. -/
def parse16 : List UInt8 → Except Fault (UInt16 × List UInt8)
  | a :: b :: buf => .ok (word16 a b, buf)
  | _ => .error .readPastBuffer

/-- Four octets in network order. -/
def parse32 : List UInt8 → Except Fault (UInt32 × List UInt8)
  | a :: b :: c :: d :: buf => .ok (word32 a b c d, buf)
  | _ => .error .readPastBuffer

/-- `parse_question`. -/
def parseQuestion (buf : List UInt8) : Except Fault (DnsQuestion × List UInt8) := do
  let (qname, buf) ← parseQname buf
  let (qtype, buf) ← parse16 buf
  let (qclass, buf) ← parse16 buf
  return ({ qname := .ofBlock qname, qtype, qclass }, buf)

/-- `dump_question`: the octets written. -/
def dumpQuestion (question : DnsQuestion) : List UInt8 :=
  dumpName question.qname ++ octets16 question.qtype ++ octets16 question.qclass

/-- The owner name of a record: a name of its own, or one pointer octet into the first 256
octets of the buffer. -/
def parseOwner (buf nameBuf : List UInt8) : Except Fault (List UInt8 × List UInt8) :=
  match buf with
  | [] => .error .readPastBuffer
  | c :: rest =>
    -- a first octet from 0xc1 on is read as a length
    if c = 0xc0 then
      match rest with
      | [] => .error .readPastBuffer
      | p :: rest => do
        let (name, _) ← parseQname (nameBuf.drop p.toNat)
        return (name, rest)
    else parseQname (c :: rest)

/-- The copy of `rdata`. -/
def parseRdata (buf : List UInt8) (rdlength : UInt16) :
    Except Fault ({rdata : List UInt8 // rdata.length = rdlength.toNat} × List UInt8) :=
  if h : rdlength.toNat ≤ buf.length then
    .ok (⟨buf.take rdlength.toNat, by simp [h]⟩, buf.drop rdlength.toNat)
  else .error .readPastBuffer

/-- `parse_resource_record`. -/
def parseResourceRecord (buf nameBuf : List UInt8) :
    Except Fault (DnsResourceRecord × List UInt8) := do
  let (name, buf) ← parseOwner buf nameBuf
  let (type, buf) ← parse16 buf
  let (rclass, buf) ← parse16 buf
  let (ttl, buf) ← parse32 buf
  let (rdlength, buf) ← parse16 buf
  let (⟨rdata, rdata_length⟩, buf) ← parseRdata buf rdlength
  return ({ name := .ofBlock name, type, rclass, ttl, rdlength, rdata, rdata_length }, buf)

/-- `dump_resource_record`: the octets written. -/
def dumpResourceRecord (record : DnsResourceRecord) : List UInt8 :=
  dumpName record.name ++ octets16 record.type ++ octets16 record.rclass ++ octets32 record.ttl ++
    octets16 record.rdlength ++ record.rdata

/-- The record of `dump_error_authority`: an SOA record of the root. -/
def errorAuthority : DnsResourceRecord where
  name := .ofBlock []
  type := 0x0006
  rclass := 0x0001
  ttl := 10800
  rdlength := 64
  rdata := [
    0x01, 0x61, 0x0c, 0x72, 0x6f, 0x6f, 0x74, 0x2d, 0x73, 0x65, 0x72,
    0x76, 0x65, 0x72, 0x73, 0x03, 0x6e, 0x65, 0x74, 0x00, 0x05, 0x6e,
    0x73, 0x74, 0x6c, 0x64, 0x0c, 0x76, 0x65, 0x72, 0x69, 0x73, 0x69,
    0x67, 0x6e, 0x2d, 0x67, 0x72, 0x73, 0x03, 0x63, 0x6f, 0x6d, 0x00,
    0x78, 0x95, 0x7c, 0x48, 0x00, 0x00, 0x07, 0x08, 0x00, 0x00, 0x03,
    0x84, 0x00, 0x09, 0x3a, 0x80, 0x00, 0x01, 0x51, 0x80]
  rdata_length := rfl

/-- `dump_error_authority`: the octets written. -/
def dumpErrorAuthority : List UInt8 := dumpResourceRecord errorAuthority

end Adrift
