import Adrift.Protocol.Handle

/-!
# The bounds of the receive buffer

No parser checks how much of the buffer is left: a name ends at the first zero octet that its
length octets lead to, and record data has the length the record declares. Parsing stays inside
the buffer exactly when the offsets these octets lead to do.

## Main definitions

* `parseStream`: the parsing part of `handle_stream`
* `NameEnds`, `QuestionEnds`, `RecordEnds`, `RecordsEnd`: where the parts of a message end in a
  buffer
* `EndsInside datagram`: the parts of a datagram end inside its receive buffer

## Main results

* `handleStream_eq`: `handle_stream` parses the datagram, and then processes it
* `parseStream_iff`: parsing stays inside the buffer exactly when the parts of the datagram end
  inside it
-/

namespace Adrift

open BigEndian Outcome

/-! ## The parsing part -/

/-- What a datagram is parsed as: a query without its question, as it counts more or fewer than
one, a query, or a response. -/
inductive Parsed
  | uncounted
  | query (question : DnsQuestion)
  | response (r : Response)

/-- The parsing part of `handle_stream`. -/
def parseStream (datagram : List UInt8) : Except Fault (DnsHeader × Parsed) := do
  let nameBuf := receiveBuffer datagram
  let (header, buf) ← parseHeader nameBuf
  if header.qr = 0 then
    if header.qdcount ≠ 1 then return (header, .uncounted)
    let (question, _) ← parseQuestion buf
    return (header, .query question)
  else
    let r ← parseResponse buf nameBuf header
    return (header, .response r)

/-- What `handle_stream` does with a parsed datagram. -/
def processStream (s : Server) (now : ℤ) (client : SockAddr) :
    DnsHeader × Parsed → Except Fault (Server × List Sent)
  | (_, .uncounted) => .ok (s, [.reply client (dumpHeader (getErrorHeader .formatError))])
  | (header, .query question) => answerQuery s now client header question
  | (_, .response r) => do
    let (s, sent, _) ← relayResponse s now r
    return (s, sent)

/-- **`handle_stream` parses the datagram**, and then processes it. -/
theorem handleStream_eq (s : Server) (now : ℤ) (client : SockAddr) (datagram : List UInt8) :
    handleStream s now client datagram = parseStream datagram >>= processStream s now client := by
  rw [handleStream, parseStream]
  cases parseHeader (receiveBuffer datagram) with
  | error e => rfl
  | ok x =>
    obtain ⟨header, buf⟩ := x
    simp only [ok_bind]
    split_ifs with hqr hqd
    · rw [handleReceiveQuery, if_pos hqd]
      rfl
    · rw [handleReceiveQuery, if_neg hqd]
      cases parseQuestion buf <;> rfl
    · rw [handleReceiveResponse]
      cases parseResponse buf (receiveBuffer datagram) header <;> rfl

theorem handleStream_of_parse {s : Server} {now : ℤ} {client : SockAddr} {datagram : List UInt8}
    {p : DnsHeader × Parsed} (hparse : parseStream datagram = .ok p) :
    handleStream s now client datagram = processStream s now client p := by
  rw [handleStream_eq, hparse, ok_bind]

/-! ## Ends -/

/-- The name at `off` ends before `e`: the length octets lead to a zero octet. -/
inductive NameEnds (buf : List UInt8) : ℕ → ℕ → Prop
  | zero {off : ℕ} (h : buf[off]? = some 0) : NameEnds buf off (off + 1)
  | label {off e : ℕ} {l : UInt8} (h : buf[off]? = some l) (hl : l ≠ 0)
      (hs : NameEnds buf (off + 1 + l.toNat) e) : NameEnds buf off e

/-- The question at `off` ends before `e`. -/
def QuestionEnds (buf : List UInt8) (off e : ℕ) : Prop :=
  ∃ b, NameEnds buf off b ∧ e = b + 4 ∧ e ≤ buf.length

/-- The owner name at `off` ends before `e`: it is a pointer octet to a name that ends in the
buffer, or a name of its own. -/
def OwnerEnds (buf : List UInt8) (off e : ℕ) : Prop :=
  if buf[off]? = some 0xc0 then
    e = off + 2 ∧ ∃ p b, buf[off + 1]? = some p ∧ NameEnds buf p.toNat b
  else NameEnds buf off e

/-- The record at `off` ends before `e`: the data has the declared length. -/
def RecordEnds (buf : List UInt8) (off e : ℕ) : Prop :=
  ∃ b l₁ l₂, OwnerEnds buf off b ∧ buf[b + 8]? = some l₁ ∧ buf[b + 9]? = some l₂ ∧
    e = b + 10 + (word16 l₁ l₂).toNat ∧ e ≤ buf.length

/-- The `n` records at `off` end before `e`. -/
def RecordsEnd (buf : List UInt8) : ℕ → ℕ → ℕ → Prop
  | 0, off, e => e = off
  | n + 1, off, e => ∃ m, RecordEnds buf off m ∧ RecordsEnd buf n m e

/-- **The parts of a datagram end inside its buffer**: the question of a query that counts one, and
the question and the counted records of a response. -/
def EndsInside (datagram : List UInt8) : Prop :=
  ∃ header rest, parseHeader (receiveBuffer datagram) = .ok (header, rest) ∧
    if header.qr = 0 then header.qdcount = 1 → ∃ e, QuestionEnds (receiveBuffer datagram) 12 e
    else ∃ o e, QuestionEnds (receiveBuffer datagram) 12 o ∧ RecordsEnd (receiveBuffer datagram)
      (header.ancount.toNat + header.nscount.toNat + header.arcount.toNat) o e

variable {buf nameBuf rest : List UInt8} {off e : ℕ}

/-! ## Names -/

/-- The octets of a label are stepped over. -/
theorem qnameLengthFrom_eq (buf : List UInt8) (n : ℕ) :
    qnameLengthFrom buf n = qnameLengthFrom (buf.drop n) 0 := by
  induction n generalizing buf with
  | zero => rfl
  | succ n ih =>
    cases buf with
    | nil => rfl
    | cons c buf => exact ih buf

/-- The octets of a label are copied. -/
theorem copyLabels_eq (buf : List UInt8) (n : ℕ) :
    copyLabels buf (n + 1) = (fun x => (buf.take (n + 1) ++ dot :: x.1, x.2)) <$>
      copyLabels (buf.drop (n + 1)) 0 := by
  induction n generalizing buf with
  | zero =>
    cases buf with
    | nil => rfl
    | cons c buf => rfl
  | succ n ih =>
    cases buf with
    | nil => rfl
    | cons c buf =>
      rw [copyLabels, ih buf, List.drop_succ_cons, List.take_succ_cons]
      cases copyLabels (buf.drop (n + 1)) 0 <;> rfl

theorem drop_of_getElem? {c : UInt8} (h : buf[off]? = some c) :
    buf.drop off = c :: buf.drop (off + 1) := by
  obtain ⟨hlt, rfl⟩ := List.getElem?_eq_some_iff.mp h
  exact List.drop_eq_getElem_cons hlt

theorem getElem?_of_drop {c : UInt8} (h : buf.drop off = c :: rest) :
    buf[off]? = some c ∧ rest = buf.drop (off + 1) := by
  have hc := congrArg (·[0]?) h
  have ht := congrArg List.tail h
  simp only [List.getElem?_drop, Nat.add_zero, List.getElem?_cons_zero] at hc
  rw [List.tail_drop] at ht
  exact ⟨hc, ht.symm⟩

theorem copyLabels_cons {l : UInt8} (hl : l ≠ 0) (buf : List UInt8) :
    copyLabels (l :: buf) 0 = (fun x => (buf.take l.toNat ++ dot :: x.1, x.2)) <$>
      copyLabels (buf.drop l.toNat) 0 := by
  obtain ⟨n, hn⟩ : ∃ n, l.toNat = n + 1 :=
    Nat.exists_eq_succ_of_ne_zero fun h => hl (UInt8.toNat_inj.mp h)
  rw [copyLabels, if_neg hl, hn, copyLabels_eq]

theorem NameEnds.of_zero (h : NameEnds buf off e) (h0 : buf[off]? = some 0) : e = off + 1 := by
  cases h with
  | zero => rfl
  | label h hl => exact absurd (Option.some.inj (h.symm.trans h0)) hl

/-- A name that ends in the buffer is parsed. -/
theorem NameEnds.parseQname (h : NameEnds buf off e) :
    ∃ out, parseQname (buf.drop off) = .ok (out, buf.drop e) := by
  have hlen : ∃ n, getQnameLength (buf.drop off) = .ok n := by
    unfold getQnameLength
    induction h with
    | zero h => exact ⟨2, by rw [drop_of_getElem? h, qnameLengthFrom, if_pos rfl]⟩
    | label h hl hs ih =>
      obtain ⟨n, hn⟩ := ih
      rw [drop_of_getElem? h, qnameLengthFrom, if_neg hl, qnameLengthFrom_eq, List.drop_drop, hn]
      exact ⟨_, rfl⟩
  have hcopy : ∃ out, copyLabels (buf.drop off) 0 = .ok (out, buf.drop e) := by
    clear hlen
    induction h with
    | zero h => exact ⟨[], by rw [drop_of_getElem? h, copyLabels, if_pos rfl]⟩
    | label h hl hs ih =>
      obtain ⟨out, hout⟩ := ih
      rw [drop_of_getElem? h, copyLabels_cons hl, List.drop_drop, hout]
      exact ⟨_, rfl⟩
  obtain ⟨n, hn⟩ := hlen
  obtain ⟨out, hout⟩ := hcopy
  exact ⟨out, by rw [Adrift.parseQname, hn, ok_bind, hout]⟩

theorem nameEnds_of_copyLabels {buf : List UInt8} {off : ℕ} {out rest : List UInt8}
    (h : copyLabels (buf.drop off) 0 = .ok (out, rest)) :
    ∃ e, NameEnds buf off e ∧ rest = buf.drop e := by
  cases hd : buf.drop off with
  | nil =>
    rw [hd] at h
    cases h
  | cons l tail =>
    obtain ⟨hl, rfl⟩ := getElem?_of_drop hd
    rw [hd] at h
    by_cases h0 : l = 0
    · subst h0
      rw [copyLabels, if_pos rfl] at h
      cases h
      exact ⟨off + 1, .zero hl, rfl⟩
    · rw [copyLabels_cons h0, List.drop_drop, map_eq_ok] at h
      obtain ⟨⟨out', rest'⟩, h, hx⟩ := h
      have hlt := (List.getElem?_eq_some_iff.mp hl).1
      obtain ⟨e, he, rfl⟩ := nameEnds_of_copyLabels h
      cases hx
      exact ⟨e, .label hl h0 he, rfl⟩
termination_by buf.length - off

/-- A name that is parsed ends in the buffer. -/
theorem nameEnds_of_parseQname {out : List UInt8}
    (h : parseQname (buf.drop off) = .ok (out, rest)) :
    ∃ e, NameEnds buf off e ∧ rest = buf.drop e := by
  obtain ⟨n, -, h⟩ := bind_eq_ok.mp h
  exact nameEnds_of_copyLabels h

/-! ## Questions and records -/

theorem parse16_eq_ok {w : UInt16} :
    parse16 (buf.drop off) = .ok (w, rest) ↔ (∃ a b, buf[off]? = some a ∧
      buf[off + 1]? = some b ∧ w = word16 a b) ∧ rest = buf.drop (off + 2) := by
  constructor
  · intro h
    unfold parse16 at h
    split at h
    · rename_i a b tail hd
      obtain ⟨ha, hd⟩ := getElem?_of_drop hd
      obtain ⟨hb, rfl⟩ := getElem?_of_drop hd.symm
      cases h
      exact ⟨⟨a, b, ha, hb, rfl⟩, rfl⟩
    · cases h
  · rintro ⟨⟨a, b, ha, hb, rfl⟩, rfl⟩
    rw [drop_of_getElem? ha, drop_of_getElem? hb]
    rfl

/-- The next two octets are in the buffer. -/
theorem exists_parse16 : (∃ w, parse16 (buf.drop off) = .ok (w, rest)) ↔
    off + 2 ≤ buf.length ∧ rest = buf.drop (off + 2) := by
  simp only [parse16_eq_ok, exists_and_right]
  refine and_congr_left fun _ => ⟨?_, fun h => ?_⟩
  · rintro ⟨w, a, b, -, hb, -⟩
    have := (List.getElem?_eq_some_iff.mp hb).1
    omega
  · exact ⟨_, _, _, List.getElem?_eq_getElem (by omega), List.getElem?_eq_getElem (by omega), rfl⟩

theorem exists_parse32 : (∃ w, parse32 (buf.drop off) = .ok (w, rest)) ↔
    off + 4 ≤ buf.length ∧ rest = buf.drop (off + 4) := by
  constructor
  · rintro ⟨w, h⟩
    unfold parse32 at h
    split at h
    · rename_i a b c d tail hd
      cases h
      have hlen := congrArg List.length hd
      have htail := congrArg (List.drop 4) hd
      rw [List.drop_drop] at htail
      simp only [List.length_drop, List.length_cons] at hlen
      exact ⟨by omega, htail.symm⟩
    · cases h
  · rintro ⟨hlen, rfl⟩
    rw [List.drop_eq_getElem_cons (by omega), List.drop_eq_getElem_cons (by omega),
      List.drop_eq_getElem_cons (by omega), List.drop_eq_getElem_cons (by omega)]
    exact ⟨_, rfl⟩

theorem exists_parseQuestion : (∃ question, parseQuestion (buf.drop off) = .ok (question, rest)) ↔
    ∃ e, QuestionEnds buf off e ∧ rest = buf.drop e := by
  constructor
  · rintro ⟨question, h⟩
    obtain ⟨⟨qname, buf₁⟩, hname, h⟩ := bind_eq_ok.mp h
    obtain ⟨⟨qtype, buf₂⟩, htype, h⟩ := bind_eq_ok.mp h
    obtain ⟨⟨qclass, buf₃⟩, hclass, h⟩ := bind_eq_ok.mp h
    cases h
    obtain ⟨b, hb, rfl⟩ := nameEnds_of_parseQname hname
    obtain ⟨-, rfl⟩ := exists_parse16.mp ⟨_, htype⟩
    obtain ⟨hlen, rfl⟩ := exists_parse16.mp ⟨_, hclass⟩
    exact ⟨_, ⟨b, hb, rfl, hlen⟩, rfl⟩
  · rintro ⟨_, ⟨b, hb, rfl, hlen⟩, rfl⟩
    obtain ⟨qname, hname⟩ := hb.parseQname
    obtain ⟨qtype, htype⟩ := exists_parse16.mpr ⟨(by omega : b + 2 ≤ buf.length), rfl⟩
    obtain ⟨qclass, hclass⟩ := exists_parse16.mpr ⟨(by omega : b + 2 + 2 ≤ buf.length), rfl⟩
    exact ⟨_, bind_eq_ok.mpr ⟨_, hname, bind_eq_ok.mpr ⟨_, htype,
      bind_eq_ok.mpr ⟨_, hclass, rfl⟩⟩⟩⟩

theorem exists_parseQname : (∃ name, parseQname (buf.drop off) = .ok (name, rest)) ↔
    ∃ e, NameEnds buf off e ∧ rest = buf.drop e := by
  constructor
  · rintro ⟨name, h⟩
    exact nameEnds_of_parseQname h
  · rintro ⟨e, he, rfl⟩
    exact he.parseQname

/-- An owner name without a pointer octet is read in place. -/
theorem parseOwner_eq_parseQname (hc : buf[off]? ≠ some 0xc0) :
    parseOwner (buf.drop off) nameBuf = parseQname (buf.drop off) := by
  cases hd : buf.drop off with
  | nil => rfl
  | cons c tail =>
    have hne : c ≠ 0xc0 := fun h => hc (h ▸ (getElem?_of_drop hd).1)
    simp only [parseOwner, if_neg hne]

/-- An owner name with a pointer octet is read where the next octet points to. -/
theorem parseOwner_pointer {name : List UInt8} (hc : buf[off]? = some 0xc0) :
    parseOwner (buf.drop off) nameBuf = .ok (name, rest) ↔ ∃ p rest', buf[off + 1]? = some p ∧
      parseQname (nameBuf.drop p.toNat) = .ok (name, rest') ∧ rest = buf.drop (off + 2) := by
  simp only [drop_of_getElem? hc, parseOwner, if_true]
  cases hd : buf.drop (off + 1) with
  | nil =>
    have hnone : buf[off + 1]? = none := List.getElem?_eq_none (List.drop_eq_nil_iff.mp hd)
    simp [hnone]
  | cons p tail =>
    obtain ⟨hp, rfl⟩ := getElem?_of_drop hd
    simp only [hp, Option.some.injEq]
    constructor
    · intro h
      obtain ⟨⟨name, buf₁⟩, hname, h⟩ := bind_eq_ok.mp h
      cases h
      exact ⟨p, buf₁, rfl, hname, rfl⟩
    · rintro ⟨_, rest', rfl, hname, rfl⟩
      exact bind_eq_ok.mpr ⟨_, hname, rfl⟩

theorem exists_parseOwner : (∃ name, parseOwner (buf.drop off) buf = .ok (name, rest)) ↔
    ∃ e, OwnerEnds buf off e ∧ rest = buf.drop e := by
  by_cases hc : buf[off]? = some 0xc0
  · simp only [OwnerEnds, if_pos hc, parseOwner_pointer hc]
    constructor
    · rintro ⟨name, p, rest', hp, hname, rfl⟩
      obtain ⟨b, hb, -⟩ := exists_parseQname.mp ⟨_, hname⟩
      exact ⟨off + 2, ⟨rfl, p, b, hp, hb⟩, rfl⟩
    · rintro ⟨_, ⟨rfl, p, b, hp, hb⟩, rfl⟩
      obtain ⟨name, hname⟩ := hb.parseQname
      exact ⟨name, p, _, hp, hname, rfl⟩
  · simp only [OwnerEnds, if_neg hc, parseOwner_eq_parseQname hc]
    exact exists_parseQname

theorem exists_parseRdata {w : UInt16} :
    (∃ rdata, parseRdata (buf.drop off) w = .ok (rdata, rest)) ↔
      w.toNat ≤ buf.length - off ∧ rest = buf.drop (off + w.toNat) := by
  rw [parseRdata, ← List.length_drop]
  split_ifs with h
  · rw [and_iff_right h, ← List.drop_drop]
    constructor
    · rintro ⟨rdata, hr⟩
      cases hr
      rfl
    · rintro rfl
      exact ⟨_, rfl⟩
  · exact iff_of_false (fun ⟨_, hr⟩ => nomatch hr) fun hr => h hr.1

/-- **What a record parser does behind the owner name**: it finds the length field, and takes as
many octets behind it. -/
theorem parseResourceRecord_of_owner {name : List UInt8} {b : ℕ}
    (hname : parseOwner (buf.drop off) nameBuf = .ok (name, buf.drop b)) {s : CString} :
    (∃ rr, parseResourceRecord (buf.drop off) nameBuf = .ok (rr, rest) ∧ rr.name = s) ↔
      s = .ofBlock name ∧ ∃ l₁ l₂, buf[b + 8]? = some l₁ ∧ buf[b + 9]? = some l₂ ∧
        b + 10 + (word16 l₁ l₂).toNat ≤ buf.length ∧
          rest = buf.drop (b + 10 + (word16 l₁ l₂).toNat) := by
  constructor
  · rintro ⟨rr, h, rfl⟩
    rw [parseResourceRecord, hname, ok_bind] at h
    obtain ⟨⟨type, buf₂⟩, htype, h⟩ := bind_eq_ok.mp h
    obtain ⟨⟨rclass, buf₃⟩, hclass, h⟩ := bind_eq_ok.mp h
    obtain ⟨⟨ttl, buf₄⟩, httl, h⟩ := bind_eq_ok.mp h
    obtain ⟨⟨rdlength, buf₅⟩, hlength, h⟩ := bind_eq_ok.mp h
    obtain ⟨⟨rdata, buf₆⟩, hdata, h⟩ := bind_eq_ok.mp h
    cases h
    -- every field starts where the one before has ended
    obtain ⟨-, rfl⟩ := exists_parse16.mp ⟨_, htype⟩
    obtain ⟨-, rfl⟩ := exists_parse16.mp ⟨_, hclass⟩
    obtain ⟨-, rfl⟩ := exists_parse32.mp ⟨_, httl⟩
    obtain ⟨⟨l₁, l₂, hl₁, hl₂, rfl⟩, rfl⟩ := parse16_eq_ok.mp hlength
    obtain ⟨hle, rfl⟩ := exists_parseRdata.mp ⟨_, hdata⟩
    have hlt := (List.getElem?_eq_some_iff.mp hl₂).1
    exact ⟨rfl, l₁, l₂, hl₁, hl₂, by omega, rfl⟩
  · rintro ⟨rfl, l₁, l₂, hl₁, hl₂, hle, rfl⟩
    -- the other fields are in the buffer because the RDATA behind them is
    obtain ⟨type, htype⟩ := exists_parse16.mpr ⟨(by omega : b + 2 ≤ buf.length), rfl⟩
    obtain ⟨rclass, hclass⟩ := exists_parse16.mpr ⟨(by omega : b + 2 + 2 ≤ buf.length), rfl⟩
    obtain ⟨ttl, httl⟩ := exists_parse32.mpr ⟨(by omega : b + 4 + 4 ≤ buf.length), rfl⟩
    have hlength := parse16_eq_ok.mpr ⟨⟨l₁, l₂, hl₁, hl₂, rfl⟩, rfl⟩
    obtain ⟨rdata, hdata⟩ := exists_parseRdata.mpr
      ⟨(by omega : (word16 l₁ l₂).toNat ≤ buf.length - (b + 10)), rfl⟩
    exact ⟨_, bind_eq_ok.mpr ⟨_, hname, bind_eq_ok.mpr ⟨_, htype, bind_eq_ok.mpr ⟨_, hclass,
      bind_eq_ok.mpr ⟨_, httl, bind_eq_ok.mpr ⟨_, hlength, bind_eq_ok.mpr ⟨_, hdata, rfl⟩⟩⟩⟩⟩⟩, rfl⟩

theorem exists_parseResourceRecord :
    (∃ rr, parseResourceRecord (buf.drop off) buf = .ok (rr, rest)) ↔
      ∃ e, RecordEnds buf off e ∧ rest = buf.drop e := by
  constructor
  · rintro ⟨rr, h⟩
    obtain ⟨⟨name, buf₁⟩, hname, -⟩ := bind_eq_ok.mp h
    obtain ⟨b, hb, rfl⟩ := exists_parseOwner.mp ⟨_, hname⟩
    obtain ⟨-, l₁, l₂, hl₁, hl₂, hle, rfl⟩ := (parseResourceRecord_of_owner hname).mp ⟨rr, h, rfl⟩
    exact ⟨_, ⟨b, l₁, l₂, hb, hl₁, hl₂, rfl, hle⟩, rfl⟩
  · rintro ⟨_, ⟨b, l₁, l₂, hb, hl₁, hl₂, rfl, hle⟩, rfl⟩
    obtain ⟨name, hname⟩ := exists_parseOwner.mpr ⟨b, hb, rfl⟩
    obtain ⟨rr, hrr, -⟩ := (parseResourceRecord_of_owner hname).mpr
      ⟨rfl, l₁, l₂, hl₁, hl₂, hle, rfl⟩
    exact ⟨rr, hrr⟩

theorem RecordsEnd.add_iff {n k : ℕ} : RecordsEnd buf (n + k) off e ↔
    ∃ m, RecordsEnd buf n off m ∧ RecordsEnd buf k m e := by
  induction n generalizing off with
  | zero => simp [RecordsEnd]
  | succ n ih =>
    rw [Nat.succ_add]
    simp only [RecordsEnd, ih]
    exact ⟨fun ⟨m, h, o, h₁, h₂⟩ => ⟨o, ⟨m, h, h₁⟩, h₂⟩,
      fun ⟨o, ⟨m, h, h₁⟩, h₂⟩ => ⟨m, h, o, h₁, h₂⟩⟩

theorem exists_parseRecords {n : ℕ} :
    (∃ rrs, parseRecords buf n (buf.drop off) = .ok (rrs, rest)) ↔
      ∃ e, RecordsEnd buf n off e ∧ rest = buf.drop e := by
  induction n generalizing off with
  | zero => simp [parseRecords, RecordsEnd, eq_comm]
  | succ n ih =>
    constructor
    · rintro ⟨rrs, h⟩
      obtain ⟨⟨rr, buf₁⟩, hrr, h⟩ := bind_eq_ok.mp h
      obtain ⟨⟨rrs, buf₂⟩, hrrs, h⟩ := bind_eq_ok.mp h
      cases h
      obtain ⟨m, hm, rfl⟩ := exists_parseResourceRecord.mp ⟨_, hrr⟩
      obtain ⟨e, he, rfl⟩ := ih.mp ⟨_, hrrs⟩
      exact ⟨e, ⟨m, hm, he⟩, rfl⟩
    · rintro ⟨e, ⟨m, hm, he⟩, rfl⟩
      obtain ⟨rr, hrr⟩ := exists_parseResourceRecord.mpr ⟨m, hm, rfl⟩
      obtain ⟨rrs, hrrs⟩ := ih.mpr ⟨e, he, rfl⟩
      exact ⟨_, bind_eq_ok.mpr ⟨_, hrr, bind_eq_ok.mpr ⟨_, hrrs, rfl⟩⟩⟩

theorem exists_parseResponse {header : DnsHeader} :
    (∃ r, parseResponse (buf.drop off) buf header = .ok r) ↔
      ∃ o e, QuestionEnds buf off o ∧ RecordsEnd buf
        (header.ancount.toNat + header.nscount.toNat + header.arcount.toNat) o e := by
  simp only [RecordsEnd.add_iff]
  constructor
  · rintro ⟨r, h⟩
    obtain ⟨⟨question, buf₀⟩, hq, h⟩ := bind_eq_ok.mp h
    obtain ⟨⟨answer, buf₁⟩, han, h⟩ := bind_eq_ok.mp h
    obtain ⟨⟨authority, buf₂⟩, hns, h⟩ := bind_eq_ok.mp h
    obtain ⟨⟨additional, buf₃⟩, har, -⟩ := bind_eq_ok.mp h
    obtain ⟨o, ho, rfl⟩ := exists_parseQuestion.mp ⟨_, hq⟩
    obtain ⟨e₁, h₁, rfl⟩ := exists_parseRecords.mp ⟨_, han⟩
    obtain ⟨e₂, h₂, rfl⟩ := exists_parseRecords.mp ⟨_, hns⟩
    obtain ⟨e₃, h₃, rfl⟩ := exists_parseRecords.mp ⟨_, har⟩
    exact ⟨o, e₃, ho, e₂, ⟨e₁, h₁, h₂⟩, h₃⟩
  · rintro ⟨o, e₃, ho, e₂, ⟨e₁, h₁, h₂⟩, h₃⟩
    obtain ⟨question, hq⟩ := exists_parseQuestion.mpr ⟨o, ho, rfl⟩
    obtain ⟨answer, han⟩ := exists_parseRecords.mpr ⟨e₁, h₁, rfl⟩
    obtain ⟨authority, hns⟩ := exists_parseRecords.mpr ⟨e₂, h₂, rfl⟩
    obtain ⟨additional, har⟩ := exists_parseRecords.mpr ⟨e₃, h₃, rfl⟩
    exact ⟨_, bind_eq_ok.mpr ⟨_, hq, bind_eq_ok.mpr ⟨_, han, bind_eq_ok.mpr ⟨_, hns,
      bind_eq_ok.mpr ⟨_, har, rfl⟩⟩⟩⟩⟩

/-! ## Datagrams -/

/-- **Parsing stays inside the receive buffer** exactly when the parts of the datagram end inside
it. -/
theorem parseStream_iff (datagram : List UInt8) :
    (∃ x, parseStream datagram = .ok x) ↔ EndsInside datagram := by
  rw [parseStream, EndsInside]
  cases hh : parseHeader (receiveBuffer datagram) with
  | error e => simp
  | ok x =>
    obtain ⟨header, rest⟩ := x
    have hrest : rest = (receiveBuffer datagram).drop 12 := by
      rw [dumpHeader_parseHeader hh]
      rfl
    -- the header is the one that was read
    have hsame : ∀ {P : DnsHeader → Prop}, (∃ header' rest', (Except.ok (header, rest) :
        Except Fault (DnsHeader × List UInt8)) = .ok (header', rest') ∧ P header') ↔ P header := by
      intro P
      simp
    rw [hsame, ok_bind]
    dsimp only
    split_ifs with hqr hqd
    · -- the three branches of the source: no single question, a query, a response
      exact iff_of_true ⟨_, rfl⟩ fun h => absurd h hqd
    · rw [not_not] at hqd
      rw [hrest]
      constructor
      · rintro ⟨x, hx⟩ -
        obtain ⟨⟨question, buf⟩, hq, -⟩ := bind_eq_ok.mp hx
        obtain ⟨e, he, -⟩ := exists_parseQuestion.mp ⟨_, hq⟩
        exact ⟨e, he⟩
      · intro h
        obtain ⟨e, he⟩ := h hqd
        obtain ⟨question, hq⟩ := exists_parseQuestion.mpr ⟨e, he, rfl⟩
        exact ⟨_, bind_eq_ok.mpr ⟨_, hq, rfl⟩⟩
    · rw [hrest, ← exists_parseResponse]
      constructor
      · rintro ⟨x, hx⟩
        obtain ⟨r, hr, -⟩ := bind_eq_ok.mp hx
        exact ⟨r, hr⟩
      · rintro ⟨r, hr⟩
        exact ⟨_, bind_eq_ok.mpr ⟨r, hr, rfl⟩⟩

theorem receiveBuffer_length {datagram : List UInt8} (h : datagram.length ≤ bufferLen) :
    (receiveBuffer datagram).length = bufferLen := by
  rw [receiveBuffer, List.length_append, List.length_replicate, Nat.add_sub_of_le h]

/-- A response to a query for the root, its answer declaring 65535 octets of data. -/
def longDataResponse : List UInt8 :=
  [0, 1, 128, 0, 0, 1, 0, 1, 0, 0, 0, 0] ++ [0, 0, 1, 0, 1] ++
    [0, 0, 1, 0, 1, 0, 0, 0, 60, 255, 255]

theorem not_parseStream_longData : ¬ ∀ datagram, datagram.length ≤ bufferLen →
    ∃ x, parseStream datagram = .ok x := by
  intro hall
  obtain ⟨x, hx⟩ := hall longDataResponse (by decide)
  have hlen : (receiveBuffer longDataResponse).length = bufferLen :=
    receiveBuffer_length (by decide)
  obtain ⟨zs, hzs⟩ : ∃ zs, receiveBuffer longDataResponse = longDataResponse ++ zs := ⟨_, rfl⟩
  rw [hzs] at hlen
  rw [parseStream, hzs] at hx
  obtain ⟨header, hh, hqr, hcount⟩ : ∃ header, parseHeader (longDataResponse ++ zs) =
      .ok (header, (longDataResponse ++ zs).drop 12) ∧ header.qr = 1 ∧
        header.ancount.toNat + header.nscount.toNat + header.arcount.toNat = 1 :=
    ⟨_, rfl, by decide, by decide⟩
  rw [hh, ok_bind] at hx
  dsimp only at hx
  rw [if_neg (by rw [hqr]; decide)] at hx
  obtain ⟨r, hr, -⟩ := bind_eq_ok.mp hx
  obtain ⟨o, e, ⟨b, hb, rfl, -⟩, hrecords⟩ := exists_parseResponse.mp ⟨r, hr⟩
  rw [hcount] at hrecords
  obtain ⟨m, ⟨b', l₁, l₂, hb', hl₁, hl₂, rfl, hm⟩, -⟩ := hrecords
  obtain rfl := hb.of_zero rfl
  obtain rfl : b' = 18 := NameEnds.of_zero hb' rfl
  obtain rfl := Option.some.inj hl₁
  obtain rfl := Option.some.inj hl₂
  rw [hlen] at hm
  exact absurd hm (by decide)

end Adrift
