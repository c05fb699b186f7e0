import Adrift.Lib.BigEndian
import Adrift.Lib.DomainName

/-!
# Messages of the domain name system

A message is a header, questions and three sections of records. What it says is read off its
octets: names are resolved through their pointers, also inside the data of the record types
that carry names, and the counts of the header are the numbers of questions and records that
fill the message.

## Main definitions

* `Question`, `Record`, `Rdata`, `Message`: what a message says
* `RecordBy O N`, `SectionBy O N`: records read with the owner names of `O` and the data
  names of `N`
* `Reads msg O N m`: the octets `msg` say `m`
* `WellFormed`: the octets of a message

## Main results

* `SectionBy.append_iff`: a section falls into parts
* `SectionBy.length_le`: a record takes eleven octets or more
* `RdataBy.shift`: record data that is moved means the same when its pointers lead to kept octets
* `Reads.mono`: more names that can be read leave what a message says
-/

namespace DnsMessage

open BigEndian DomainName

/-- What a question asks. -/
structure Question where
  qname : List Label
  qtype : UInt16
  qclass : UInt16

/-- The meaning of record data: the names of the types that carry names, octets otherwise. -/
inductive Rdata
  | name (ls : List Label)
  | mx (preference : UInt16) (exchange : List Label)
  | soa (mname rname : List Label) (timers : List UInt8)
  | octets (data : List UInt8)

/-- What a record says. -/
structure Record where
  owner : List Label
  type : UInt16
  rclass : UInt16
  ttl : UInt32
  rdata : Rdata

/-- What a message says. -/
structure Message where
  id : UInt16
  flags : UInt8 × UInt8
  question : List Question
  answer : List Record
  authority : List Record
  additional : List Record

/-- How names are read off a message: `N off ls next`. -/
abbrev NameReader := ℕ → List Label → ℕ → Prop

/-- The types whose data is one name: NS, CNAME and PTR. -/
def nameTypes : List UInt16 := [2, 5, 12]

/-- The data of a record of type `type` in `len` octets at `off`. -/
inductive RdataBy (N : NameReader) (msg : List UInt8) (type : UInt16) (off len : ℕ) : Rdata → Prop
  | name {ls : List Label} (ht : type ∈ nameTypes) (h : N off ls (off + len)) :
      RdataBy N msg type off len (.name ls)
  | mx {preference : UInt16} {ls : List Label} (ht : type = 15)
      (hp : octets16 preference <+: msg.drop off) (h : N (off + 2) ls (off + len)) :
      RdataBy N msg type off len (.mx preference ls)
  | soa {ms rs : List Label} {timers : List UInt8} {e₁ e₂ : ℕ} (ht : type = 6) (hm : N off ms e₁)
      (hr : N e₁ rs e₂) (hp : timers <+: msg.drop e₂) (hl : timers.length = 20)
      (he : e₂ + 20 = off + len) : RdataBy N msg type off len (.soa ms rs timers)
  | octets {data : List UInt8} (ht : type ∉ nameTypes) (hx : type ≠ 15) (hs : type ≠ 6)
      (hp : data <+: msg.drop off) (hl : data.length = len) :
      RdataBy N msg type off len (.octets data)

/-- The fixed octets of a record, after its owner name. -/
def fixedOctets (r : Record) (len : UInt16) : List UInt8 :=
  octets16 r.type ++ octets16 r.rclass ++ octets32 r.ttl ++ octets16 len

/-- The record `r` stands at `off`, its owner name read by `O` and the names in its data
by `N`. -/
def RecordBy (O N : NameReader) (msg : List UInt8) (off : ℕ) (r : Record) (next : ℕ) : Prop :=
  ∃ (b : ℕ) (len : UInt16), O off r.owner b ∧ fixedOctets r len <+: msg.drop b ∧
    RdataBy N msg r.type (b + 10) len.toNat r.rdata ∧ next = b + 10 + len.toNat ∧
    next ≤ msg.length

/-- The records `rs` stand at `off`, one after the other. -/
def SectionBy (O N : NameReader) (msg : List UInt8) : ℕ → List Record → ℕ → Prop
  | off, [], next => next = off
  | off, r :: rs, next => ∃ n, RecordBy O N msg off r n ∧ SectionBy O N msg n rs next

/-- The question `q` stands at `off`. -/
def QuestionBy (O : NameReader) (msg : List UInt8) (off : ℕ) (q : Question) (next : ℕ) : Prop :=
  ∃ b, O off q.qname b ∧ octets16 q.qtype ++ octets16 q.qclass <+: msg.drop b ∧ next = b + 4

/-- The questions `qs` stand at `off`, one after the other. -/
def QuestionsBy (O : NameReader) (msg : List UInt8) : ℕ → List Question → ℕ → Prop
  | off, [], next => next = off
  | off, q :: qs, next => ∃ n, QuestionBy O msg off q n ∧ QuestionsBy O msg n qs next

/-- The octets of a header. -/
def headerOctets (m : Message) (qd an ns ar : UInt16) : List UInt8 :=
  octets16 m.id ++ [m.flags.1, m.flags.2] ++ octets16 qd ++ octets16 an ++ octets16 ns ++
    octets16 ar

/-- **What a message says**: its counts are the numbers of the questions and records that fill
it. Its first name is written out, as no name stands before it. -/
def Reads (msg : List UInt8) (O N : NameReader) (m : Message) : Prop :=
  ∃ (qd an ns ar : UInt16) (o₁ o₂ o₃ : ℕ),
    headerOctets m qd an ns ar <+: msg ∧
    (∀ q ∈ m.question.head?, ∃ b, PlainAt msg 12 q.qname b) ∧
    qd.toNat = m.question.length ∧ an.toNat = m.answer.length ∧
    ns.toNat = m.authority.length ∧ ar.toNat = m.additional.length ∧
    QuestionsBy O msg 12 m.question o₁ ∧ SectionBy O N msg o₁ m.answer o₂ ∧
    SectionBy O N msg o₂ m.authority o₃ ∧ SectionBy O N msg o₃ m.additional msg.length

/-- The message `m` is what the octets `msg` say, its names resolved through their pointers. -/
abbrev Says (msg : List UInt8) (m : Message) : Prop := Reads msg (NameAt msg) (NameAt msg) m

/-- The octets of a message. -/
def WellFormed (msg : List UInt8) : Prop := ∃ m, Says msg m

theorem SectionBy.append_iff {O N : NameReader} {msg : List UInt8} {off next : ℕ}
    {rs rs' : List Record} :
    SectionBy O N msg off (rs ++ rs') next ↔
      ∃ n, SectionBy O N msg off rs n ∧ SectionBy O N msg n rs' next := by
  induction rs generalizing off with
  | nil => simp [SectionBy]
  | cons r rs ih =>
    simp only [List.cons_append, SectionBy, ih]
    exact ⟨fun ⟨n, h, m, h₁, h₂⟩ => ⟨m, ⟨n, h, h₁⟩, h₂⟩,
      fun ⟨m, ⟨n, h, h₁⟩, h₂⟩ => ⟨n, h, m, h₁, h₂⟩⟩

/-- A record takes at least eleven octets. -/
theorem SectionBy.length_le {msg : List UInt8} {N : NameReader} {off next : ℕ} {rs : List Record}
    (h : SectionBy (NameAt msg) N msg off rs next) : off + 11 * rs.length ≤ next := by
  induction rs generalizing off with
  | nil =>
    obtain rfl : next = off := h
    simp
  | cons r rs ih =>
    obtain ⟨n, ⟨b, len, ho, -, -, rfl, -⟩, hs⟩ := h
    have := ih hs
    have := ho.lt_next.1
    simp only [List.length_cons]
    omega

/-- **Record data moves with its octets**: where they stand at another offset of a message that
agrees on `K`, and the offsets of `K` before them still are before them, they mean the same. -/
theorem RdataBy.shift {msg msg' : List UInt8} {K : Set ℕ} {type : UInt16} {off off' len : ℕ}
    {rdata : Rdata} (h : RdataBy (NameVia msg K) msg type off len rdata)
    (hK : ∀ i ∈ K, msg'[i]? = msg[i]?)
    (hbefore : ∀ i ∈ K, ∀ j, j < len → i < off + j → i < off' + j)
    (hm : ∀ j, j < len → msg'[off' + j]? = msg[off + j]?) :
    RdataBy (NameAt msg') msg' type off' len rdata := by
  -- a name `d` octets into the data
  have hname : ∀ {d ls n}, NameVia msg K (off + d) ls n → n ≤ off + len →
      NameAt msg' (off' + d) ls (off' + (n - off)) := by
    intro d ls n h hn
    have hlt := h.nameAt.lt_next.1
    have h : NameAt msg' (off' + d) ls (off' + d + (n - (off + d))) := h.shift hK
      (fun i hi j hj hij => by
        have := hbefore i hi (d + j) (by omega) (by omega)
        omega)
      fun j hj => by
        have := hm (d + j) (by omega)
        simpa only [Nat.add_assoc] using this
    rwa [show off' + d + (n - (off + d)) = off' + (n - off) by omega] at h
  -- octets `d` octets into the data
  have hoctets : ∀ {as : List UInt8} {d : ℕ}, as <+: msg.drop (off + d) → d + as.length ≤ len →
      as <+: msg'.drop (off' + d) := by
    intro as d h hd
    refine prefix_drop_of_getElem? h fun i hi => ?_
    rw [Nat.add_assoc, Nat.add_assoc]
    exact hm (d + i) (by omega)
  cases h with
  | name ht h =>
    have h := hname (d := 0) h le_rfl
    rw [Nat.add_sub_cancel_left] at h
    exact .name ht h
  | mx ht hp h =>
    have hlt := h.nameAt.lt_next.1
    have h := hname h le_rfl
    rw [Nat.add_sub_cancel_left] at h
    exact .mx ht (hoctets (d := 0) hp (by simp; omega)) h
  | @soa ms rs timers e₁ e₂ ht hm hr hp hl he =>
    have hlt₁ := hm.nameAt.lt_next.1
    have hlt₂ := hr.nameAt.lt_next.1
    obtain ⟨d₁, rfl⟩ := Nat.exists_eq_add_of_le hlt₁.le
    obtain ⟨d₂, rfl⟩ := Nat.exists_eq_add_of_le (hlt₁.le.trans hlt₂.le)
    have hm := hname (d := 0) hm (by omega)
    have hr := hname hr (by omega)
    rw [Nat.add_sub_cancel_left] at hm hr
    exact .soa ht hm hr (hoctets hp (by omega)) hl (by omega)
  | octets ht hx hs hp hl => exact .octets ht hx hs (hoctets (d := 0) hp (by omega)) hl

/-! ## Other name readers -/

/-- What is read by one name reader is read by the other. -/
def NameReader.Le (N N' : NameReader) : Prop := ∀ off ls next, N off ls next → N' off ls next

variable {O O' N N' : NameReader} {msg : List UInt8} {off next : ℕ}

theorem RdataBy.mono (hN : N.Le N') {type : UInt16} {len : ℕ} {rdata : Rdata}
    (h : RdataBy N msg type off len rdata) : RdataBy N' msg type off len rdata := by
  cases h with
  | name ht h => exact .name ht (hN _ _ _ h)
  | mx ht hp h => exact .mx ht hp (hN _ _ _ h)
  | soa ht hm hr hp hl he => exact .soa ht (hN _ _ _ hm) (hN _ _ _ hr) hp hl he
  | octets ht hx hs hp hl => exact .octets ht hx hs hp hl

theorem SectionBy.mono (hO : O.Le O') (hN : N.Le N') {rs : List Record}
    (h : SectionBy O N msg off rs next) : SectionBy O' N' msg off rs next := by
  induction rs generalizing off with
  | nil => exact h
  | cons r rs ih =>
    obtain ⟨n, ⟨b, len, ho, hfixed, hdata, he, hle⟩, hs⟩ := h
    exact ⟨n, ⟨b, len, hO _ _ _ ho, hfixed, hdata.mono hN, he, hle⟩, ih hs⟩

theorem QuestionsBy.mono (hO : O.Le O') {qs : List Question} (h : QuestionsBy O msg off qs next) :
    QuestionsBy O' msg off qs next := by
  induction qs generalizing off with
  | nil => exact h
  | cons q qs ih =>
    obtain ⟨n, ⟨b, ho, hfixed, he⟩, hs⟩ := h
    exact ⟨n, ⟨b, hO _ _ _ ho, hfixed, he⟩, ih hs⟩

/-- **More names that can be read** leave what a message says. -/
theorem Reads.mono (hO : O.Le O') (hN : N.Le N') {m : Message} (h : Reads msg O N m) :
    Reads msg O' N' m := by
  obtain ⟨qd, an, ns, ar, o₁, o₂, o₃, hh, hfirst, hqd, han, hns, har, hqs, h₁, h₂, h₃⟩ := h
  exact ⟨qd, an, ns, ar, o₁, o₂, o₃, hh, hfirst, hqd, han, hns, har, hqs.mono hO, h₁.mono hO hN,
    h₂.mono hO hN, h₃.mono hO hN⟩

end DnsMessage
