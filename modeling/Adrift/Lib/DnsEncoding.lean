import Mathlib.Algebra.Group.Nat.Defs
import Adrift.Lib.DnsMessage

/-!
# Messages written out

A message is written with its names in full. What is written says the message again, wherever the
labels are labels, the data of the records fits their types, and the counts and lengths fit their
fields.

## Main definitions

* `Rdata.written`, `Question.written`, `Record.written`, `Message.written`: what is written
* `Rdata.Fits type`: the data of a record of this type
* `Record.Writable`, `Message.Writable`: what can be written

## Main results

* `RdataBy.written`: data with its names in full is what is written
* `RecordBy.of_written`, `SectionBy.of_written`: written records are read again
* `Message.Writable.reads`, `Message.Writable.says_written`: a written message says what was written
-/

namespace DnsMessage

open BigEndian DomainName

/-- Record data with its names written out. -/
def Rdata.written : Rdata → List UInt8
  | .name ls => wire ls
  | .mx preference exchange => octets16 preference ++ wire exchange
  | .soa mname rname timers => wire mname ++ wire rname ++ timers
  | .octets data => data

/-- The data of a record of type `type`. -/
inductive Rdata.Fits (type : UInt16) : Rdata → Prop
  | name {ls : List Label} (ht : type ∈ nameTypes) (hls : ∀ l ∈ ls, IsLabel l) :
      Fits type (.name ls)
  | mx {preference : UInt16} {ls : List Label} (ht : type = 15) (hls : ∀ l ∈ ls, IsLabel l) :
      Fits type (.mx preference ls)
  | soa {ms rs : List Label} {timers : List UInt8} (ht : type = 6) (hms : ∀ l ∈ ms, IsLabel l)
      (hrs : ∀ l ∈ rs, IsLabel l) (hl : timers.length = 20) : Fits type (.soa ms rs timers)
  | octets {data : List UInt8} (ht : type ∉ nameTypes) (hx : type ≠ 15) (hs : type ≠ 6) :
      Fits type (.octets data)

/-- A question with its name written out. -/
def Question.written (q : Question) : List UInt8 :=
  wire q.qname ++ octets16 q.qtype ++ octets16 q.qclass

/-- A record with its names written out. -/
def Record.written (r : Record) : List UInt8 :=
  wire r.owner ++ (fixedOctets r (.ofNat r.rdata.written.length) ++ r.rdata.written)

/-- The message with its names written out. -/
def Message.written (m : Message) : List UInt8 :=
  headerOctets m (.ofNat m.question.length) (.ofNat m.answer.length) (.ofNat m.authority.length)
      (.ofNat m.additional.length) ++
    (m.question.flatMap Question.written ++ (m.answer.flatMap Record.written ++
      (m.authority.flatMap Record.written ++ m.additional.flatMap Record.written)))

/-- A record that can be written. -/
structure Record.Writable (r : Record) : Prop where
  owner : ∀ l ∈ r.owner, IsLabel l
  fits : r.rdata.Fits r.type
  length_lt : r.rdata.written.length < 2 ^ 16

/-- A message that can be written. -/
structure Message.Writable (m : Message) : Prop where
  question : ∀ q ∈ m.question, ∀ l ∈ q.qname, IsLabel l
  answer : ∀ r ∈ m.answer, r.Writable
  authority : ∀ r ∈ m.authority, r.Writable
  additional : ∀ r ∈ m.additional, r.Writable
  question_lt : m.question.length < 2 ^ 16
  answer_lt : m.answer.length < 2 ^ 16
  authority_lt : m.authority.length < 2 ^ 16
  additional_lt : m.additional.length < 2 ^ 16

variable {msg : List UInt8} {off : ℕ} {type : UInt16} {rdata : Rdata} {q : Question}
  {qs : List Question} {r : Record} {rs : List Record} {m : Message}

/-- **Record data is read again**. -/
theorem RdataBy.of_written (h : rdata.Fits type) (hp : rdata.written <+: msg.drop off) :
    RdataBy (PlainAt msg) msg type off rdata.written.length rdata := by
  cases h with
  | name ht hls => exact .name ht ⟨hls, hp, rfl⟩
  | @mx preference ls ht hls =>
    obtain ⟨hpref, hname⟩ := prefix_append_iff.mp hp
    refine .mx ht hpref ⟨hls, hname, ?_⟩
    rw [Nat.add_assoc, Rdata.written, List.length_append]
    rfl
  | @soa ms rs timers ht hms hrs hl =>
    obtain ⟨hp, htimers⟩ := prefix_append_iff.mp hp
    obtain ⟨hm, hr⟩ := prefix_append_iff.mp hp
    rw [List.length_append, ← Nat.add_assoc] at htimers
    refine .soa ht ⟨hms, hm, rfl⟩ ⟨hrs, hr, rfl⟩ htimers hl ?_
    simp only [Rdata.written, List.length_append, hl]
    omega
  | octets ht hx hs => exact .octets ht hx hs hp rfl

/-- **Data with its names in full** is what is written. -/
theorem RdataBy.written {len : ℕ} (h : RdataBy (PlainAt msg) msg type off len rdata) :
    rdata.Fits type ∧ rdata.written <+: msg.drop off ∧ rdata.written.length = len := by
  cases h with
  | name ht h =>
    obtain ⟨hls, hw, he⟩ := h
    exact ⟨.name ht hls, hw, (Nat.add_left_cancel he).symm⟩
  | @mx preference ls ht hp h =>
    obtain ⟨hls, hw, he⟩ := h
    refine ⟨.mx ht hls, prefix_append_iff.mpr ⟨hp, hw⟩, ?_⟩
    simp only [Rdata.written, List.length_append, octets16_length]
    omega
  | @soa ms rs timers e₁ e₂ ht hm hr hp hl he =>
    obtain ⟨hms, hm, rfl⟩ := hm
    obtain ⟨hrs, hr, rfl⟩ := hr
    refine ⟨.soa ht hms hrs hl, ?_, ?_⟩
    · refine prefix_append_iff.mpr ⟨prefix_append_iff.mpr ⟨hm, hr⟩, ?_⟩
      rwa [List.length_append, ← Nat.add_assoc]
    · simp only [Rdata.written, List.length_append, hl]
      omega
  | octets ht hx hs hp hl => exact ⟨.octets ht hx hs, hp, hl⟩

/-- **A written record is read again**. -/
theorem RecordBy.of_written (h : r.Writable) (hp : r.written <+: msg.drop off) :
    RecordBy (PlainAt msg) (PlainAt msg) msg off r (off + r.written.length) := by
  have hend : off + r.written.length ≤ msg.length := by
    have hle := hp.length_le
    have hpos : 0 < r.written.length := by
      rw [Record.written, List.length_append, wire, List.length_append]
      simp only [List.length_singleton]
      omega
    rw [List.length_drop] at hle
    omega
  obtain ⟨howner, hrest⟩ := prefix_append_iff.mp hp
  obtain ⟨hfixed, hdata⟩ := prefix_append_iff.mp hrest
  have hlen : (fixedOctets r (.ofNat r.rdata.written.length)).length = 10 := by
    simp only [fixedOctets, List.length_append, octets16_length, octets32_length]
  rw [hlen] at hdata
  refine ⟨_, _, ⟨h.owner, howner, rfl⟩, hfixed, ?_, ?_, hend⟩
  · rw [UInt16.toNat_ofNat_of_lt' h.length_lt]
    exact .of_written h.fits hdata
  · rw [UInt16.toNat_ofNat_of_lt' h.length_lt, Record.written, List.length_append,
      List.length_append, hlen]
    omega

/-- **Written records are read again**, one after the other. -/
theorem SectionBy.of_written (h : ∀ r ∈ rs, r.Writable)
    (hp : rs.flatMap Record.written <+: msg.drop off) :
    SectionBy (PlainAt msg) (PlainAt msg) msg off rs
      (off + (rs.flatMap Record.written).length) := by
  induction rs generalizing off with
  | nil => rfl
  | cons r rs ih =>
    rw [List.flatMap_cons] at hp ⊢
    obtain ⟨hr, hrs⟩ := prefix_append_iff.mp hp
    refine ⟨_, .of_written (h r List.mem_cons_self) hr, ?_⟩
    rw [List.length_append, ← Nat.add_assoc]
    exact ih (fun r hr => h r (List.mem_cons_of_mem _ hr)) hrs

theorem QuestionBy.of_written (h : ∀ l ∈ q.qname, IsLabel l) (hp : q.written <+: msg.drop off) :
    PlainAt msg off q.qname (off + (wire q.qname).length) ∧
      QuestionBy (PlainAt msg) msg off q (off + q.written.length) := by
  rw [Question.written, List.append_assoc] at hp ⊢
  obtain ⟨hname, hfixed⟩ := prefix_append_iff.mp hp
  refine ⟨⟨h, hname, rfl⟩, _, ⟨h, hname, rfl⟩, hfixed, ?_⟩
  simp only [List.length_append, octets16_length]
  omega

theorem QuestionsBy.of_written (h : ∀ q ∈ qs, ∀ l ∈ q.qname, IsLabel l)
    (hp : qs.flatMap Question.written <+: msg.drop off) :
    QuestionsBy (PlainAt msg) msg off qs (off + (qs.flatMap Question.written).length) := by
  induction qs generalizing off with
  | nil => rfl
  | cons q qs ih =>
    rw [List.flatMap_cons] at hp ⊢
    obtain ⟨hq, hqs⟩ := prefix_append_iff.mp hp
    refine ⟨_, (QuestionBy.of_written (h q List.mem_cons_self) hq).2, ?_⟩
    rw [List.length_append, ← Nat.add_assoc]
    exact ih (fun q hq => h q (List.mem_cons_of_mem _ hq)) hqs

theorem headerOctets_length (m : Message) (qd an ns ar : UInt16) :
    (headerOctets m qd an ns ar).length = 12 := rfl

/-- **A written message is read again**, without any pointer. -/
theorem Message.Writable.reads (h : m.Writable) :
    Reads m.written (PlainAt m.written) (PlainAt m.written) m := by
  have hparts : m.written <+: m.written.drop 0 := List.prefix_rfl
  obtain ⟨hheader, hbody⟩ := prefix_append_iff.mp hparts
  rw [headerOctets_length, Nat.zero_add] at hbody
  obtain ⟨hquestion, hrecords⟩ := prefix_append_iff.mp hbody
  obtain ⟨hanswer, hrecords⟩ := prefix_append_iff.mp hrecords
  obtain ⟨hauthority, hadditional⟩ := prefix_append_iff.mp hrecords
  have hadditional := SectionBy.of_written h.additional hadditional
  refine ⟨_, _, _, _, _, _, _, hheader, ?_, UInt16.toNat_ofNat_of_lt' h.question_lt,
    UInt16.toNat_ofNat_of_lt' h.answer_lt, UInt16.toNat_ofNat_of_lt' h.authority_lt,
    UInt16.toNat_ofNat_of_lt' h.additional_lt, .of_written h.question hquestion,
    .of_written h.answer hanswer, .of_written h.authority hauthority, ?_⟩
  · intro q hq
    obtain ⟨qs, hqs⟩ := List.head?_eq_some_iff.mp hq
    rw [hqs, List.flatMap_cons] at hquestion
    have hlabels := h.question q (hqs ▸ List.mem_cons_self)
    exact ⟨_, (QuestionBy.of_written hlabels (prefix_append_iff.mp hquestion).1).1⟩
  · convert hadditional using 1
    rw [Message.written]
    simp only [List.length_append, headerOctets_length]
    omega

/-- **A written message says what was written**. -/
theorem Message.Writable.says_written (h : m.Writable) : Says m.written m :=
  h.reads.mono (fun _ _ _ h => h.nameAt) fun _ _ _ h => h.nameAt

end DnsMessage
