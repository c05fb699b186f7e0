import Adrift.Protocol.ResponseRelay

/-!
# Owner names of received records

`parse_resource_record` follows an owner name that is one pointer with the first octet `0xc0`, and
takes any other octet of a pointer for the length of a label. Such a label is longer than 63
octets, so the cursor leaves the record, unless what lies behind happens to lead back.

## Main definitions

* `FaceAt buf`: the owner names the parser reads, every length octet taken at face value
* `Misread buf off ls next`: an owner name read with too long a label, that spells `ls` and ends
  the record at `next` all the same

## Main results

* `parseOwner_eq_ok`: what the parser reads as an owner name
* `ownerNames_read_iff`: a record of a message is read with its owner name, up to its
  end, exactly when the name is written out, or is one pointer with the first octet `0xc0` to a
  name that is written out, or is misread without a trace
-/

namespace Adrift

open BigEndian DnsMessage DomainName Outcome

variable {msg zs buf rest : List UInt8} {N : NameReader} {off b next : ℕ} {r : Record}
  {rs : List Record} {ks ls : List Label} {name : List UInt8}

/-- **An owner name at face value**: labels that their length octets count, at the place itself or
behind one pointer pair. -/
def FaceAt (buf : List UInt8) : NameReader := fun off ks b =>
  if buf[off]? = some 0xc0 then b = off + 2 ∧ ∃ p e, buf[off + 1]? = some p ∧ RawAt buf p.toNat ks e
  else RawAt buf off ks b

/-- A name that ends in the buffer has labels. -/
theorem NameEnds.rawAt {e : ℕ} (h : NameEnds buf off e) : ∃ ks, RawAt buf off ks e := by
  induction h with
  | @zero off h =>
    refine ⟨[], by simp, ?_, rfl⟩
    exact ⟨buf.drop (off + 1), (drop_of_getElem? h).symm⟩
  | @label off e l h hl hs ih =>
    obtain ⟨ks, hks, ⟨t, ht⟩, rfl⟩ := ih
    rw [← List.drop_drop] at ht
    have hl0 : l.toNat ≠ 0 := fun h0 => hl (UInt8.toNat_inj.mp h0)
    -- the label is there, as the rest of the name stands behind it
    have hlen : ((buf.drop (off + 1)).take l.toNat).length = l.toNat := by
      refine List.length_take_of_le ?_
      have := congrArg List.length ht
      simp only [List.length_append, List.length_drop] at this ⊢
      have hw : 0 < (wire ks).length := by simp [wire]
      omega
    refine ⟨(buf.drop (off + 1)).take l.toNat :: ks, ?_, ⟨t, ?_⟩, ?_⟩
    · have hlt := l.toNat_lt
      exact List.forall_mem_cons.mpr ⟨⟨by omega, by omega⟩, hks⟩
    · rw [wire_cons, List.cons_append, List.append_assoc, ht, hlen, List.take_append_drop,
        UInt8.ofNat_toNat, drop_of_getElem? h]
    · simp only [wire_cons, List.length_cons, List.length_append, hlen]
      omega

theorem parseQname_rawAt {e : ℕ} (h : RawAt buf off ks e) :
    parseQname (buf.drop off) = .ok (text ks, buf.drop e) := by
  obtain ⟨hks, ⟨t, ht⟩, rfl⟩ := h
  rw [← List.drop_drop, ← ht, List.drop_left, parseQname_raw hks]

/-- **What is read as a name**: the labels at face value. -/
theorem parseQname_eq_ok : parseQname (buf.drop off) = .ok (name, rest) ↔
    ∃ ks e, RawAt buf off ks e ∧ name = text ks ∧ rest = buf.drop e := by
  constructor
  · intro h
    obtain ⟨e, he, rfl⟩ := nameEnds_of_parseQname h
    obtain ⟨ks, hks⟩ := he.rawAt
    rw [parseQname_rawAt hks] at h
    cases h
    exact ⟨ks, e, hks, rfl, rfl⟩
  · rintro ⟨ks, e, h, rfl, rfl⟩
    exact parseQname_rawAt h

/-- **What the parser reads as an owner name**. -/
theorem parseOwner_eq_ok : parseOwner (buf.drop off) buf = .ok (name, rest) ↔
    ∃ ks b, FaceAt buf off ks b ∧ name = text ks ∧ rest = buf.drop b := by
  unfold FaceAt
  by_cases hc : buf[off]? = some 0xc0
  · simp only [parseOwner_pointer hc, if_pos hc, parseQname_eq_ok]
    constructor
    · rintro ⟨p, _, hp, ⟨ks, e, hks, rfl, rfl⟩, rfl⟩
      exact ⟨ks, off + 2, ⟨rfl, p, e, hp, hks⟩, rfl, rfl⟩
    · rintro ⟨ks, _, ⟨rfl, p, e, hp, hks⟩, rfl, rfl⟩
      exact ⟨p, _, hp, ⟨ks, e, hks, rfl, rfl⟩, rfl⟩
  · simp only [parseOwner_eq_parseQname hc, if_neg hc]
    exact parseQname_eq_ok

/-- **An owner name misread without a trace**: taken at face value, it has a label of more than 63
octets, spells the string of `ls`, and the length field behind it leads to `next`. -/
def Misread (buf : List UInt8) (off : ℕ) (ls : List Label) (next : ℕ) : Prop :=
  ∃ ks b l₁ l₂, FaceAt buf off ks b ∧ (∃ l ∈ ks, 63 < l.length) ∧
    CString.ofBlock (text ks) = CString.ofBlock (text ls) ∧ buf[b + 8]? = some l₁ ∧
      buf[b + 9]? = some l₂ ∧ b + 10 + (word16 l₁ l₂).toNat = next

/-- A name at face value with short labels is the name, in a form that the parser reads. -/
theorem FaceAt.ownerAt (hf : FaceAt (msg ++ zs) off ks b) (hks : ∀ l ∈ ks, l.length ≤ 63) {b' : ℕ}
    (hn : NameAt msg off ls b') : OwnerAt msg off ls b' := by
  refine ⟨hn, ?_⟩
  unfold FaceAt at hf
  split_ifs at hf with hc
  · obtain ⟨rfl, p, e, hp, hraw⟩ := hf
    obtain ⟨hlt, hle⟩ := hn.lt_next
    have hplain := hraw.plainAt hks
    have hc' : msg[off]? = some 192 := by rwa [List.getElem?_append_left (by omega)] at hc
    -- the pointer of the message leads to the same place
    cases hn with
    | root h =>
      rw [h] at hc'
      cases hc'
    | label hl h _ => exact absurd (hl.octet_bounds h hc').2 (by decide)
    | @pointer _ target n a c _ ha hb h192 ht hlo hlt' hs =>
      obtain rfl := Option.some.inj (hc'.symm.trans ha)
      have hb' : (msg ++ zs)[off + 1]? = some c := by rwa [List.getElem?_append_left (by omega)]
      obtain rfl := Option.some.inj (hp.symm.trans hb')
      obtain rfl : target = p.toNat := by simpa using ht
      obtain ⟨rfl, rfl⟩ := hplain.nameAt.unique (hs.append zs)
      refine .inr ⟨p, e, ?_, hplain.of_append hs.lt_next.2, rfl⟩
      exact ⟨msg.drop (off + 2), by rw [drop_of_getElem? ha, drop_of_getElem? hb]; rfl⟩
  · have hplain := hf.plainAt hks
    obtain ⟨rfl, rfl⟩ := hplain.nameAt.unique (hn.append zs)
    exact .inl (hplain.of_append hn.lt_next.2)

/-- The length field of a record. -/
theorem length_field {len : UInt16} (h : fixedOctets r len <+: msg.drop b) (zs : List UInt8) :
    ∃ l₁ l₂, (msg ++ zs)[b + 8]? = some l₁ ∧ (msg ++ zs)[b + 9]? = some l₂ ∧
      word16 l₁ l₂ = len := by
  have hlen : octets16 len <+: (msg ++ zs).drop (b + 8) := (prefix_append_iff.mp
    (prefix_drop_append h zs)).2
  have hsecond := List.prefix_iff_getElem?.mp hlen 1 (by simp)
  rw [List.getElem?_drop] at hsecond
  exact ⟨_, _, getElem?_of_cons_drop hlen, hsecond, word16_octets16 len⟩

/-- **A record is read** with its owner name and up to its end: the buffer is `msg` and what stands
behind it. -/
def ReadsRecord (msg zs : List UInt8) (off : ℕ) (r : Record) (next : ℕ) : Prop :=
  ∃ rr, parseResourceRecord ((msg ++ zs).drop off) (msg ++ zs) =
    .ok (rr, (msg ++ zs).drop next) ∧ rr.name = .ofBlock (text r.owner)

theorem readsRecord_iff (hr : RecordBy (NameAt msg) N msg off r next) (zs : List UInt8) :
    ReadsRecord msg zs off r next ↔
      (∃ b, OwnerAt msg off r.owner b) ∨ Misread (msg ++ zs) off r.owner next := by
  obtain ⟨b, len, hname, hfixed, -, rfl, hle⟩ := hr
  constructor
  · rintro ⟨rr, hparse, hrr⟩
    obtain ⟨⟨name, rest⟩, howner, -⟩ := bind_eq_ok.mp hparse
    obtain ⟨ks, b', hf, rfl, rfl⟩ := parseOwner_eq_ok.mp howner
    obtain ⟨hs, l₁, l₂, hl₁, hl₂, hle', hend⟩ :=
      (parseResourceRecord_of_owner howner).mp ⟨rr, hparse, hrr⟩
    -- without a long label the parser has followed the name
    by_cases hks : ∀ l ∈ ks, l.length ≤ 63
    · exact .inl ⟨b, hf.ownerAt hks hname⟩
    · push Not at hks
      refine .inr ⟨ks, b', l₁, l₂, hf, hks, hs.symm, hl₁, hl₂, ?_⟩
      have hlen := congrArg List.length hend
      simp only [List.length_drop, List.length_append] at hlen hle'
      omega
  · rintro (⟨b', hname', ho⟩ | ⟨ks, b', l₁, l₂, hf, -, hs, hl₁, hl₂, hend⟩)
    · -- the octets behind the message do not matter
      obtain rfl := (hname.unique hname').2
      obtain ⟨l₁, l₂, hl₁, hl₂, hlen⟩ := length_field hfixed zs
      refine (parseResourceRecord_of_owner (parseOwner_resolved ho zs)).mpr
        ⟨rfl, l₁, l₂, hl₁, hl₂, ?_, hlen ▸ rfl⟩
      rw [hlen, List.length_append]
      omega
    · have howner := parseOwner_eq_ok.mpr ⟨ks, b', hf, rfl, rfl⟩
      refine (parseResourceRecord_of_owner howner).mpr ⟨hs.symm, l₁, l₂, hl₁, hl₂, ?_, hend ▸ rfl⟩
      rw [hend, List.length_append]
      omega

/-- **A section is read**, record after record, where its owner names have the forms that the
parser reads. -/
theorem parseRecords_ownerAt (hs : SectionBy (OwnerAt msg) N msg off rs next)
    (zs : List UInt8) :
    ∃ rrs, parseRecords (msg ++ zs) rs.length ((msg ++ zs).drop off) =
        .ok (rrs, (msg ++ zs).drop next) ∧
      rrs.val.map (·.name) = rs.map fun r => .ofBlock (text r.owner) := by
  induction rs generalizing off with
  | nil =>
    obtain rfl : next = off := hs
    exact ⟨⟨[], rfl⟩, rfl, rfl⟩
  | cons r rs ih =>
    obtain ⟨n, ⟨b, len, ho, hfixed, hdata, rfl, hle⟩, hs⟩ := hs
    obtain ⟨⟨rrs, hlen⟩, hrrs, hnames⟩ := ih hs
    obtain ⟨rr, hrr, hname⟩ := (readsRecord_iff
      ⟨b, len, ho.1, hfixed, hdata, rfl, hle⟩ zs).mpr (.inl ⟨b, ho⟩)
    refine ⟨⟨rr :: rrs, by rw [List.length_cons, hlen, List.length_cons]⟩, ?_, ?_⟩
    · exact bind_eq_ok.mpr ⟨_, hrr, bind_eq_ok.mpr ⟨_, hrrs, rfl⟩⟩
    · rw [List.map_cons, List.map_cons, hname, hnames]

/-- **The owner names of a message**: a record is read exactly when its owner name is written out,
or is one pointer with the first octet `0xc0` to a name that is written out, or is misread without
a trace; a section with names of the first two forms is read to its end. -/
theorem ownerNames_read_iff (msg zs : List UInt8) :
    (∀ off r next, RecordBy (NameAt msg) (NameAt msg) msg off r next →
        (ReadsRecord msg zs off r next ↔
          (∃ b, OwnerAt msg off r.owner b) ∨ Misread (msg ++ zs) off r.owner next)) ∧
      ∀ off rs next, SectionBy (OwnerAt msg) (NameAt msg) msg off rs next →
        ∃ rrs, parseRecords (msg ++ zs) rs.length ((msg ++ zs).drop off) =
            .ok (rrs, (msg ++ zs).drop next) ∧
          rrs.val.map (·.name) = rs.map fun r => .ofBlock (text r.owner) :=
  ⟨fun _ _ _ hr => readsRecord_iff hr zs, fun _ _ _ hs => parseRecords_ownerAt hs zs⟩

theorem ownerNames_read_suffix : ReadsRecord suffixResponse
    (List.replicate (bufferLen - suffixResponse.length) 0) 21 suffixRecord 37 :=
  ((ownerNames_read_iff suffixResponse _).1 21 suffixRecord 37 suffixResponse_record).mpr
    (.inl ⟨23, suffixResponse_owner, suffixResponse_kept.owner⟩)

/-- A response with the address of `c.a.b.`, a label followed by a pointer to `a.b.`. -/
def subnameResponse : List UInt8 :=
  [0, 7, 129, 128, 0, 1, 0, 1, 0, 0, 0, 0] ++ [1, 97, 1, 98, 0, 0, 1, 0, 1] ++
    [1, 99, 192, 12, 0, 1, 0, 1, 0, 0, 0, 60, 0, 4] ++ [10, 3, 9, 44]

/-- The address record. -/
def subnameRecord : Record :=
  ⟨[ascii "c", ascii "a", ascii "b"], 1, 1, 60, .octets [10, 3, 9, 44]⟩

theorem subnameResponse_name : PlainAt subnameResponse 12 [ascii "a", ascii "b"] 17 :=
  ⟨by decide, by decide, rfl⟩

theorem subnameResponse_record : RecordBy (NameAt subnameResponse) (NameAt subnameResponse)
    subnameResponse 21 subnameRecord 39 := by
  have howner : NameAt subnameResponse 21 [ascii "c", ascii "a", ascii "b"] 25 :=
    .label (by decide) (by decide)
      (.pointer rfl rfl (by decide) rfl (by decide) (by decide) subnameResponse_name.nameAt)
  exact ⟨25, 4, howner, by decide, .octets (by decide) (by decide) (by decide) (by decide) rfl, rfl,
    by decide⟩

theorem subnameResponse_message :
    Says subnameResponse ⟨7, (129, 128), [sampleQuestion], [subnameRecord], [], []⟩ :=
  ⟨1, 1, 0, 0, 21, 39, 39, by decide,
    fun q hq => Option.some.inj hq ▸ ⟨_, subnameResponse_name⟩, rfl, rfl, rfl, rfl,
    ⟨21, ⟨17, subnameResponse_name.nameAt, by decide, rfl⟩, rfl⟩,
    ⟨39, subnameResponse_record, rfl⟩, rfl, rfl⟩

/-- The pointer is read as a label of 192 octets, and the cursor leaves the record. -/
theorem not_readsRecord_subname : ¬ ∀ msg m off r next, msg.length ≤ bufferLen → Says msg m →
    RecordBy (NameAt msg) (NameAt msg) msg off r next →
      ReadsRecord msg (List.replicate (bufferLen - msg.length) 0) off r next := by
  intro hall
  obtain ⟨rr, hparse, -⟩ := hall subnameResponse _ 21 subnameRecord 39 (by decide)
    subnameResponse_message subnameResponse_record
  obtain ⟨e, ⟨b, l₁, l₂, howner, -, -, rfl, hle⟩, hend⟩ :=
    exists_parseResourceRecord.mp ⟨rr, hparse⟩
  have hlen := congrArg List.length hend
  simp only [List.length_drop] at hlen
  rw [OwnerEnds, if_neg (by decide)] at howner
  have hb : b = 217 := by
    cases howner with
    | zero h => cases h
    | label h _ hs =>
      cases h
      cases hs with
      | zero h => cases h
      | label h _ hs =>
        cases h
        exact hs.of_zero rfl
  subst hb
  rw [List.length_append, List.length_replicate] at hlen hle
  have hmsg : subnameResponse.length = 39 := rfl
  have hbuf : bufferLen = 2048 := rfl
  omega

end Adrift
