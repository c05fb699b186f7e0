import Mathlib.Data.List.Basic
import Mathlib.Data.List.Infix
import Mathlib.Data.Set.Basic

/-!
# Domain names

A name is a sequence of labels. In a message it is written as counted labels ended by a zero
octet, or as labels followed by a pointer to a name written earlier; as text it is its labels,
each followed by a dot.

## Main definitions

* `wire`, `text`: the uncompressed octets and the dotted text of a name
* `IsLabel`, `IsPlainLabel`: the labels of a name, and those the dotted text can carry
* `NameAt msg off ls next`: the message reads the name `ls` at `off`, up to `next`
* `PlainAt`, `PairAt`: a name without a pointer, and a name that is one pointer to such a name
* `RawAt`: what a reader finds that takes every octet in front of a label for its length
* `NameIn msg K off ls next`: a name that is read in the octets at the offsets in `K`
* `NameVia msg K off ls next`: a name whose pointer leads to a name that is read in `K`

## Main results

* `NameAt.unique`: a message reads at most one name at an offset
* `NameAt.append`: octets after the message do not change its names
* `NameAt.of_wire`: the uncompressed octets of a name read as the name
* `NameIn.nameAt`: messages agreeing on the octets of a name read the same name
* `NameVia.shift`: a name moved with its octets still leads to the names before it
-/

namespace DomainName

/-- The octets of a label. -/
abbrev Label := List UInt8

/-- A label has 1 to 63 octets. -/
def IsLabel (l : Label) : Prop := 1 ≤ l.length ∧ l.length ≤ 63

/-- What a length octet other than zero counts: 1 to 255 octets. -/
def IsRawLabel (l : Label) : Prop := 1 ≤ l.length ∧ l.length ≤ 255

/-- A label the dotted text can carry: free of the separator and of the terminator. -/
def IsPlainLabel (l : Label) : Prop := IsLabel l ∧ (46 : UInt8) ∉ l ∧ (0 : UInt8) ∉ l

instance (l : Label) : Decidable (IsLabel l) := inferInstanceAs (Decidable (_ ∧ _))

instance (l : Label) : Decidable (IsPlainLabel l) := inferInstanceAs (Decidable (_ ∧ _))

/-- A label after its length octet. -/
def wireLabel (l : Label) : List UInt8 := .ofNat l.length :: l

/-- The uncompressed octets of a name. -/
def wire (ls : List Label) : List UInt8 := ls.flatMap wireLabel ++ [0]

/-- The dotted text of a name. -/
def text (ls : List Label) : List UInt8 := ls.flatMap (· ++ [46])

@[simp] theorem wire_nil : wire [] = [0] := rfl

@[simp] theorem wire_cons (l : Label) (ls : List Label) :
    wire (l :: ls) = .ofNat l.length :: (l ++ wire ls) := by
  simp [wire, wireLabel]

@[simp] theorem text_nil : text [] = [] := rfl

@[simp] theorem text_cons (l : Label) (ls : List Label) :
    text (l :: ls) = l ++ 46 :: text ls := by
  simp [text]

/-- The dotted text of a name ends with a separator. -/
theorem text_getLast? {ls : List Label} (h : ls ≠ []) : (text ls).getLast? = some 46 := by
  obtain ⟨ks, l, rfl⟩ := (List.eq_nil_or_concat ls).resolve_left h
  simp [text, ← List.append_assoc]

theorem IsLabel.raw {l : Label} (h : IsLabel l) : IsRawLabel l := ⟨h.1, h.2.trans (by decide)⟩

/-- The length octet of a label counts it. -/
theorem IsRawLabel.toNat_ofNat {l : Label} (h : IsRawLabel l) :
    (UInt8.ofNat l.length).toNat = l.length := by
  simp only [UInt8.toNat_ofNat']
  have := h.2
  omega

theorem IsLabel.toNat_ofNat {l : Label} (h : IsLabel l) :
    (UInt8.ofNat l.length).toNat = l.length :=
  h.raw.toNat_ofNat

/-- **The name read at an offset**: labels up to a zero octet, or up to a pointer to a name
read at an earlier offset after the 12 octets of the header. -/
inductive NameAt (msg : List UInt8) : ℕ → List Label → ℕ → Prop
  | root {off : ℕ} (h : msg[off]? = some 0) : NameAt msg off [] (off + 1)
  | label {off next : ℕ} {l : Label} {ls : List Label} (hl : IsLabel l)
      (h : wireLabel l <+: msg.drop off) (hs : NameAt msg (off + 1 + l.length) ls next) :
      NameAt msg off (l :: ls) next
  | pointer {off target next : ℕ} {a b : UInt8} {ls : List Label} (ha : msg[off]? = some a)
      (hb : msg[off + 1]? = some b) (hp : 192 ≤ a.toNat)
      (ht : target = (a.toNat - 192) * 256 + b.toNat) (hlo : 12 ≤ target) (hlt : target < off)
      (hs : NameAt msg target ls next) : NameAt msg off ls (off + 2)

theorem getElem?_of_cons_drop {msg : List UInt8} {off : ℕ} {a : UInt8} {as : List UInt8}
    (h : a :: as <+: msg.drop off) : msg[off]? = some a := by
  obtain ⟨t, ht⟩ := h
  have := congrArg (·[0]?) ht
  simpa using this.symm

theorem prefix_unique {as bs ms : List UInt8} (ha : as <+: ms) (hb : bs <+: ms)
    (hl : as.length = bs.length) : as = bs :=
  (List.prefix_of_prefix_length_le ha hb hl.le).eq_of_length hl

/-- The octet in front of a label is neither zero nor a pointer. -/
theorem IsLabel.octet_bounds {msg : List UInt8} {off : ℕ} {l : Label} {a : UInt8} (hl : IsLabel l)
    (hp : wireLabel l <+: msg.drop off) (ha : msg[off]? = some a) :
    0 < a.toNat ∧ a.toNat < 192 := by
  obtain rfl := Option.some.inj ((getElem?_of_cons_drop hp).symm.trans ha)
  rw [hl.toNat_ofNat]
  exact ⟨hl.1, hl.2.trans_lt (by decide)⟩

/-- A message reads at most one name at an offset. -/
theorem NameAt.unique {msg : List UInt8} {off n n' : ℕ} {ls ls' : List Label}
    (h : NameAt msg off ls n) (h' : NameAt msg off ls' n') : ls = ls' ∧ n = n' := by
  -- the first octet says which of the three readings it is
  induction h generalizing ls' n' with
  | root h =>
    cases h' with
    | root => exact ⟨rfl, rfl⟩
    | label hl hp _ => exact absurd (hl.octet_bounds hp h).1 (lt_irrefl 0)
    | pointer ha _ hp =>
      obtain rfl := Option.some.inj (h.symm.trans ha)
      simp at hp
  | @label off next l ls hl hp hs ih =>
    have hh := getElem?_of_cons_drop hp
    cases h' with
    | root h => exact absurd (hl.octet_bounds hp h).1 (lt_irrefl 0)
    | @label _ _ l' ls' hl' hp' hs' =>
      have hn := congrArg UInt8.toNat (Option.some.inj (hh.symm.trans (getElem?_of_cons_drop hp')))
      rw [hl.toNat_ofNat, hl'.toNat_ofNat] at hn
      have he := prefix_unique hp hp' (by simp [wireLabel, hn])
      obtain rfl := (List.cons.inj he).2
      obtain ⟨rfl, rfl⟩ := ih hs'
      exact ⟨rfl, rfl⟩
    | pointer ha _ h192 => exact absurd h192 (hl.octet_bounds hp ha).2.not_ge
  | @pointer off target next a b ls ha hb h192 ht hlo hlt hs ih =>
    cases h' with
    | root h =>
      obtain rfl := Option.some.inj (h.symm.trans ha)
      simp at h192
    | label hl hp _ => exact absurd h192 (hl.octet_bounds hp ha).2.not_ge
    | pointer ha' hb' _ ht' _ _ hs' =>
      obtain rfl := Option.some.inj (ha.symm.trans ha')
      obtain rfl := Option.some.inj (hb.symm.trans hb')
      obtain rfl := ht.trans ht'.symm
      exact ⟨(ih hs').1, rfl⟩

/-- The end of a name lies in the message. -/
theorem NameAt.lt_next {msg : List UInt8} {off n : ℕ} {ls : List Label}
    (h : NameAt msg off ls n) : off < n ∧ n ≤ msg.length := by
  induction h with
  | root h =>
    have := (List.getElem?_eq_some_iff.mp h).1
    omega
  | label hl hp hs ih => omega
  | pointer ha hb _ _ _ _ _ ih =>
    have := (List.getElem?_eq_some_iff.mp hb).1
    omega

/-- What stands at an offset still does before more octets. -/
theorem prefix_drop_append {as msg : List UInt8} {off : ℕ} (h : as <+: msg.drop off)
    (zs : List UInt8) : as <+: (msg ++ zs).drop off :=
  h.trans ⟨_, List.drop_append.symm⟩

/-- Octets after the message do not change its names. -/
theorem NameAt.append {msg : List UInt8} {off n : ℕ} {ls : List Label}
    (h : NameAt msg off ls n) (zs : List UInt8) : NameAt (msg ++ zs) off ls n := by
  have hget : ∀ {i : ℕ} {a : UInt8}, msg[i]? = some a → (msg ++ zs)[i]? = some a := by
    intro i a hi
    rw [List.getElem?_append_left (List.getElem?_eq_some_iff.mp hi).1, hi]
  induction h with
  | root h => exact .root (hget h)
  | label hl hp hs ih => exact .label hl (prefix_drop_append hp zs) ih
  | pointer ha hb hp ht hlo hlt _ ih => exact .pointer (hget ha) (hget hb) hp ht hlo hlt ih

/-- Two parts stand at an offset one after the other. -/
theorem prefix_append_iff {as bs msg : List UInt8} {off : ℕ} :
    as ++ bs <+: msg.drop off ↔ as <+: msg.drop off ∧ bs <+: msg.drop (off + as.length) := by
  constructor
  · rintro ⟨t, ht⟩
    refine ⟨⟨bs ++ t, by rw [← ht, List.append_assoc]⟩, t, ?_⟩
    rw [← List.drop_drop, ← ht, List.append_assoc, List.drop_left]
  · rintro ⟨⟨t, ht⟩, hb⟩
    rw [← List.drop_drop, ← ht, List.drop_left] at hb
    rw [← ht]
    exact (List.prefix_append_right_inj as).mpr hb

theorem prefix_wire_cons {msg : List UInt8} {off : ℕ} {l : Label} {ls : List Label}
    (h : wire (l :: ls) <+: msg.drop off) :
    wireLabel l <+: msg.drop off ∧ wire ls <+: msg.drop (off + 1 + l.length) ∧
      off + 1 + l.length + (wire ls).length = off + (wire (l :: ls)).length := by
  have hw : wire (l :: ls) = wireLabel l ++ wire ls := by simp [wireLabel]
  have hn : off + (wireLabel l).length = off + 1 + l.length := by
    simp [wireLabel]
    omega
  rw [hw] at h ⊢
  obtain ⟨hl, hls⟩ := prefix_append_iff.mp h
  refine ⟨hl, hn ▸ hls, ?_⟩
  rw [List.length_append, ← hn, Nat.add_assoc]

/-- **The uncompressed octets of a name read as the name**. -/
theorem NameAt.of_wire {msg : List UInt8} {off : ℕ} {ls : List Label}
    (hls : ∀ l ∈ ls, IsLabel l) (h : wire ls <+: msg.drop off) :
    NameAt msg off ls (off + (wire ls).length) := by
  induction ls generalizing off with
  | nil => exact .root (getElem?_of_cons_drop h)
  | cons l ls ih =>
    obtain ⟨hp, hw, hn⟩ := prefix_wire_cons h
    rw [← hn]
    exact .label (hls l List.mem_cons_self) hp
      (ih (fun l hl => hls l (List.mem_cons_of_mem _ hl)) hw)

/-- Different names have different uncompressed octets. -/
theorem wire_inj {ls ks : List Label} (hls : ∀ l ∈ ls, IsLabel l) (hks : ∀ l ∈ ks, IsLabel l)
    (h : wire ls = wire ks) : ls = ks :=
  have hname : NameAt (wire ls) 0 ls (0 + (wire ls).length) := .of_wire hls List.prefix_rfl
  (hname.unique (NameAt.of_wire hks (h ▸ List.prefix_rfl))).1

/-! ## Names with at most one pointer -/

/-- The uncompressed name `ls` stands at `off`. -/
def PlainAt (msg : List UInt8) (off : ℕ) (ls : List Label) (next : ℕ) : Prop :=
  (∀ l ∈ ls, IsLabel l) ∧ wire ls <+: msg.drop off ∧ next = off + (wire ls).length

/-- A pointer into the first 256 octets stands at `off`, and leads to the uncompressed
name `ls`. -/
def PairAt (msg : List UInt8) (off : ℕ) (ls : List Label) (next : ℕ) : Prop :=
  ∃ (b : UInt8) (e : ℕ), [192, b] <+: msg.drop off ∧ PlainAt msg b.toNat ls e ∧ next = off + 2

/-- The labels `ls` stand at `off` where every length octet counts what follows it, and no octet is
read as a pointer. -/
def RawAt (msg : List UInt8) (off : ℕ) (ls : List Label) (next : ℕ) : Prop :=
  (∀ l ∈ ls, IsRawLabel l) ∧ wire ls <+: msg.drop off ∧ next = off + (wire ls).length

theorem PlainAt.rawAt {msg : List UInt8} {off n : ℕ} {ls : List Label}
    (h : PlainAt msg off ls n) : RawAt msg off ls n :=
  ⟨fun l hl => (h.1 l hl).raw, h.2⟩

/-- Labels of at most 63 octets are an uncompressed name. -/
theorem RawAt.plainAt {msg : List UInt8} {off n : ℕ} {ls : List Label} (h : RawAt msg off ls n)
    (hls : ∀ l ∈ ls, l.length ≤ 63) : PlainAt msg off ls n :=
  ⟨fun l hl => ⟨(h.1 l hl).1, hls l hl⟩, h.2⟩

theorem PlainAt.nameAt {msg : List UInt8} {off n : ℕ} {ls : List Label}
    (h : PlainAt msg off ls n) : NameAt msg off ls n := by
  obtain ⟨hl, hw, rfl⟩ := h
  exact .of_wire hl hw

theorem PlainAt.append {msg : List UInt8} {off n : ℕ} {ls : List Label}
    (h : PlainAt msg off ls n) (zs : List UInt8) : PlainAt (msg ++ zs) off ls n := by
  obtain ⟨hl, hw, rfl⟩ := h
  exact ⟨hl, prefix_drop_append hw zs, rfl⟩

/-- An uncompressed name that ends in the message does not need the octets after it. -/
theorem PlainAt.of_append {msg zs : List UInt8} {off n : ℕ} {ls : List Label}
    (h : PlainAt (msg ++ zs) off ls n) (hn : n ≤ msg.length) : PlainAt msg off ls n := by
  obtain ⟨hl, hw, rfl⟩ := h
  rw [List.drop_append_of_le_length (by omega)] at hw
  refine ⟨hl, List.prefix_of_prefix_length_le hw (List.prefix_append _ zs) ?_, rfl⟩
  rw [List.length_drop]
  omega

theorem PairAt.append {msg : List UInt8} {off n : ℕ} {ls : List Label}
    (h : PairAt msg off ls n) (zs : List UInt8) : PairAt (msg ++ zs) off ls n := by
  obtain ⟨b, e, hb, hp, rfl⟩ := h
  exact ⟨b, e, prefix_drop_append hb zs, hp.append zs, rfl⟩

/-- **A name read in given octets**: labels, pointers and the zero octet stand at offsets
in `K`. -/
inductive NameIn (msg : List UInt8) (K : Set ℕ) : ℕ → List Label → ℕ → Prop
  | root {off : ℕ} (hK : off ∈ K) (h : msg[off]? = some 0) : NameIn msg K off [] (off + 1)
  | label {off next : ℕ} {l : Label} {ls : List Label} (hl : IsLabel l)
      (hK : ∀ i, i ≤ l.length → off + i ∈ K) (h : wireLabel l <+: msg.drop off)
      (hs : NameIn msg K (off + 1 + l.length) ls next) : NameIn msg K off (l :: ls) next
  | pointer {off target next : ℕ} {a b : UInt8} {ls : List Label} (hKa : off ∈ K)
      (hKb : off + 1 ∈ K) (ha : msg[off]? = some a) (hb : msg[off + 1]? = some b)
      (hp : 192 ≤ a.toNat) (ht : target = (a.toNat - 192) * 256 + b.toNat) (hlo : 12 ≤ target)
      (hlt : target < off) (hs : NameIn msg K target ls next) : NameIn msg K off ls (off + 2)

/-- **A name whose pointer leads to given octets**: the pointer, where there is one, leads to a
name that is read in `K`. -/
inductive NameVia (msg : List UInt8) (K : Set ℕ) : ℕ → List Label → ℕ → Prop
  | root {off : ℕ} (h : msg[off]? = some 0) : NameVia msg K off [] (off + 1)
  | label {off next : ℕ} {l : Label} {ls : List Label} (hl : IsLabel l)
      (h : wireLabel l <+: msg.drop off) (hs : NameVia msg K (off + 1 + l.length) ls next) :
      NameVia msg K off (l :: ls) next
  | pointer {off target next : ℕ} {a b : UInt8} {ls : List Label} (ha : msg[off]? = some a)
      (hb : msg[off + 1]? = some b) (hp : 192 ≤ a.toNat)
      (ht : target = (a.toNat - 192) * 256 + b.toNat) (hlo : 12 ≤ target) (hlt : target < off)
      (hs : NameIn msg K target ls next) : NameVia msg K off ls (off + 2)

variable {msg msg' : List UInt8} {K : Set ℕ} {off off' n : ℕ} {ls : List Label}

theorem NameIn.mem (h : NameIn msg K off ls n) : off ∈ K := by
  cases h with
  | root hK => exact hK
  | label _ hK => exact hK 0 (Nat.zero_le _)
  | pointer hK => exact hK

/-- Octets that stand at an offset stand where the same octets are. -/
theorem prefix_drop_of_getElem? {as : List UInt8} (h : as <+: msg.drop off)
    (hm : ∀ i, i < as.length → msg'[off' + i]? = msg[off + i]?) : as <+: msg'.drop off' := by
  refine List.prefix_iff_getElem?.mpr fun i hi => ?_
  rw [List.getElem?_drop, hm i hi, ← List.getElem?_drop]
  exact List.prefix_iff_getElem?.mp h i hi

/-- The same octets stand at two offsets. -/
theorem getElem?_of_prefix_drop {as : List UInt8} (h : as <+: msg.drop off)
    (h' : as <+: msg'.drop off') {i : ℕ} (hi : i < as.length) :
    msg'[off' + i]? = msg[off + i]? := by
  rw [← List.getElem?_drop, ← List.getElem?_drop, List.prefix_iff_getElem?.mp h i hi,
    List.prefix_iff_getElem?.mp h' i hi]

/-- **Messages that agree on the octets** of a name both read it. -/
theorem NameIn.nameAt (h : NameIn msg K off ls n) (hK : ∀ i ∈ K, msg'[i]? = msg[i]?) :
    NameAt msg' off ls n := by
  induction h with
  | root hoff h => exact .root ((hK _ hoff).trans h)
  | label hl hoff h _ ih =>
    refine .label hl (prefix_drop_of_getElem? h fun i hi => hK _ (hoff i ?_)) ih
    rw [wireLabel, List.length_cons] at hi
    omega
  | pointer hKa hKb ha hb hp ht hlo hlt _ ih =>
    exact .pointer ((hK _ hKa).trans ha) ((hK _ hKb).trans hb) hp ht hlo hlt ih

theorem NameVia.nameAt (h : NameVia msg K off ls n) : NameAt msg off ls n := by
  induction h with
  | root h => exact .root h
  | label hl h _ ih => exact .label hl h ih
  | pointer ha hb hp ht hlo hlt hs => exact .pointer ha hb hp ht hlo hlt (hs.nameAt fun _ _ => rfl)

/-- **A name moves with its octets**: where they stand at another offset of a message that agrees
on `K`, and the offsets of `K` before them still are before them, they read as the same name. -/
theorem NameVia.shift (h : NameVia msg K off ls n) (hK : ∀ i ∈ K, msg'[i]? = msg[i]?)
    (hbefore : ∀ i ∈ K, ∀ j, off + j < n → i < off + j → i < off' + j)
    (hm : ∀ j, off + j < n → msg'[off' + j]? = msg[off + j]?) :
    NameAt msg' off' ls (off' + (n - off)) := by
  induction h generalizing off' with
  | @root off h =>
    have h0 := hm 0 (by omega)
    simp only [Nat.add_zero] at h0
    rw [show off + 1 - off = 1 by omega]
    exact .root (h0.trans h)
  | @label off next l ls hl hp hs ih =>
    -- the rest of the name stands one label later in both messages
    have hlt := hs.nameAt.lt_next.1
    have hs' : NameAt msg' (off' + 1 + l.length) ls
        (off' + 1 + l.length + (next - (off + 1 + l.length))) := ih
      (fun i hi j hj hij => by
        have := hbefore i hi (1 + l.length + j) (by omega) (by omega)
        omega)
      fun j hj => by
        have := hm (1 + l.length + j) (by omega)
        simpa only [Nat.add_assoc] using this
    rw [show off' + 1 + l.length + (next - (off + 1 + l.length)) = off' + (next - off) by omega]
      at hs'
    refine .label hl (prefix_drop_of_getElem? hp fun i hi => hm i ?_) hs'
    rw [wireLabel, List.length_cons] at hi
    omega
  | @pointer off target next a b ls ha hb hp ht hlo hlt hs =>
    -- the target lies in the part that both messages share, still before the pointer
    have h0 := hm 0 (by omega)
    have h1 := hm 1 (by omega)
    have hlt' := hbefore target hs.mem 0 (by omega) hlt
    rw [show off + 2 - off = 2 by omega]
    exact .pointer (h0.trans ha) (h1.trans hb) hp ht hlo hlt' (hs.nameAt hK)

end DomainName
