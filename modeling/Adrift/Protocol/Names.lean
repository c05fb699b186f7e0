import Adrift.Protocol.Codec
import Adrift.Lib.DomainName

/-!
# The name codec on uncompressed names

`parse_qname` reads the uncompressed octets of a name as its dotted text, and `dump_name` writes
the dotted text of plain labels back as the octets. A label that carries the separator or the
terminator of the text is written back as another one.

## Main results

* `parseQname_wire`: the text of a name, and the cursor after its zero octet
* `dumpName_ofBlock_text_iff`: a name is written back as its octets exactly when its labels carry
  neither separator nor terminator
* `parseQname_dumpName_iff`: two names are then told apart by their strings
* `parseOwner_plain`, `parseOwner_pair`: the owner names the record parser resolves
-/

namespace Adrift

open Outcome DomainName

variable {buf rest : List UInt8} {ls : List Label}

/-- A length octet is not the final zero. -/
theorem ofNat_length_ne_zero {l : Label} (hl : IsRawLabel l) : UInt8.ofNat l.length ≠ 0 := by
  intro h
  have h0 : l.length = 0 := hl.toNat_ofNat.symm.trans (congrArg UInt8.toNat h)
  have h1 := hl.1
  omega

theorem qnameLengthFrom_skip (l rest : List UInt8) :
    qnameLengthFrom (l ++ rest) l.length = qnameLengthFrom rest 0 := by
  induction l with
  | nil => rfl
  | cons c l ih => exact ih

/-- `get_qname_length` counts the octets of a name, and one more. -/
theorem getQnameLength_wire (hls : ∀ l ∈ ls, IsRawLabel l) (rest : List UInt8) :
    getQnameLength (wire ls ++ rest) = .ok ((wire ls).length + 1) := by
  unfold getQnameLength
  induction ls with
  | nil => rfl
  | cons l ls ih =>
    have hl := hls l List.mem_cons_self
    have ih := ih fun l hl => hls l (List.mem_cons_of_mem _ hl)
    rw [wire_cons, List.cons_append, qnameLengthFrom, if_neg (ofNat_length_ne_zero hl),
      hl.toNat_ofNat, List.append_assoc, qnameLengthFrom_skip, ih, map_ok]
    simp only [List.length_cons, List.length_append, Except.ok.injEq]
    omega

/-- The copy loop writes a label and the separator. -/
theorem copyLabels_label {l : List UInt8} (hl : l ≠ []) {out : List UInt8}
    (h : copyLabels buf 0 = .ok (out, rest)) :
    copyLabels (l ++ buf) l.length = .ok (l ++ dot :: out, rest) := by
  induction l with
  | nil => exact absurd rfl hl
  | cons c l ih =>
    rcases l with _ | ⟨d, l⟩
    · simp [copyLabels, h]
    · have ih := ih (by simp)
      simp only [List.length_cons, List.cons_append] at ih ⊢
      rw [copyLabels, ih]
      rfl

theorem copyLabels_wire (hls : ∀ l ∈ ls, IsRawLabel l) (rest : List UInt8) :
    copyLabels (wire ls ++ rest) 0 = .ok (text ls, rest) := by
  induction ls with
  | nil => rfl
  | cons l ls ih =>
    have hl := hls l List.mem_cons_self
    have ih := ih fun l hl => hls l (List.mem_cons_of_mem _ hl)
    have hne : l ≠ [] := List.ne_nil_of_length_pos hl.1
    rw [wire_cons, List.cons_append, copyLabels, if_neg (ofNat_length_ne_zero hl),
      hl.toNat_ofNat, List.append_assoc, copyLabels_label hne ih, text_cons]
    rfl

/-- `parse_qname` takes every octet in front of a label for its length. -/
theorem parseQname_raw (hls : ∀ l ∈ ls, IsRawLabel l) (rest : List UInt8) :
    parseQname (wire ls ++ rest) = .ok (text ls, rest) := by
  simp [parseQname, getQnameLength_wire hls, copyLabels_wire hls]

/-- **`parse_qname` on an uncompressed name**: its dotted text, and the cursor after it. -/
theorem parseQname_wire (hls : ∀ l ∈ ls, IsLabel l) (rest : List UInt8) :
    parseQname (wire ls ++ rest) = .ok (text ls, rest) :=
  parseQname_raw (fun l hl => (hls l hl).raw) rest

/-- The writing loop on a label, `k` octets of which are already counted. -/
theorem dumpLabels_label {l : List UInt8} (hd : dot ∉ l) (k : Nat) (hk : k + l.length < 256)
    (t q : List UInt8) :
    dumpLabels (l ++ dot :: t) (.ofNat k) q =
      .ofNat (k + l.length) :: q.take (k + l.length) ++
        if t = [] then [0] else dumpLabels t 0 (q.drop (k + l.length + 1)) := by
  induction l generalizing k with
  | nil =>
    have hk' : (UInt8.ofNat k).toNat = k := by
      simp only [UInt8.toNat_ofNat', List.length_nil] at hk ⊢
      omega
    rw [List.nil_append, dumpLabels, if_pos rfl, hk']
    rfl
  | cons c l ih =>
    simp only [List.mem_cons, not_or] at hd
    simp only [List.length_cons] at hk
    rw [List.cons_append, dumpLabels, if_neg (Ne.symm hd.1),
      show UInt8.ofNat k + 1 = UInt8.ofNat (k + 1) by simp, ih hd.2 (k + 1) (by omega)]
    simp only [List.length_cons, show k + 1 + l.length = k + (l.length + 1) by omega]

/-! ## Encoding back -/

/-- The writing loop on a label without a separator after it. -/
theorem dumpLabels_last {l : List UInt8} (hd : dot ∉ l) (k : Nat) (q : List UInt8) :
    dumpLabels l (.ofNat k) q =
      .ofNat (k + l.length) :: q.take (UInt8.ofNat (k + l.length)).toNat ++ [0] := by
  induction l generalizing k with
  | nil => rfl
  | cons c l ih =>
    simp only [List.mem_cons, not_or] at hd
    rw [dumpLabels, if_neg (Ne.symm hd.1), show UInt8.ofNat k + 1 = UInt8.ofNat (k + 1) by simp,
      ih hd.2 (k + 1), List.length_cons, Nat.add_right_comm, Nat.add_assoc]

/-- The string read of a name starts with its first label, where the label has no terminator. -/
theorem ofBlock_text_cons {l : Label} (h0 : (0 : UInt8) ∉ l) (ls : List Label) :
    (CString.ofBlock (text (l :: ls))).octets =
      l ++ dot :: (CString.ofBlock (text ls)).octets := by
  have hl : ∀ c ∈ l, (decide (c ≠ 0)) = true := by
    intro c hc
    exact decide_eq_true fun h => h0 (h ▸ hc)
  simp only [CString.ofBlock, text_cons]
  rw [List.takeWhile_append_of_pos hl, List.takeWhile_cons_of_pos (by decide)]
  rfl

/-- A plain first label is written back, and after it the rest of the name. -/
theorem dumpName_ofBlock_cons {l : Label} (hl : IsPlainLabel l) (ls : List Label) :
    dumpName (.ofBlock (text (l :: ls))) = wireLabel l ++ dumpName (.ofBlock (text ls)) := by
  obtain ⟨⟨-, hlen⟩, hd, h0⟩ := hl
  have hdrop : l.drop (l.length + 1) = [] := List.drop_of_length_le (by omega)
  unfold dumpName
  rw [ofBlock_text_cons h0 ls, if_neg (by simp), show (0 : UInt8) = UInt8.ofNat 0 from rfl,
    dumpLabels_label hd 0 (by omega) (CString.ofBlock (text ls)).octets]
  simp [wireLabel, dot, List.drop_append, hdrop]

/-- The length octet written first is that of the octets before the first separator. -/
theorem head?_dumpName {a : List UInt8} {s : CString} (hd : dot ∉ a) (hlen : a.length < 256)
    (hs : s.octets = a ∨ ∃ t, s.octets = a ++ dot :: t) :
    (dumpName s).head? = some (.ofNat a.length) := by
  have hzero : (0 : UInt8) = UInt8.ofNat 0 := rfl
  unfold dumpName
  rcases hs with hs | ⟨t, hs⟩
  · rcases a with _ | ⟨c, a⟩
    · rw [hs, if_pos rfl]
      rfl
    · rw [hs, if_neg (by simp), hzero, dumpLabels_last hd 0]
      simp
  · rw [hs, if_neg (by simp), hzero, dumpLabels_label hd 0 (by omega) t]
    simp

/-- The string read of a name stops inside a first label that carries a terminator or a
separator, as `dump_name` sees it. -/
theorem ofBlock_text_of_not_plain {l : Label} (hl : IsLabel l) (hn : ¬IsPlainLabel l)
    (ls : List Label) : ∃ a : List UInt8, dot ∉ a ∧ a.length < l.length ∧
      ((CString.ofBlock (text (l :: ls))).octets = a ∨
        ∃ t, (CString.ofBlock (text (l :: ls))).octets = a ++ dot :: t) := by
  -- the label is cut in front of its first separator or terminator
  have hfind : (l.find? fun c => decide (c = dot ∨ c = 0)).isSome := by
    rw [List.find?_isSome]
    by_contra! h
    refine hn ⟨hl, fun hm => ?_, fun hm => ?_⟩
    · simpa [dot] using h 46 hm
    · simpa using h 0 hm
  obtain ⟨d, hfind⟩ := Option.isSome_iff_exists.mp hfind
  obtain ⟨hd, a, b, rfl, ha⟩ := List.find?_eq_some_iff_append.mp hfind
  simp only [decide_eq_true_eq, Bool.not_eq_true', decide_eq_false_iff_not, not_or] at hd ha
  have hal : ∀ x ∈ a, (decide (x ≠ 0)) = true := fun x hx => decide_eq_true (ha x hx).2
  refine ⟨a, fun h => (ha _ h).1 rfl, by simp, ?_⟩
  simp only [CString.ofBlock, text_cons, List.append_assoc, List.cons_append]
  rw [List.takeWhile_append_of_pos hal]
  by_cases h0 : d = 0
  · left
    rw [h0, List.takeWhile_cons_of_neg (by simp), List.append_nil]
  · right
    obtain rfl := hd.resolve_right h0
    exact ⟨_, by rw [List.takeWhile_cons_of_pos (by decide)]⟩

/-- **A name is encoded back** exactly when its labels are plain. -/
theorem dumpName_ofBlock_text_iff (hls : ∀ l ∈ ls, IsLabel l) :
    dumpName (.ofBlock (text ls)) = wire ls ↔ ∀ l ∈ ls, IsPlainLabel l := by
  induction ls with
  | nil => simp [dumpName, CString.ofBlock]
  | cons l ls ih =>
    have hl := hls l List.mem_cons_self
    have ih := ih fun k hk => hls k (List.mem_cons_of_mem _ hk)
    rw [List.forall_mem_cons]
    by_cases hp : IsPlainLabel l
    · rw [dumpName_ofBlock_cons hp, ← ih, wire_cons, wireLabel]
      simp [hp]
    · -- the length octet is already wrong
      obtain ⟨a, hd, hlt, hs⟩ := ofBlock_text_of_not_plain hl hp ls
      refine iff_of_false ?_ fun h => hp h.1
      intro h
      have hlen := hl.2
      have hhead := head?_dumpName hd (by omega) hs
      rw [h, wire_cons, List.head?_cons, Option.some.injEq] at hhead
      have := congrArg UInt8.toNat hhead
      rw [hl.toNat_ofNat, UInt8.toNat_ofNat'] at this
      omega
/-- **`dump_name` on the text of plain labels** writes the octets of the name. -/
theorem dumpName_text (hls : ∀ l ∈ ls, IsPlainLabel l) :
    dumpName (.ofBlock (text ls)) = wire ls :=
  (dumpName_ofBlock_text_iff fun l hl => (hls l hl).1).mpr hls

/-- **Two names are read apart and encoded back** exactly when their labels are plain. -/
theorem parseQname_dumpName_iff (hls : ∀ l ∈ ls, IsLabel l) (hks : ∀ l ∈ ks, IsLabel l)
    (rest rest' : List UInt8) :
    ∃ block block', parseQname (wire ls ++ rest) = .ok (block, rest) ∧
      parseQname (wire ks ++ rest') = .ok (block', rest') ∧
      ((dumpName (.ofBlock block) = wire ls ∧ dumpName (.ofBlock block') = wire ks ∧
          (wire ls ≠ wire ks → CString.ofBlock block ≠ CString.ofBlock block')) ↔
        (∀ l ∈ ls, dot ∉ l ∧ 0 ∉ l) ∧ ∀ l ∈ ks, dot ∉ l ∧ 0 ∉ l) := by
  have hplain : ∀ {ns : List Label}, (∀ l ∈ ns, IsLabel l) →
      ((∀ l ∈ ns, IsPlainLabel l) ↔ ∀ l ∈ ns, dot ∉ l ∧ 0 ∉ l) := by
    intro ns hns
    exact forall₂_congr fun l hl => and_iff_right (hns l hl)
  refine ⟨_, _, parseQname_wire hls rest, parseQname_wire hks rest', ?_⟩
  rw [← hplain hls, ← hplain hks, ← dumpName_ofBlock_text_iff hls,
    ← dumpName_ofBlock_text_iff hks]
  constructor
  · rintro ⟨h, h', -⟩
    exact ⟨h, h'⟩
  · rintro ⟨h, h'⟩
    refine ⟨h, h', fun hne he => hne ?_⟩
    -- the octets are written from the string alone
    rw [← h, ← h', he]

theorem parseQname_dumpName_hosts :
    ∃ block block', parseQname (wire [[97], [98]] ++ []) = .ok (block, []) ∧
      parseQname (wire [[97, 45, 98]] ++ []) = .ok (block', []) ∧
      ((dumpName (.ofBlock block) = wire [[97], [98]] ∧
          dumpName (.ofBlock block') = wire [[97, 45, 98]] ∧
          (wire [[97], [98]] ≠ wire [[97, 45, 98]] →
            CString.ofBlock block ≠ CString.ofBlock block')) ↔
        (∀ l ∈ [[97], [98]], dot ∉ l ∧ 0 ∉ l) ∧ ∀ l ∈ [[97, 45, 98]], dot ∉ l ∧ (0 : UInt8) ∉ l) :=
  parseQname_dumpName_iff (by decide) (by decide) [] []

/-- A separator in a label is taken for the end of the label. -/
theorem dot_label_splits :
    (∀ l ∈ ([[97, 46, 98]] : List Label), IsLabel l) ∧
    parseQname (wire [[97, 46, 98]]) = .ok ([97, 46, 98, 46], []) ∧
    parseQname (wire [[97], [98]]) = .ok ([97, 46, 98, 46], []) ∧
    dumpName (.ofBlock [97, 46, 98, 46]) = wire [[97], [98]] ∧
    wire [[97, 46, 98]] ≠ wire [[97], [98]] := by
  decide
/-! ## Owner names -/

theorem parseOwner_wire (hls : ∀ l ∈ ls, IsLabel l) (rest nameBuf : List UInt8) :
    parseOwner (wire ls ++ rest) nameBuf = .ok (text ls, rest) := by
  have hc : ∀ {c : UInt8} {t : List UInt8}, wire ls ++ rest = c :: t → c ≠ 0xc0 := by
    rintro c t h rfl
    cases ls with
    | nil => simp at h
    | cons l ls =>
      have hl := hls l List.mem_cons_self
      rw [wire_cons, List.cons_append] at h
      have hc : l.length = 192 :=
        hl.toNat_ofNat.symm.trans (congrArg UInt8.toNat (List.cons.inj h).1)
      have hlen := hl.2
      omega
  cases h : wire ls ++ rest with
  | nil => simp [wire] at h
  | cons c t =>
    simp only [parseOwner, if_neg (hc h)]
    rw [← h, parseQname_wire hls]

/-- An uncompressed owner name is read in place. -/
theorem parseOwner_plain {msg : List UInt8} {off next : ℕ} (h : PlainAt msg off ls next)
    (nameBuf : List UInt8) : parseOwner (msg.drop off) nameBuf = .ok (text ls, msg.drop next) := by
  obtain ⟨hls, ⟨t, ht⟩, rfl⟩ := h
  rw [← List.drop_drop, ← ht, List.drop_left, parseOwner_wire hls]

/-- A pointer to an uncompressed name is followed, and the cursor moves past the pointer. -/
theorem parseOwner_pair {msg : List UInt8} {off next : ℕ} (h : PairAt msg off ls next) :
    parseOwner (msg.drop off) msg = .ok (text ls, msg.drop next) := by
  obtain ⟨b, e, ⟨t, ht⟩, ⟨hls, ⟨u, hu⟩, -⟩, rfl⟩ := h
  rw [← List.drop_drop, ← ht]
  simp only [List.cons_append, List.nil_append, parseOwner, if_pos]
  rw [← hu, parseQname_wire hls]
  rfl

/-- The owner names that are resolved, whatever stands behind the message. -/
theorem parseOwner_resolved {msg : List UInt8} {off next : ℕ}
    (h : PlainAt msg off ls next ∨ PairAt msg off ls next) (zs : List UInt8) :
    parseOwner ((msg ++ zs).drop off) (msg ++ zs) = .ok (text ls, (msg ++ zs).drop next) := by
  rcases h with h | h
  · exact parseOwner_plain (h.append zs) _
  · exact parseOwner_pair (h.append zs)

end Adrift
