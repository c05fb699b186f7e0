import Adrift.HostsLoad

/-!
# The format of the hosts file

What the loop of `read_hosts_file` accepts, and that it reads back what is written in that format:
an address in decimals without leading zeros, blanks, a domain, and anything behind further blanks.

## Main definitions

* `octetText`, `InAddr.text`: an address in decimals
* `IsHostsLine line addr text`: the line names the address and the domain `text`
* `hostsText es`: the entries as a file, one line for each

## Main results

* `inetPton_iff`: an address has one text
* `hostsEntry_iff`: the lines that name an entry
* `hostsEntries_hostsText`: the entries of a file are read back in their order
* `readHostsFile_hostsText`: so a file is loaded as its entries
-/

namespace Adrift

/-! ## Addresses -/

/-- The digit `n`. -/
def digit (n : ℕ) : UInt8 := .ofNat (48 + n)

/-- An octet in decimal. -/
def octetText (b : UInt8) : List UInt8 :=
  let n := b.toNat
  if n < 10 then [digit n]
  else if n < 100 then [digit (n / 10), digit (n % 10)]
  else [digit (n / 100), digit (n / 10 % 10), digit (n % 10)]

/-- **An address in decimals**. -/
def InAddr.text (addr : InAddr) : List UInt8 := [dot].intercalate (addr.octets.map octetText)

theorem digit_toNat {n : ℕ} (hn : n < 10) : (digit n).toNat = 48 + n := by
  rw [digit, UInt8.toNat_ofNat']
  omega

theorem exists_digit {c : UInt8} (hc : 48 ≤ c ∧ c ≤ 57) : ∃ n < 10, c = digit n := by
  obtain ⟨h₁, h₂⟩ := hc
  rw [UInt8.le_iff_toNat_le] at h₁ h₂
  have h₁ : 48 ≤ c.toNat := h₁
  have h₂ : c.toNat ≤ 57 := h₂
  have hlt : c.toNat - 48 < 10 := by omega
  refine ⟨c.toNat - 48, hlt, UInt8.toNat_inj.mp ?_⟩
  rw [digit_toNat hlt]
  omega

theorem digit_ne_zero {n : ℕ} (hn : n < 10) (h : digit n ≠ 48) : n ≠ 0 := by
  rintro rfl
  exact h rfl

theorem decimalOctet_octetText (b : UInt8) : decimalOctet (octetText b) = some b := by
  have hall : ∀ n ∈ List.range 256, decimalOctet (octetText (.ofNat n)) = some (.ofNat n) := by
    decide +kernel
  have hb := hall b.toNat (List.mem_range.mpr b.toNat_lt)
  rwa [UInt8.ofNat_toNat] at hb

theorem octetText_ofNat {n : ℕ} (hn : n ≤ 255) : octetText (.ofNat n) =
    if n < 10 then [digit n] else if n < 100 then [digit (n / 10), digit (n % 10)]
    else [digit (n / 100), digit (n / 10 % 10), digit (n % 10)] := by
  rw [octetText, UInt8.toNat_ofNat', Nat.mod_eq_of_lt (by omega)]

/-- **An octet has one decimal**. -/
theorem decimalOctet_iff {digits : List UInt8} {b : UInt8} :
    decimalOctet digits = some b ↔ digits = octetText b := by
  constructor
  · intro h
    rw [decimalOctet] at h
    split_ifs at h with hd
    obtain ⟨hne, hlen, hdigits, hlead, hvalue⟩ := hd
    obtain rfl := Option.some.inj h
    -- one, two or three digits
    match digits, hne, hlen with
    | [x], _, _ =>
      obtain ⟨i, hi, rfl⟩ := exists_digit (hdigits x (by simp))
      simp only [List.foldl_cons, List.foldl_nil, digit_toNat hi] at hvalue ⊢
      rw [octetText_ofNat hvalue, if_pos (by omega)]
      simp
    | [x, y], _, _ =>
      obtain ⟨i, hi, rfl⟩ := exists_digit (hdigits x (by simp))
      obtain ⟨j, hj, rfl⟩ := exists_digit (hdigits y (by simp))
      have hi₀ : i ≠ 0 := digit_ne_zero hi fun h => absurd (hlead (by rw [h]; rfl)) (by simp)
      simp only [List.foldl_cons, List.foldl_nil, digit_toNat hi, digit_toNat hj, Nat.zero_mul,
        Nat.zero_add, Nat.add_sub_cancel_left] at hvalue ⊢
      rw [octetText_ofNat hvalue, if_neg (by omega), if_pos (by omega),
        show (i * 10 + j) / 10 = i by omega, show (i * 10 + j) % 10 = j by omega]
    | [x, y, z], _, _ =>
      obtain ⟨i, hi, rfl⟩ := exists_digit (hdigits x (by simp))
      obtain ⟨j, hj, rfl⟩ := exists_digit (hdigits y (by simp))
      obtain ⟨k, hk, rfl⟩ := exists_digit (hdigits z (by simp))
      have hi₀ : i ≠ 0 := digit_ne_zero hi fun h => absurd (hlead (by rw [h]; rfl)) (by simp)
      simp only [List.foldl_cons, List.foldl_nil, digit_toNat hi, digit_toNat hj, digit_toNat hk,
        Nat.zero_mul, Nat.zero_add, Nat.add_sub_cancel_left] at hvalue ⊢
      rw [octetText_ofNat hvalue, if_neg (by omega), if_neg (by omega),
        show ((i * 10 + j) * 10 + k) / 100 = i by omega,
        show ((i * 10 + j) * 10 + k) / 10 % 10 = j by omega,
        show ((i * 10 + j) * 10 + k) % 10 = k by omega]
  · rintro rfl
    exact decimalOctet_octetText b

theorem mem_octetText {b c : UInt8} (hc : c ∈ octetText b) : 48 ≤ c ∧ c ≤ 57 := by
  have h := decimalOctet_octetText b
  rw [decimalOctet] at h
  split_ifs at h with hd
  exact hd.2.2.1 c hc

theorem dot_notMem_octetText (b : UInt8) : dot ∉ octetText b :=
  fun h => absurd (mem_octetText h) (by decide)

theorem mapM_eq_some_iff {α β : Type} {f : α → Option β} {g : β → α}
    (h : ∀ x y, f x = some y ↔ x = g y) {xs : List α} {ys : List β} :
    xs.mapM f = some ys ↔ xs = ys.map g := by
  induction xs generalizing ys with
  | nil => cases ys <;> simp
  | cons x xs ih =>
    rw [List.mapM_cons]
    cases ys with
    | nil => simp [Option.bind_eq_some_iff]
    | cons y ys =>
      rw [List.map_cons, List.cons.injEq, ← h, ← ih]
      simp [Option.bind_eq_some_iff]

/-- **An address has one text**. -/
theorem inetPton_iff {ip : List UInt8} {addr : InAddr} :
    inetPton ip = some addr ↔ ip = addr.text := by
  have hsplit : inetPton ip = some addr ↔
      (ip.splitOn dot).mapM decimalOctet = some addr.octets := by
    obtain ⟨a, b, c, d⟩ := addr
    rw [inetPton]
    split
    · rename_i h
      simp [h, InAddr.octets]
    · rename_i h
      exact iff_of_false (by simp) fun h' => h a b c d h'
  rw [hsplit, mapM_eq_some_iff fun _ _ => decimalOctet_iff]
  constructor
  · intro h
    rw [InAddr.text, ← h, List.intercalate_splitOn]
  · rintro rfl
    apply List.splitOn_intercalate
    · intro l hl
      obtain ⟨b, -, rfl⟩ := List.mem_map.mp hl
      exact dot_notMem_octetText b
    · simp [InAddr.octets]

/-! ## Lines -/

variable {line text s token rest : List UInt8} {addr : InAddr} {d : CString}
  {es : List (InAddr × CString)}

/-- **A token**: it is not empty, and has no delimiter. -/
def IsToken (token : List UInt8) : Prop := token ≠ [] ∧ ∀ c ∈ token, isDelimiter c = false

/-- Delimiters. -/
def Blank (s : List UInt8) : Prop := ∀ c ∈ s, isDelimiter c

/-- What may stand behind a token: nothing, or a delimiter and anything. -/
def EndsToken (s : List UInt8) : Prop := ∀ c ∈ s.head?, isDelimiter c

theorem takeWhile_token (ht : IsToken token) (hs : EndsToken s) :
    (token ++ s).takeWhile (!isDelimiter ·) = token ∧
      (token ++ s).dropWhile (!isDelimiter ·) = s := by
  obtain ⟨-, ht⟩ := ht
  have hall : ∀ c ∈ token, (!isDelimiter c) = true := fun c hc => by rw [ht c hc]; rfl
  rw [List.takeWhile_append_of_pos hall, List.dropWhile_append_of_pos hall]
  cases s with
  | nil => simp
  | cons c s =>
    have hc : isDelimiter c := hs c rfl
    simp [hc]

/-- **The next token** of a string, and what stands behind its delimiter. -/
theorem strtok_iff : strtok s = some (token, rest) ↔ IsToken token ∧
    ∃ pre tail, s = pre ++ token ++ tail ∧ Blank pre ∧ EndsToken tail ∧ rest = tail.tail := by
  constructor
  · intro h
    rw [strtok] at h
    split at h
    · cases h
    · rename_i c s' hdrop
      obtain ⟨rfl, rfl⟩ := Prod.mk.inj (Option.some.inj h)
      have hc : isDelimiter c = false := by
        have := List.head?_dropWhile_not (p := isDelimiter) s
        rw [hdrop] at this
        simpa using this
      refine ⟨⟨?_, fun x hx => ?_⟩, s.takeWhile isDelimiter,
        (c :: s').dropWhile (!isDelimiter ·), ?_, fun x hx => List.mem_takeWhile_imp hx, ?_, rfl⟩
      · simp [hc]
      · simpa using List.mem_takeWhile_imp hx
      · rw [List.append_assoc, List.takeWhile_append_dropWhile, ← hdrop,
          List.takeWhile_append_dropWhile]
      · intro x hx
        have := List.head?_dropWhile_not (p := (!isDelimiter ·)) (c :: s')
        rw [Option.mem_def.mp hx] at this
        simpa using this
  · rintro ⟨ht, pre, tail, rfl, hpre, htail, rfl⟩
    obtain ⟨htake, hdrop⟩ := takeWhile_token ht htail
    obtain ⟨c, cs, rfl⟩ := List.exists_cons_of_ne_nil ht.1
    have hc : isDelimiter c = false := ht.2 c List.mem_cons_self
    have hskip : (pre ++ (c :: cs) ++ tail).dropWhile isDelimiter = c :: (cs ++ tail) := by
      rw [List.append_assoc, List.dropWhile_append_of_pos hpre, List.cons_append,
        List.dropWhile_cons_of_neg (by simp [hc])]
    rw [List.cons_append] at htake hdrop
    rw [strtok, hskip]
    simp only [htake, hdrop]

/-- The domain with its final dot. -/
def withDot (text : List UInt8) : List UInt8 :=
  if text.getLast? = some dot then text else text ++ [dot]

/-- **The line names an entry**: before its first NUL stand blanks, the address, blanks, the domain
`text`, and nothing or a delimiter. -/
def IsHostsLine (line : List UInt8) (addr : InAddr) (text : List UInt8) : Prop :=
  IsToken text ∧ ∃ pre sep tail, line.takeWhile (· ≠ 0) = pre ++ addr.text ++ sep ++ text ++ tail ∧
    Blank pre ∧ pre.head? ≠ some newline ∧ sep ≠ [] ∧ Blank sep ∧ EndsToken tail

theorem octetText_ne_nil (b : UInt8) : octetText b ≠ [] := by
  rw [octetText]
  split_ifs <;> simp

theorem InAddr.text_eq (a b c d : UInt8) : (InAddr.mk a b c d).text = octetText a ++
    dot :: (octetText b ++ dot :: (octetText c ++ dot :: octetText d)) := by
  simp [InAddr.text, InAddr.octets, List.intercalate]

theorem isDelimiter_octetText {b c : UInt8} (hc : c ∈ octetText b) : isDelimiter c = false := by
  obtain ⟨h, -⟩ := mem_octetText hc
  apply decide_eq_false
  rintro (rfl | rfl | rfl | rfl) <;> exact absurd h (by decide)

theorem InAddr.zero_notMem_text (addr : InAddr) : 0 ∉ addr.text := by
  obtain ⟨a, b, c, d⟩ := addr
  have hzero : ∀ b, 0 ∉ octetText b := fun b h => absurd (mem_octetText h).1 (by decide)
  simp [text_eq, hzero, dot]

theorem InAddr.text_isToken (addr : InAddr) : IsToken addr.text := by
  obtain ⟨a, b, c, d⟩ := addr
  rw [text_eq]
  constructor
  · simp [octetText_ne_nil]
  · intro x hx
    have hdot : isDelimiter dot = false := by decide
    simp only [List.mem_append, List.mem_cons] at hx
    rcases hx with hx | rfl | hx | rfl | hx | rfl | hx
    all_goals first | exact isDelimiter_octetText hx | exact hdot

theorem withDot_ne_zero (h : ∀ c ∈ text, c ≠ 0) : ∀ c ∈ withDot text, c ≠ 0 := by
  intro c hc
  rw [withDot] at hc
  split_ifs at hc
  · exact h c hc
  · rcases List.mem_append.mp hc with hc | hc
    · exact h c hc
    · rw [List.mem_singleton.mp hc]
      decide

theorem ofBlock_octets_of_ne_zero (h : ∀ c ∈ text, c ≠ 0) : (CString.ofBlock text).octets = text :=
  List.takeWhile_eq_self_iff.mpr fun c hc => decide_eq_true (h c hc)

/-- **The lines that name an entry** are those the loop accepts. -/
theorem hostsEntry_iff : hostsEntry line = some (addr, d) ↔
    ∃ text, IsHostsLine line addr text ∧ d.octets = withDot text := by
  rw [hostsEntry]
  have hzero : ∀ c ∈ line.takeWhile (· ≠ 0), c ≠ 0 := fun c hc => by
    simpa using List.mem_takeWhile_imp hc
  generalize hs : line.takeWhile (· ≠ 0) = s at hzero ⊢
  constructor
  · intro h
    split_ifs at h with hhead
    simp only [Option.bind_eq_bind, Option.bind_eq_some_iff] at h
    obtain ⟨⟨ip, rest⟩, hip, ⟨text, rest'⟩, hdomain, addr', haddr, h⟩ := h
    obtain ⟨rfl, rfl⟩ := Prod.mk.inj (Option.some.inj h)
    obtain rfl := inetPton_iff.mp haddr
    obtain ⟨-, pre, tail, rfl, hpre, htail, rfl⟩ := strtok_iff.mp hip
    obtain ⟨htext, pre', tail', hrest, hpre', htail', -⟩ := strtok_iff.mp hdomain
    -- the second token stands behind a delimiter
    obtain ⟨c, tail, rfl⟩ : ∃ c cs, tail = c :: cs := by
      apply List.exists_cons_of_ne_nil
      rintro rfl
      simp [htext.1] at hrest
    obtain rfl : tail = pre' ++ text ++ tail' := hrest
    have hc : isDelimiter c := htail c rfl
    refine ⟨text, ⟨htext, pre, c :: pre', tail', ?_, hpre, ?_, by simp, ?_, htail'⟩, ?_⟩
    · rw [hs]
      simp
    · rintro hnew
      obtain ⟨cs, rfl⟩ := List.head?_eq_some_iff.mp hnew
      exact hhead rfl
    · exact List.forall_mem_cons.mpr ⟨hc, hpre'⟩
    · exact ofBlock_octets_of_ne_zero (withDot_ne_zero fun x hx => hzero x (by simp [hx]))
  · rintro ⟨text, ⟨htext, pre, sep, tail, hline, hpre, hnew, hne, hsep, htail⟩, hd⟩
    obtain rfl : s = pre ++ addr.text ++ sep ++ text ++ tail := hs.symm.trans hline
    obtain ⟨c, sep, rfl⟩ := List.exists_cons_of_ne_nil hne
    have hc : isDelimiter c := hsep c List.mem_cons_self
    have hip : strtok (pre ++ addr.text ++ c :: sep ++ text ++ tail) =
        some (addr.text, sep ++ text ++ tail) := by
      refine strtok_iff.mpr ⟨addr.text_isToken, pre, c :: (sep ++ text ++ tail), by simp, hpre, ?_,
        rfl⟩
      rintro x ⟨⟩
      exact hc
    have hdomain : strtok (sep ++ text ++ tail) = some (text, tail.tail) :=
      strtok_iff.mpr ⟨htext, sep, tail, rfl, fun x hx => hsep x (List.mem_cons_of_mem c hx), htail,
        rfl⟩
    have hhead : (pre ++ addr.text ++ c :: sep ++ text ++ tail).headD newline ≠ newline := by
      cases pre with
      | nil =>
        obtain ⟨x, xs, hx⟩ := List.exists_cons_of_ne_nil addr.text_isToken.1
        have hdelim := addr.text_isToken.2 x (by rw [hx]; exact List.mem_cons_self)
        rw [hx]
        rintro rfl
        cases hdelim
      | cons x pre => exact fun h => hnew (congrArg some h)
    have htext₀ : ∀ x ∈ text, x ≠ 0 := fun x hx => hzero x (by simp [hx])
    simp only [if_neg hhead, hip, hdomain, inetPton_iff.mpr rfl, Option.bind_eq_bind,
      Option.bind_some]
    have hoctets := ofBlock_octets_of_ne_zero (withDot_ne_zero htext₀)
    rw [withDot] at hoctets hd
    exact congrArg some (Prod.ext rfl (CString.ext (hoctets.trans hd.symm)))

/-! ## Files -/

/-- The line of an entry, with its newline. -/
def hostsText (es : List (InAddr × CString)) : List UInt8 :=
  es.flatMap fun e => e.1.text ++ 32 :: e.2.octets ++ [newline]

/-- **An entry that can be written**: its domain is a token with a final dot, and its line fits into
the buffer of the loop. -/
structure IsHostsEntry (e : InAddr × CString) : Prop where
  token : IsToken e.2.octets
  dotted : e.2.octets.getLast? = some dot
  short : (e.1.text ++ 32 :: e.2.octets).length < 511

/-- **The entries of a file are read back** in their order. -/
theorem hostsEntries_hostsText (hes : ∀ e ∈ es, IsHostsEntry e) :
    hostsEntries (hostsText es) = es := by
  rw [hostsEntries]
  induction es with
  | nil => rfl
  | cons e es ih =>
    obtain ⟨htoken, hdot, hshort⟩ := hes e List.mem_cons_self
    have ih := ih fun e' he' => hes e' (List.mem_cons_of_mem e he')
    have hdelim : isDelimiter newline = true := rfl
    have hnew : newline ∉ e.1.text ++ 32 :: e.2.octets := by
      intro hmem
      rcases List.mem_append.mp hmem with hmem | hmem
      · cases hdelim.symm.trans (e.1.text_isToken.2 _ hmem)
      · rcases List.mem_cons.mp hmem with h | hmem
        · cases h
        · cases hdelim.symm.trans (htoken.2 _ hmem)
    have hlines : fgetsLines 511 (hostsText (e :: es)) =
        (e.1.text ++ 32 :: e.2.octets ++ [newline]) :: fgetsLines 511 (hostsText es) := by
      rw [hostsText, List.flatMap_cons, List.append_assoc, List.singleton_append,
        fgetsLines_line hnew hshort]
      rfl
    have hentry : hostsEntry (e.1.text ++ 32 :: e.2.octets ++ [newline]) = some e := by
      refine hostsEntry_iff.mpr ⟨e.2.octets, ⟨htoken, [], [32], [newline], ?_, ?_⟩, ?_⟩
      · refine (List.takeWhile_eq_self_iff.mpr fun c hc => decide_eq_true ?_).trans (by simp)
        rintro rfl
        simp only [List.mem_append, List.mem_cons, List.not_mem_nil, or_false] at hc
        rcases hc with (hc | hc | hc) | hc
        · exact e.1.zero_notMem_text hc
        · cases hc
        · exact e.2.zero_notMem hc
        · cases hc
      · refine ⟨fun c hc => absurd hc List.not_mem_nil, by simp, by simp, fun c hc => ?_,
          fun c hc => ?_⟩
        · rw [List.mem_singleton.mp hc]
          rfl
        · cases hc
          rfl
      · rw [withDot, if_pos hdot]
    rw [hlines, List.filterMap_cons_some hentry, ih]

/-- **A file is loaded as its entries**: reading what was written inserts the entries in their
order. -/
theorem readHostsFile_hostsText (hes : ∀ e ∈ es, IsHostsEntry e) (c : Cache) :
    readHostsFile c (hostsText es) = es.foldlM (fun c e => insertHostsEntry c e.1 e.2) c := by
  rw [readHostsFile_eq, hostsEntries_hostsText hes]

theorem readHostsFile_hostsText_address :
    readHostsFile .init (hostsText [(⟨10, 3, 9, 44⟩, .ofBlock (ascii "a.b.")),
        (⟨0, 0, 0, 0⟩, .ofBlock (ascii "c.d."))]) =
      insertHostsEntry .init ⟨10, 3, 9, 44⟩ (.ofBlock (ascii "a.b.")) >>= fun c =>
        insertHostsEntry c ⟨0, 0, 0, 0⟩ (.ofBlock (ascii "c.d.")) := by
  refine (readHostsFile_hostsText (fun e he => ?_) .init).trans
    (congrArg _ (funext fun c => bind_pure _))
  obtain rfl | he := List.mem_cons.mp he
  · exact ⟨⟨by decide, by decide⟩, by decide, by decide⟩
  · rw [List.mem_singleton.mp he]
    exact ⟨⟨by decide, by decide⟩, by decide, by decide⟩

end Adrift
