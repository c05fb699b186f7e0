import Adrift.Ds.RecordList

/-!
# The trie

`ds/trie.h`: keys are walked from their last octet, a child for every octet value from 33 on.

## Main definitions

* `TrieNode`: a node, its list and its 95 children
* `trieInsert`, `trieFind`, `trieDelete`: the operations
* `TrieNode.Has t k l`: the trie holds the list `l` under the key `k`

## Main results

* `trieFind_spec`: a lookup finds what the trie holds under a key of indexable octets
* `trieInsert_cases`, `trieInsert_ok`: an insert pushes onto the list of the key, or onto a fresh
  list, and leaves the other keys alone
* `trieDelete_cases`: a deletion frees the list of the key, and leaves the other keys alone
-/

namespace Adrift

open Outcome

/-- `TrieNode`. -/
inductive TrieNode
  | node (data : Option ℕ) (child : Fin 95 → Option TrieNode)

/-- `trie_node_ctor`. -/
def trieNodeCtor : TrieNode := .node none fun _ => none

/-- `*end - 33` as an index of `child`. -/
def childIndex (c : UInt8) : Except Fault (Fin 95) :=
  if h : 33 ≤ c.toNat ∧ c.toNat - 33 < 95 then .ok ⟨c.toNat - 33, h.2⟩
  else .error .childOutOfRange

/-- `trie_insert` from a node on, `path` being the octets still to be walked, the last octet of
the key first. -/
def trieInsertFrom (h : Heap) (p : ℕ) :
    List UInt8 → TrieNode → Except Fault (Heap × TrieNode)
  | [], .node data child => do
    let (h, l) := match data with
      | none => listCtor h
      | some l => (h, l)
    let h ← listPushBack h l p
    return (h, .node (some l) child)
  | c :: path, .node data child => do
    -- a missing node on the way is allocated
    let i ← childIndex c
    let (h, t) ← trieInsertFrom h p path ((child i).getD trieNodeCtor)
    return (h, .node data (Function.update child i (some t)))

/-- `trie_insert`. -/
def trieInsert (h : Heap) (trie : TrieNode) (key : CString) (p : ℕ) :
    Except Fault (Heap × TrieNode) :=
  trieInsertFrom h p key.octets.reverse trie

/-- `trie_find` from a node on. -/
def trieFindFrom : List UInt8 → TrieNode → Except Fault (Option ℕ)
  | [], .node data _ => .ok data
  | c :: path, .node _ child => do
    let i ← childIndex c
    match child i with
    | none => return none
    | some t => trieFindFrom path t

/-- `trie_find`. -/
def trieFind (trie : TrieNode) (key : CString) : Except Fault (Option ℕ) :=
  trieFindFrom key.octets.reverse trie

/-- `trie_delete` from a node on. -/
def trieDeleteFrom (h : Heap) : List UInt8 → TrieNode → Except Fault (Heap × TrieNode)
  | [], .node data child => do
    let h ← listDtor h data
    -- the node stays, and so does the path to it
    return (h, .node none child)
  | c :: path, .node data child => do
    let i ← childIndex c
    match child i with
    | none => return (h, .node data child)
    | some t =>
      let (h, t) ← trieDeleteFrom h path t
      return (h, .node data (Function.update child i (some t)))

/-- `trie_delete`. -/
def trieDelete (h : Heap) (trie : TrieNode) (key : CString) : Except Fault (Heap × TrieNode) :=
  trieDeleteFrom h key.octets.reverse trie

/-! ## Children -/

/-- An octet with a child of its own. -/
def IsTrieOctet (c : UInt8) : Prop := 33 ≤ c.toNat ∧ c.toNat ≤ 127

instance : DecidablePred IsTrieOctet := fun c => by
  unfold IsTrieOctet
  infer_instance

theorem childIndex_eq_ok {c : UInt8} {i : Fin 95} :
    childIndex c = .ok i ↔ c.toNat = i + 33 := by
  unfold childIndex
  split_ifs with h
  · rw [Except.ok.injEq, Fin.ext_iff]
    simp only
    omega
  · simp only [false_iff]
    omega

theorem childIndex_injective {c d : UInt8} {i : Fin 95} (hc : childIndex c = .ok i)
    (hd : childIndex d = .ok i) : c = d :=
  UInt8.toNat_inj.mp ((childIndex_eq_ok.mp hc).trans (childIndex_eq_ok.mp hd).symm)

theorem IsTrieOctet.childIndex {c : UInt8} (hc : IsTrieOctet c) :
    ∃ i, childIndex c = .ok i := by
  obtain ⟨h₁, h₂⟩ := hc
  exact ⟨⟨c.toNat - 33, by omega⟩, childIndex_eq_ok.mpr (by simp only; omega)⟩

theorem childIndex_isTrieOctet {c : UInt8} {i : Fin 95} (hc : childIndex c = .ok i) :
    IsTrieOctet c := by
  have := childIndex_eq_ok.mp hc
  unfold IsTrieOctet
  omega

theorem childIndex_eq_error {c : UInt8} :
    childIndex c = .error .childOutOfRange ↔ ¬IsTrieOctet c := by
  unfold childIndex IsTrieOctet
  split_ifs with h
  · simp only [false_iff, not_not]
    omega
  · simp only [true_iff]
    omega

/-- A missing child holds no more than a fresh node. -/
theorem trieFindFrom_ctor (path : List UInt8) (l : ℕ) :
    trieFindFrom path trieNodeCtor ≠ .ok (some l) := by
  cases path with
  | nil => simp [trieNodeCtor, trieFindFrom]
  | cons c path =>
    rw [trieNodeCtor, trieFindFrom]
    intro h
    obtain ⟨i, -, h⟩ := bind_eq_ok.mp h
    simp at h

theorem trieFindFrom_cons {c : UInt8} {i : Fin 95} (hc : childIndex c = .ok i)
    (path : List UInt8) (data : Option ℕ) (child : Fin 95 → Option TrieNode) (l : ℕ) :
    trieFindFrom (c :: path) (.node data child) = .ok (some l) ↔
      trieFindFrom path ((child i).getD trieNodeCtor) = .ok (some l) := by
  rw [trieFindFrom, hc, ok_bind]
  cases child i with
  | none => exact iff_of_false (by simp) (trieFindFrom_ctor path l)
  | some t => rfl

/-- **A changed child** is on the way of the keys with its octet only. -/
theorem trieFindFrom_update {c : UInt8} {i : Fin 95} (hc : childIndex c = .ok i)
    (data : Option ℕ) (child : Fin 95 → Option TrieNode) (t : TrieNode) (d : UInt8)
    (path : List UInt8) (l : ℕ) :
    trieFindFrom (d :: path) (.node data (Function.update child i (some t))) = .ok (some l) ↔
      if d = c then trieFindFrom path t = .ok (some l)
      else trieFindFrom (d :: path) (.node data child) = .ok (some l) := by
  rcases hd : childIndex d with e | j
  · have hne : d ≠ c := fun e => by simp [e, hc] at hd
    simp [trieFindFrom, hd, hne]
  · rw [trieFindFrom_cons hd, trieFindFrom_cons hd]
    by_cases hij : j = i
    · subst hij
      obtain rfl := childIndex_injective hd hc
      simp
    · have hne : d ≠ c := fun e => hij (Except.ok.inj (hd.symm.trans (e ▸ hc)))
      simp [Function.update_of_ne hij, hne]

/-! ## Lookups and inserts -/

/-- The list `l` stands under the key `k`. -/
def TrieNode.Has (trie : TrieNode) (k : CString) (l : ℕ) : Prop := trieFind trie k = .ok (some l)

theorem trieNodeCtor_has (k : CString) (l : ℕ) : ¬ trieNodeCtor.Has k l :=
  trieFindFrom_ctor _ l

theorem trieFindFrom_ok {path : List UInt8} (hp : ∀ c ∈ path, IsTrieOctet c) (t : TrieNode) :
    ∃ r, trieFindFrom path t = .ok r := by
  induction path generalizing t with
  | nil =>
    obtain ⟨data, child⟩ := t
    exact ⟨data, rfl⟩
  | cons c path ih =>
    obtain ⟨data, child⟩ := t
    obtain ⟨i, hi⟩ := (hp c List.mem_cons_self).childIndex
    rw [trieFindFrom, hi, ok_bind]
    cases child i with
    | none => exact ⟨none, rfl⟩
    | some t => exact ih (fun c hc => hp c (List.mem_cons_of_mem _ hc)) t

theorem trieFindFrom_octets {path : List UInt8} {t : TrieNode} {l : ℕ}
    (hf : trieFindFrom path t = .ok (some l)) : ∀ c ∈ path, IsTrieOctet c := by
  induction path generalizing t with
  | nil => simp
  | cons c path ih =>
    obtain ⟨data, child⟩ := t
    rw [trieFindFrom] at hf
    obtain ⟨i, hi, hf⟩ := bind_eq_ok.mp hf
    refine List.forall_mem_cons.mpr ⟨childIndex_isTrieOctet hi, ?_⟩
    cases hc : child i with
    | none => simp [hc] at hf
    | some t =>
      rw [hc] at hf
      exact ih hf

theorem trieFind_octets {trie : TrieNode} {k : CString} {l : ℕ}
    (hf : trieFind trie k = .ok (some l)) : ∀ c ∈ k.octets, IsTrieOctet c :=
  fun c hc => trieFindFrom_octets hf c (List.mem_reverse.mpr hc)

/-- **A lookup finds what the trie holds** under a key of indexable octets. -/
theorem trieFind_spec (trie : TrieNode) {k : CString} (hk : ∀ c ∈ k.octets, IsTrieOctet c) :
    ∃ r, trieFind trie k = .ok r ∧ ∀ l, r = some l ↔ trie.Has k l := by
  obtain ⟨r, hr⟩ := trieFindFrom_ok (fun c hc => hk c (List.mem_reverse.mp hc)) trie
  exact ⟨r, hr, fun l => by rw [TrieNode.Has, trieFind, hr, Except.ok.injEq]⟩

theorem trieInsertFrom_cases {h h' : Heap} {p : ℕ} {path : List UInt8} {t t' : TrieNode}
    (hr : trieInsertFrom h p path t = .ok (h', t')) :
    ∃ l, (∀ path' l', trieFindFrom path' t' = .ok (some l') ↔
        trieFindFrom path' t = .ok (some l') ∧ path' ≠ path ∨ path' = path ∧ l' = l) ∧
      (trieFindFrom path t = .ok (some l) ∧ listPushBack h l p = .ok h' ∨
        (∀ l, trieFindFrom path t ≠ .ok (some l)) ∧ l = (listCtor h).2 ∧
          listPushBack (listCtor h).1 l p = .ok h') ∧ ∀ c ∈ path, IsTrieOctet c := by
  induction path generalizing t t' with
  | nil =>
    obtain ⟨data, child⟩ := t
    -- at the end of the key only the data of the node changes
    have hfind : ∀ l path' l',
        trieFindFrom path' (.node (some l) child) = .ok (some l') ↔
          trieFindFrom path' (.node data child) = .ok (some l') ∧ path' ≠ [] ∨
            path' = [] ∧ l' = l := by
      intro l path' l'
      cases path' with
      | nil => simp [trieFindFrom, eq_comm]
      | cons c path' => simp [trieFindFrom]
    cases data with
    | none =>
      rw [trieInsertFrom] at hr
      obtain ⟨_, hp, hr⟩ := bind_eq_ok.mp hr
      cases hr
      exact ⟨_, hfind _, .inr ⟨fun l => by simp [trieFindFrom], rfl, hp⟩, by simp⟩
    | some l =>
      rw [trieInsertFrom] at hr
      obtain ⟨_, hp, hr⟩ := bind_eq_ok.mp hr
      cases hr
      exact ⟨l, hfind l, .inl ⟨rfl, hp⟩, by simp⟩
  | cons c path ih =>
    obtain ⟨data, child⟩ := t
    rw [trieInsertFrom] at hr
    obtain ⟨i, hi, hr⟩ := bind_eq_ok.mp hr
    obtain ⟨⟨h₁, t₁⟩, hins, hr⟩ := bind_eq_ok.mp hr
    cases hr
    obtain ⟨l, hfind, hpush, hpath⟩ := ih hins
    simp only [ne_eq, ← trieFindFrom_cons hi path data child] at hpush
    refine ⟨l, fun path' l' => ?_, hpush, ?_⟩
    · rcases path' with _ | ⟨d, path'⟩
      · simp [trieFindFrom]
      · -- another key goes through the changed child only with the same first octet
        rw [trieFindFrom_update hi]
        split_ifs with hd
        · subst hd
          simp [hfind, trieFindFrom_cons hi]
        · simp [hd]
    · rintro d (_ | ⟨_, hd⟩)
      · exact childIndex_isTrieOctet hi
      · exact hpath d hd

/-- **An insert under a key with a list** changes no node of the trie. -/
theorem trieInsertFrom_found {h h' : Heap} {p l : ℕ} {path : List UInt8} {t t' : TrieNode}
    (hf : trieFindFrom path t = .ok (some l)) (hr : trieInsertFrom h p path t = .ok (h', t')) :
    t' = t := by
  induction path generalizing t t' with
  | nil =>
    obtain ⟨data, child⟩ := t
    obtain rfl : data = some l := Except.ok.inj hf
    rw [trieInsertFrom] at hr
    obtain ⟨_, -, hr⟩ := bind_eq_ok.mp hr
    cases hr
    rfl
  | cons c path ih =>
    obtain ⟨data, child⟩ := t
    rw [trieInsertFrom] at hr
    obtain ⟨i, hi, hr⟩ := bind_eq_ok.mp hr
    obtain ⟨⟨h₁, t₁⟩, hins, hr⟩ := bind_eq_ok.mp hr
    cases hr
    simp only [trieFindFrom, hi, ok_bind] at hf
    cases hchild : child i with
    | none => simp [hchild] at hf
    | some t₀ =>
      rw [hchild] at hf hins
      rw [ih hf hins, ← hchild, Function.update_eq_self]

/-- **An insert walks the whole key**: it leaves the children at an octet without one. -/
theorem trieInsertFrom_childOutOfRange {h : Heap} {p : ℕ} {path : List UInt8} {t : TrieNode} :
    trieInsertFrom h p path t = .error .childOutOfRange ↔ ∃ c ∈ path, ¬IsTrieOctet c := by
  induction path generalizing t with
  | nil =>
    obtain ⟨data, child⟩ := t
    cases data <;> simp [trieInsertFrom, bind_eq_error, listPushBack_ne_childOutOfRange]
  | cons c path ih =>
    obtain ⟨data, child⟩ := t
    rw [trieInsertFrom, bind_eq_error, childIndex_eq_error]
    by_cases hc : IsTrieOctet c
    · obtain ⟨i, hi⟩ := hc.childIndex
      simp [hi, hc, bind_eq_error, ih]
    · simp [hc]

/-- **What an insert does**: it pushes onto the list of the key, or onto a fresh one, and leaves
the other keys alone. -/
theorem trieInsert_cases {h h' : Heap} {trie trie' : TrieNode} {k : CString} {p : ℕ}
    (hr : trieInsert h trie k p = .ok (h', trie')) :
    ∃ l, (∀ k' l', trie'.Has k' l' ↔ trie.Has k' l' ∧ k' ≠ k ∨ k' = k ∧ l' = l) ∧
      (trie.Has k l ∧ listPushBack h l p = .ok h' ∨
        (∀ l, ¬ trie.Has k l) ∧ l = (listCtor h).2 ∧
          listPushBack (listCtor h).1 l p = .ok h') ∧ ∀ c ∈ k.octets, IsTrieOctet c := by
  obtain ⟨l, hfind, hpush, hpath⟩ := trieInsertFrom_cases hr
  refine ⟨l, fun k' l' => ?_, hpush, fun c hc => hpath c (List.mem_reverse.mpr hc)⟩
  rw [TrieNode.Has, trieFind, hfind]
  simp only [ne_eq, List.reverse_inj, ← CString.ext_iff]
  rfl

theorem trieInsertFrom_ok {h : Heap} {p : ℕ} {path : List UInt8} {t : TrieNode}
    (hp : ∀ c ∈ path, IsTrieOctet c)
    (hold : ∀ l, trieFindFrom path t = .ok (some l) → ∃ h', listPushBack h l p = .ok h')
    (hnew : ∃ h', listPushBack (listCtor h).1 (listCtor h).2 p = .ok h') :
    ∃ h' t', trieInsertFrom h p path t = .ok (h', t') := by
  induction path generalizing t with
  | nil =>
    obtain ⟨data, child⟩ := t
    cases data with
    | none =>
      obtain ⟨h', hp⟩ := hnew
      exact ⟨h', _, by rw [trieInsertFrom]; simp only [hp]; rfl⟩
    | some l =>
      obtain ⟨h', hp⟩ := hold l rfl
      exact ⟨h', _, by rw [trieInsertFrom]; simp only [hp]; rfl⟩
  | cons c path ih =>
    obtain ⟨data, child⟩ := t
    obtain ⟨i, hi⟩ := (hp c List.mem_cons_self).childIndex
    obtain ⟨h', t', ht⟩ := ih (t := (child i).getD trieNodeCtor)
      (fun c hc => hp c (List.mem_cons_of_mem _ hc))
      fun l hl => hold l ((trieFindFrom_cons hi path data child l).mpr hl)
    exact ⟨h', _, by rw [trieInsertFrom, hi, ok_bind, ht]; rfl⟩

/-- **An insert succeeds** under a key of indexable octets when the push does. -/
theorem trieInsert_ok {h : Heap} {trie : TrieNode} {k : CString} {p : ℕ}
    (hk : ∀ c ∈ k.octets, IsTrieOctet c)
    (hold : ∀ l, trie.Has k l → ∃ h', listPushBack h l p = .ok h')
    (hnew : ∃ h', listPushBack (listCtor h).1 (listCtor h).2 p = .ok h') :
    ∃ h' trie', trieInsert h trie k p = .ok (h', trie') :=
  trieInsertFrom_ok (fun c hc => hk c (List.mem_reverse.mp hc)) hold hnew

/-! ## Deletions -/

theorem trieDeleteFrom_cases {h : Heap} {path : List UInt8} {t : TrieNode}
    (hp : ∀ c ∈ path, IsTrieOctet c)
    (hold : ∀ l, trieFindFrom path t = .ok (some l) → ∃ h', listDtor h (some l) = .ok h') :
    ∃ h' t', trieDeleteFrom h path t = .ok (h', t') ∧
      (∀ path' l', trieFindFrom path' t' = .ok (some l') ↔
        trieFindFrom path' t = .ok (some l') ∧ path' ≠ path) ∧
      ((∃ l, trieFindFrom path t = .ok (some l) ∧ listDtor h (some l) = .ok h') ∨
        (∀ l, trieFindFrom path t ≠ .ok (some l)) ∧ h' = h) := by
  induction path generalizing t with
  | nil =>
    obtain ⟨data, child⟩ := t
    have hfind : ∀ path' l', trieFindFrom path' (.node none child) = .ok (some l') ↔
        trieFindFrom path' (.node data child) = .ok (some l') ∧ path' ≠ [] := by
      intro path' l'
      cases path' <;> simp [trieFindFrom]
    cases data with
    | none => exact ⟨h, _, rfl, hfind, .inr ⟨by simp [trieFindFrom], rfl⟩⟩
    | some l =>
      obtain ⟨h', hd⟩ := hold l rfl
      exact ⟨h', _, by rw [trieDeleteFrom, hd]; rfl, hfind, .inl ⟨l, rfl, hd⟩⟩
  | cons c path ih =>
    obtain ⟨data, child⟩ := t
    obtain ⟨i, hi⟩ := (hp c List.mem_cons_self).childIndex
    rw [trieDeleteFrom, hi, ok_bind]
    cases hchild : child i with
    | none =>
      -- the path ends before the key
      have hnone : ∀ l, trieFindFrom (c :: path) (.node data child) ≠ .ok (some l) := by
        intro l
        simp [trieFindFrom, hi, hchild]
      refine ⟨h, _, rfl, fun path' l' => ⟨fun hf => ⟨hf, ?_⟩, fun hf => hf.1⟩, .inr ⟨hnone, rfl⟩⟩
      rintro rfl
      exact hnone l' hf
    | some t =>
      have hsome : ∀ l, trieFindFrom (c :: path) (.node data child) = .ok (some l) ↔
          trieFindFrom path t = .ok (some l) := by
        intro l
        rw [trieFindFrom_cons hi, hchild, Option.getD_some]
      obtain ⟨h', t', hr, hfind, hcases⟩ := ih (fun c hc => hp c (List.mem_cons_of_mem _ hc))
        fun l hl => hold l ((hsome l).mpr hl)
      refine ⟨h', _, by simp only [hr]; rfl, fun path' l' => ?_, ?_⟩
      · rcases path' with _ | ⟨d, path'⟩
        · simp [trieFindFrom]
        · rw [trieFindFrom_update hi]
          split_ifs with hd
          · subst hd
            simp [hfind, trieFindFrom_cons hi, hchild]
          · simp [hd]
      · simpa only [ne_eq, hsome] using hcases

/-- **A deletion** frees the list of the key, and leaves the other keys alone. -/
theorem trieDelete_cases {h : Heap} {trie : TrieNode} {k : CString}
    (hk : ∀ c ∈ k.octets, IsTrieOctet c)
    (hold : ∀ l, trie.Has k l → ∃ h', listDtor h (some l) = .ok h') :
    ∃ h' trie', trieDelete h trie k = .ok (h', trie') ∧
      (∀ k' l', trie'.Has k' l' ↔ trie.Has k' l' ∧ k' ≠ k) ∧
      ((∃ l, trie.Has k l ∧ listDtor h (some l) = .ok h') ∨
        (∀ l, ¬ trie.Has k l) ∧ h' = h) := by
  obtain ⟨h', trie', hr, hfind, hcases⟩ :=
    trieDeleteFrom_cases (fun c hc => hk c (List.mem_reverse.mp hc)) hold
  refine ⟨h', trie', hr, fun k' l' => ?_, hcases⟩
  rw [TrieNode.Has, trieFind, hfind]
  simp only [ne_eq, List.reverse_inj, ← CString.ext_iff]
  rfl

end Adrift
