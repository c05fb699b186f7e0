import Adrift.Hosts
import Adrift.Protocol.CacheInvariant
import Adrift.Protocol.Handle

/-!
# What the hosts file leaves

A domain beside the zero address has one node on its three lists: the lists meet in the node of
its last zero entry, and nothing in front of that node ever expires.

## Main definitions

* `hostsEntries`, `IsBlocked`: the entries of a file, and the domains beside the zero address
* `Zeroed c d`: the lists of `d` meet in a zero node
* `LoadInv`: the invariant of the loading loop

## Main results

* `readHostsFile_zeroed`: the lists of a blocked domain meet in a zero node after the load
-/

namespace Adrift

open Outcome

/-! ## Entries -/

/-- The addresses and domains of a hosts file. -/
def hostsEntries (file : List UInt8) : List (InAddr × CString) :=
  (fgetsLines 511 file).filterMap hostsEntry

theorem readHostsFile_eq (c : Cache) (file : List UInt8) : readHostsFile c file =
    (hostsEntries file).foldlM (fun c e => insertHostsEntry c e.1 e.2) c := by
  rw [readHostsFile, hostsEntries]
  induction fgetsLines 511 file generalizing c with
  | nil => rfl
  | cons line lines ih =>
    rw [List.foldlM_cons, readHostsLine]
    cases he : hostsEntry line with
    | none => simp only [List.filterMap_cons_none he, ok_bind, ih]
    | some e => simp only [List.filterMap_cons_some he, List.foldlM_cons, ih]

/-- The zero address. -/
def zeroAddr : InAddr := ⟨0, 0, 0, 0⟩

/-- **A blocked domain** stands beside the zero address, and the guard of the cache lets it
pass. -/
def IsBlocked (file : List UInt8) (d : CString) : Prop :=
  (zeroAddr, d) ∈ hostsEntries file ∧ invalidKey d = false

/-- The node of a hosts entry. -/
def hostsNode (addr : InAddr) (d : CString) : ListNode := .ofInfo (hostsRecord addr d) .answer 0 0

theorem hostsNode_isZero (d : CString) : (hostsNode zeroAddr d).isZero = true := by
  simp [ListNode.isZero, hostsNode, ListNode.ofInfo, hostsRecord, InAddr.octets, zeroAddr]

/-! ## The lists of one domain -/

/-- Following the links from the head of the list reaches `x`. -/
def Heap.Reaches (h : Heap) (list : RecordList) (x : ℕ) : Prop :=
  ∃ front, LinkPath h.next list.head front (some x)

/-- **The lists of `d` meet in a zero node**, which is the tail of two of them, and the tail of
the IPv4 list follows it. -/
def Zeroed (c : Cache) (d : CString) : Prop :=
  ∃ z v, (∃ n, c.heap.info z = some n ∧ n.isZero ∧ n.type = some .answer) ∧
    LinkPath c.heap.next (some z) (z :: v) none ∧
    ∀ t, ∃ l list x, c.Has t d l ∧ c.heap.list l = some list ∧ c.heap.Reaches list z ∧
      list.tail = some x ∧ if t = .ipv4 then ∃ ys, z :: v = ys ++ [x] else x = z

/-- No entry of `d` was beside the zero address. -/
structure Plain (c : Cache) (d : CString) : Prop where
  absent : ∀ {t l}, c.Has t d l → t = .ipv4
  tail : ∀ {l}, c.Has .ipv4 d l → c.heap.TailLast l

/-- The class of the list under a type and key: the key, with the type unless the node of a zero
entry stands on the lists of all types. -/
def classOf (es : List (InAddr × CString)) (t : CacheType) (k : CString) :
    Option CacheType × CString :=
  (if (zeroAddr, k) ∈ es then none else some t, k)

/-- **The invariant of the loading loop** over the entries `es`. -/
structure LoadInv (es : List (InAddr × CString)) (S : Set ℕ) (cls : ℕ → Option CacheType × CString)
    (c : Cache) : Prop where
  inv : c.Inv S
  cls : ClassInv (classOf es) cls c
  ttl : ∀ {x n}, c.heap.info x = some n → n.ttl = 0
  shared : ∀ {x}, x ∈ S → ∃ n, c.heap.info x = some n ∧ n.isZero

theorem LoadInv.keys {es : List (InAddr × CString)} {S : Set ℕ}
    {cls : ℕ → Option CacheType × CString} {c : Cache} (hL : LoadInv es S cls c) :
    ClassInv (fun _ k => k) (fun x => (cls x).2) c :=
  hL.cls.map Prod.snd

/-- What the lists of `d` are read from is the same in `c` and `c'`. -/
structure KeyFrame (cls : ℕ → CString) (d : CString) (c c' : Cache) : Prop where
  has : ∀ t l, c'.Has t d l ↔ c.Has t d l
  list : ∀ {t l}, c.Has t d l → c'.heap.list l = c.heap.list l
  next : ∀ {x}, cls x = d → (c.heap.node x).isSome → c'.heap.next x = c.heap.next x
  info : ∀ {x n}, c.heap.info x = some n → c'.heap.info x = some n

namespace KeyFrame

variable {cls : ℕ → CString} {d : CString} {c c' : Cache} {S : Set ℕ}

/-- A path through the nodes of `d` is kept. -/
theorem path (hF : KeyFrame cls d c c') (hI : c.Inv S) (hC : ClassInv (fun _ k => k) cls c)
    {o q : Option ℕ} {xs : List ℕ} (hp : LinkPath c.heap.next o xs q)
    (ho : ∀ x, o = some x → cls x = d ∧ (c.heap.node x).isSome) : LinkPath c'.heap.next o xs q :=
  hp.congr fun x hx => (hp.forall_mem (fun x _ => ho x) (fun _ _ _ _ hx hxy =>
    ⟨(hC.next hxy).trans hx.1, hI.heap.isSome_of_next hxy⟩) x hx).elim hF.next

theorem head (hI : c.Inv S) (hC : ClassInv (fun _ k => k) cls c) {t : CacheType} {l : ℕ}
    {list : RecordList} (hl : c.Has t d l) (hlist : c.heap.list l = some list) :
    ∀ x, list.head = some x → cls x = d ∧ (c.heap.node x).isSome := by
  intro x hx
  obtain ⟨s, m, hs, hm, -⟩ := hI.heap.head hlist
  obtain rfl := Option.some.inj (hx.symm.trans hs)
  exact ⟨hC.head hl hlist hx, Heap.isSome_of_info hm⟩

theorem plain (hF : KeyFrame cls d c c') (hI : c.Inv S) (hC : ClassInv (fun _ k => k) cls c)
    (hP : Plain c d) : Plain c' d where
  absent h := hP.absent ((hF.has _ _).mp h)
  tail {l} h := by
    have h := (hF.has _ _).mp h
    obtain ⟨list, ids, x, hlist, hx, list', hlist', hp, hlive⟩ := hP.tail h
    obtain rfl := Option.some.inj (hlist.symm.trans hlist')
    refine ⟨list, ids, x, (hF.list h).trans hlist, hx, list, (hF.list h).trans hlist,
      hF.path hI hC hp (head hI hC h hlist), fun i hi => ?_⟩
    obtain ⟨n, hn⟩ := Heap.exists_info (hlive i hi)
    exact Heap.isSome_of_info (hF.info hn)

theorem zeroed (hF : KeyFrame cls d c c') (hI : c.Inv S) (hC : ClassInv (fun _ k => k) cls c)
    (hZ : Zeroed c d) : Zeroed c' d := by
  obtain ⟨z, v, ⟨n, hn, hz⟩, hp, hlists⟩ := hZ
  have hzd : cls z = d ∧ (c.heap.node z).isSome := by
    obtain ⟨l, list, x, hl, hlist, -, hx, hxz⟩ := hlists .ipv6
    obtain rfl : x = z := hxz
    exact ⟨hC.tail hl hlist hx, Heap.isSome_of_info hn⟩
  refine ⟨z, v, ⟨n, hF.info hn, hz⟩, hF.path hI hC hp fun x hx => ?_, fun t => ?_⟩
  · rw [← Option.some.inj hx]
    exact hzd
  · obtain ⟨l, list, x, hl, hlist, ⟨front, hfront⟩, htail⟩ := hlists t
    exact ⟨l, list, x, (hF.has _ _).mpr hl, (hF.list hl).trans hlist,
      ⟨front, hF.path hI hC hfront (head hI hC hl hlist)⟩, htail⟩

/-- Allocating a record keeps all lists. -/
theorem alloc {n : ListNode} (hn : n.next = none) :
    KeyFrame cls d c (c.withHeap (c.heap.allocNode n)) where
  has _ _ := Iff.rfl
  list _ := rfl
  next _ _ := by rw [Cache.withHeap_heap, Heap.allocNode_next hn]
  info hm := by
    rw [Cache.withHeap_heap, Heap.allocNode_info,
      Function.update_of_ne (Heap.ne_nextNode_of_info hm), hm]

/-- **An insert under another key** keeps the lists of `d`. -/
theorem insert (hI : c.Inv S) (hC : ClassInv (fun _ k => k) cls c) {t : CacheType} {k : CString}
    {p : ℕ} (hkd : k ≠ d) (hr : cacheInsert c t k p = .ok c') : KeyFrame cls d c c' := by
  rcases cacheInsert_inserted hI.index hr with ⟨-, rfl⟩ | ⟨-, l, τ, hi⟩
  · exact ⟨fun _ _ => Iff.rfl, fun _ => rfl, fun _ _ => rfl, id⟩
  have hne : ∀ {t'}, (t', d) ≠ (t, k) := fun e => hkd (Prod.mk.inj e).2.symm
  refine ⟨fun t' l' => hi.has_other hne, fun h => hi.list (hi.ne hI.index h hne),
    fun {x} hx hlive => ?_, hi.info⟩
  have hτ : x ≠ τ := by
    rintro rfl
    rcases hi.tail_cases with ⟨list, hl, hlist, hτ⟩ | hτ
    · exact hkd ((hC.tail hl hlist hτ).symm.trans hx)
    · exact (Heap.lt_of_isSome hlive).ne hτ
  rw [hi.next, Function.update_of_ne hτ]

end KeyFrame

/-! ## Entries of one domain -/

variable {es : List (InAddr × CString)} {S : Set ℕ} {cls : ℕ → Option CacheType × CString}
  {c c' : Cache} {d : CString} {t : CacheType} {p : ℕ}

/-- The path to the tail, or already to `p`, from every list of `d`. -/
def TailReached (c : Cache) (d : CString) (p : ℕ) (t : CacheType) : Prop :=
  ∀ l, c.Has t d l → ∃ list x, c.heap.list l = some list ∧ list.tail = some x ∧ x ≠ p ∧
    (c.heap.Reaches list x ∨ c.heap.Reaches list p)

/-- The list of `d` has the tail `p`, and reaches it. -/
def EndsIn (c : Cache) (d : CString) (p : ℕ) (t : CacheType) : Prop :=
  ∃ l list, c.Has t d l ∧ c.heap.list l = some list ∧ list.tail = some p ∧ c.heap.Reaches list p

/-- Redirecting a cell to `p` redirects the paths through it. -/
theorem LinkPath.redirect {next next' : ℕ → Option ℕ} {o : Option ℕ} {xs : List ℕ} {x τ p : ℕ}
    (hp : LinkPath next o xs (some x)) (hτ : next' τ = some p)
    (hn : ∀ y, y ≠ τ → next' y = next y) :
    (∃ ys, LinkPath next' o ys (some x)) ∨ ∃ ys, LinkPath next' o ys (some p) := by
  induction xs generalizing o with
  | nil => exact .inl ⟨[], hp⟩
  | cons y xs ih =>
    obtain ⟨rfl, hp⟩ := hp
    by_cases hy : y = τ
    · exact .inr ⟨[y], rfl, hy ▸ hτ⟩
    · rcases ih hp with ⟨ys, h⟩ | ⟨ys, h⟩
      · exact .inl ⟨y :: ys, rfl, by rwa [hn y hy]⟩
      · exact .inr ⟨y :: ys, rfl, by rwa [hn y hy]⟩

theorem Inserted.reaches {k : CString} {l τ : ℕ} (hi : Inserted c t k p l τ c') {list : RecordList}
    {x : ℕ} (hr : c.heap.Reaches list x) :
    c'.heap.Reaches list x ∨ c'.heap.Reaches list p := by
  obtain ⟨front, hp⟩ := hr
  refine LinkPath.redirect hp (τ := τ) ?_ fun y hy => ?_
  · rw [hi.next, Function.update_self]
  · rw [hi.next, Function.update_of_ne hy]

/-- **One of the inserts of a zero entry**: its list ends in the node, and the other lists reach
their tail or the node. -/
theorem Inserted.endsIn {l τ : ℕ} (hi : Inserted c t d p l τ c') (hI : c.Inv S)
    (hT : TailReached c d p t) : EndsIn c' d p t ∧
      (∀ {t'}, t' ≠ t → TailReached c d p t' → TailReached c' d p t') ∧
      ∀ {t'}, t' ≠ t → EndsIn c d p t' → EndsIn c' d p t' := by
  have hne : ∀ {t'}, t' ≠ t → (t', d) ≠ (t, d) := fun hne e => hne (Prod.mk.inj e).1
  refine ⟨?_, fun {t'} htt hT' l' h => ?_, fun {t'} htt hE => ?_⟩
  · rcases hi.target with ⟨list, hl, hlist, hτ, hlist'⟩ | ⟨hn, rfl, rfl, hlist'⟩
    · obtain ⟨list₀, x, hlist₀, hx, hxp, hreach⟩ := hT _ hl
      obtain rfl := Option.some.inj (hlist.symm.trans hlist₀)
      obtain rfl := Option.some.inj (hτ.symm.trans hx)
      refine ⟨l, _, hi.has_self, hlist', rfl, ?_⟩
      have hp : c'.heap.Reaches list τ ∨ c'.heap.Reaches list p :=
        hreach.elim hi.reaches fun h => .inr ((hi.reaches h).elim id id)
      rcases hp with ⟨front, hp⟩ | hp
      · refine ⟨front ++ [τ], LinkPath.concat_iff.mpr ⟨hp, ?_⟩⟩
        rw [hi.next, Function.update_self]
      · exact hp
    · refine ⟨_, _, hi.has_self, hlist', rfl, [c.heap.nextNode], rfl, ?_⟩
      rw [hi.next, Function.update_self]
      rfl
  · have h := (hi.has_other (hne htt)).mp h
    obtain ⟨list, x, hlist, hx, hxp, hreach⟩ := hT' _ h
    refine ⟨list, x, (hi.list (hi.ne hI.index h (hne htt))).trans hlist, hx, hxp, ?_⟩
    exact hreach.elim hi.reaches fun h => .inr ((hi.reaches h).elim id id)
  · obtain ⟨l', list, h, hlist, hx, hreach⟩ := hE
    exact ⟨l', list, (hi.has_other (hne htt)).mpr h,
      (hi.list (hi.ne hI.index h (hne htt))).trans hlist, hx, (hi.reaches hreach).elim id id⟩

/-- The node pushed has no successor yet. -/
theorem Inserted.next_self {k : CString} {l τ : ℕ} (hi : Inserted c t k p l τ c')
    (hp : c.heap.next p = none) (hpl : p < c.heap.nextNode)
    (htail : ∀ {l list}, c.Has t k l → c.heap.list l = some list → list.tail ≠ some p) :
    c'.heap.next p = none := by
  have hτ : p ≠ τ := by
    rintro rfl
    rcases hi.tail_cases with ⟨list, hl, hlist, hτ⟩ | hτ
    · exact htail hl hlist hτ
    · exact hpl.ne hτ
  rw [hi.next, Function.update_of_ne hτ, hp]

theorem TailReached.tail_ne (hT : TailReached c d p t) {l : ℕ} {list : RecordList}
    (hl : c.Has t d l) (hlist : c.heap.list l = some list) : list.tail ≠ some p := by
  obtain ⟨list₀, x, hlist₀, hx, hxp, -⟩ := hT _ hl
  obtain rfl := Option.some.inj (hlist.symm.trans hlist₀)
  rw [hx]
  exact fun e => hxp (Option.some.inj e)

/-- Before an entry, every list of `d` reaches its tail. -/
theorem Plain.tailReached (hP : Plain c d) (hp : c.heap.Unlinked p) (t : CacheType) :
    TailReached c d p t := by
  intro l hl
  obtain rfl := hP.absent hl
  obtain ⟨list, ids, x, hlist, hx, list', hlist', hpath, -⟩ := hP.tail hl
  obtain rfl := Option.some.inj (hlist.symm.trans hlist')
  exact ⟨list, x, hlist, hx, fun e => hp.tail hlist (e ▸ hx),
    .inl ⟨ids, (LinkPath.append_cons_iff.mp hpath).1⟩⟩

theorem Zeroed.tailReached (hZ : Zeroed c d) (hI : c.Inv S) (hp : c.heap.Unlinked p)
    (t : CacheType) : TailReached c d p t := by
  intro l hl
  obtain ⟨z, v, -, hv, hlists⟩ := hZ
  obtain ⟨l', list, x, hl', hlist, ⟨front, hfront⟩, hx, hxz⟩ := hlists t
  obtain rfl := hI.index.has_unique hl hl'
  refine ⟨list, x, hlist, hx, fun e => hp.tail hlist (e ▸ hx), .inl ?_⟩
  split_ifs at hxz
  · obtain ⟨ys, hys⟩ := hxz
    rw [hys] at hv
    exact ⟨front ++ ys, LinkPath.append_iff.mpr ⟨_, hfront, (LinkPath.append_cons_iff.mp hv).1⟩⟩
  · exact ⟨front, hxz ▸ hfront⟩

namespace LoadInv

theorem init : LoadInv es ∅ (fun _ => classOf es .ipv4 ⟨[], by simp⟩) Cache.init where
  inv := .init
  cls := .init _
  ttl h := by cases h
  shared h := h.elim

/-- Allocating the node of an entry. -/
theorem alloc (hL : LoadInv es S cls c) (addr : InAddr) (d : CString) :
    LoadInv es S (Function.update cls c.heap.nextNode (classOf es .ipv4 d))
      (c.withHeap (c.heap.allocNode (hostsNode addr d))) where
  inv := hL.inv.alloc rfl rfl
  cls := hL.cls.alloc hL.inv rfl _
  ttl {x n} hn := by
    rw [Cache.withHeap_heap, Heap.allocNode_info] at hn
    by_cases hx : x = c.heap.nextNode
    · rw [hx, Function.update_self] at hn
      rw [← Option.some.inj hn]
      rfl
    · rw [Function.update_of_ne hx] at hn
      exact hL.ttl hn
  shared hx := by
    obtain ⟨n, hn, hz⟩ := hL.shared hx
    refine ⟨n, ?_, hz⟩
    rw [Cache.withHeap_heap, Heap.allocNode_info,
      Function.update_of_ne (Heap.ne_nextNode_of_info hn), hn]

theorem insert_ttl {k : CString} (hL : LoadInv es S cls c) (hr : cacheInsert c t k p = .ok c')
    {x : ℕ} {n : ListNode} (hn : c'.heap.info x = some n) : n.ttl = 0 := by
  rcases cacheInsert_inserted hL.inv.index hr with ⟨-, rfl⟩ | ⟨-, l, τ, hi⟩
  · exact hL.ttl hn
  obtain ⟨h₀, hpushed⟩ := hi.pushed
  rcases hpushed.info_cases hn with hn | ⟨-, -, rfl⟩
  · exact hL.ttl hn
  · rfl

theorem insert_shared_info {k : CString} (hL : LoadInv es S cls c)
    (hr : cacheInsert c t k p = .ok c') {x : ℕ} (hx : x ∈ S) :
    ∃ n, c'.heap.info x = some n ∧ n.isZero := by
  obtain ⟨n, hn, hz⟩ := hL.shared hx
  rcases cacheInsert_inserted hL.inv.index hr with ⟨-, rfl⟩ | ⟨-, l, τ, hi⟩
  · exact ⟨n, hn, hz⟩
  · exact ⟨n, hi.info hn, hz⟩

/-- Inserting a fresh node. -/
theorem insert {k : CString} (hL : LoadInv es S cls c) (hp : c.heap.Unlinked p)
    (hk : cls p = classOf es t k) (hr : cacheInsert c t k p = .ok c') :
    ∃ cls', LoadInv es S cls' c' := by
  obtain ⟨cls', hC, -⟩ := hL.cls.insert hL.inv hk (Heap.lt_of_isSome hp.isSome) hr
  exact ⟨cls', hL.inv.insert hp hr, hC, hL.insert_ttl hr, hL.insert_shared_info hr⟩

/-- Inserting a shared node. -/
theorem insert_shared {k : CString} {n : ListNode} (hL : LoadInv es S cls c) (hp : p ∈ S)
    (hn : c.heap.info p = some n) (hd : n.data.isSome) (hnext : c.heap.next p = none)
    (htail : ∀ {l list}, c.Has t k l → c.heap.list l = some list → list.tail ≠ some p)
    (hk : cls p = classOf es t k) (hr : cacheInsert c t k p = .ok c') :
    ∃ cls', LoadInv es S cls' c' ∧ cls' p = cls p := by
  have hlt := Heap.lt_of_isSome (Heap.isSome_of_info hn)
  obtain ⟨cls', hC, hcls⟩ := hL.cls.insert hL.inv hk hlt hr
  exact ⟨cls', ⟨hL.inv.insert_shared hp hn hd hnext htail hr, hC, hL.insert_ttl hr,
    hL.insert_shared_info hr⟩, hcls p hlt⟩

end LoadInv

/-- What the entries before left for `d` is kept. -/
def Kept (d : CString) (c c' : Cache) : Prop :=
  (Zeroed c d → Zeroed c' d) ∧ (Plain c d → Plain c' d)

theorem Kept.trans {c'' : Cache} (h : Kept d c c') (h' : Kept d c' c'') : Kept d c c'' :=
  ⟨h'.1 ∘ h.1, h'.2 ∘ h.2⟩

theorem KeyFrame.kept (hF : KeyFrame (fun x => (cls x).2) d c c') (hL : LoadInv es S cls c) :
    Kept d c c' :=
  ⟨hF.zeroed hL.inv hL.keys, hF.plain hL.inv hL.keys⟩

theorem LoadInv.kept {k : CString} (hL : LoadInv es S cls c) (hkd : k ≠ d)
    (hr : cacheInsert c t k p = .ok c') : Kept d c c' :=
  (KeyFrame.insert hL.inv hL.keys hkd hr).kept hL

/-- **The node `p` is inserted** under the domain `d`: the lists of the types `done` end in it, and
the other ones reach their tail or the node. -/
structure ZeroInserts (es : List (InAddr × CString)) (S : Set ℕ)
    (cls : ℕ → Option CacheType × CString) (n : ListNode) (d : CString) (p : ℕ)
    (done : CacheType → Prop) (c : Cache) : Prop where
  load : LoadInv es S cls c
  shared : p ∈ S
  info : c.heap.info p = some n
  next : c.heap.next p = none
  cls : ∀ t, cls p = classOf es t d
  ends : ∀ {t}, done t → EndsIn c d p t
  reached : ∀ {t}, ¬ done t → TailReached c d p t

/-- The inserts begin with a fresh node. -/
theorem LoadInv.zeroInserts {n : ListNode} (hL : LoadInv es S cls c) (hp : c.heap.Unlinked p)
    (hn : c.heap.info p = some n) (hz : n.isZero) (hk : cls p = classOf es .ipv4 d)
    (hmem : (zeroAddr, d) ∈ es) (hT : ∀ t, TailReached c d p t) :
    ZeroInserts es (Set.insert p S) cls n d p (fun _ => False) c where
  load := by
    refine ⟨hL.inv.share hn (hL.ttl hn), hL.cls, hL.ttl, fun {x} hx => ?_⟩
    rcases Set.mem_insert_iff.mp hx with rfl | hx
    · exact ⟨n, hn, hz⟩
    · exact hL.shared hx
  shared := Set.mem_insert _ _
  info := hn
  next := hp.next
  cls t := by simp [hk, classOf, hmem]
  ends h := h.elim
  reached _ := hT _

/-- **One of the inserts** of the node. -/
theorem ZeroInserts.insert {n : ListNode} {done : CacheType → Prop}
    (hZ : ZeroInserts es S cls n d p done c) (hz : n.isZero) (hd : invalidKey d = false)
    (ht : ¬ done t) (hr : cacheInsert c t d p = .ok c') :
    (∃ cls, ZeroInserts es S cls n d p (fun t' => done t' ∨ t' = t) c') ∧
      ∀ {d'}, d ≠ d' → Kept d' c c' := by
  have hdata := ListNode.isSome_of_isZero hz
  obtain ⟨l, τ, hi⟩ : ∃ l τ, Inserted c t d p l τ c' := by
    rcases cacheInsert_inserted hZ.load.inv.index hr with ⟨hv, -⟩ | ⟨-, hi⟩
    · rw [hd] at hv
      cases hv
    · exact hi
  have htail := hZ.reached ht
  obtain ⟨cls', hL, hcls⟩ := hZ.load.insert_shared hZ.shared hZ.info hdata hZ.next htail.tail_ne
    (hZ.cls t) hr
  -- the list of the type now ends in the node, and the lists of the others are as they were
  obtain ⟨hself, hother, hends⟩ := hi.endsIn hZ.load.inv htail
  have hlt := Heap.lt_of_isSome (Heap.isSome_of_info hZ.info)
  refine ⟨⟨cls', hL, hZ.shared, hi.info hZ.info, hi.next_self hZ.next hlt htail.tail_ne,
    fun t => hcls.trans (hZ.cls t), fun {t'} h => ?_, fun {t'} h => ?_⟩,
    fun hd => hZ.load.kept hd hr⟩
  · by_cases he : t' = t
    · exact he ▸ hself
    · exact hends he (hZ.ends (h.resolve_right he))
  · rw [not_or] at h
    exact hother h.2 (hZ.reached h.1)

/-- **The three inserts of a zero entry** make the lists of its domain meet in its node. -/
theorem zero_inserts {c₁ c₂ c₃ : Cache} {n : ListNode} (hL : LoadInv es S cls c)
    (hp : c.heap.Unlinked p) (hn : c.heap.info p = some n) (hz : n.isZero)
    (htype : n.type = some .answer) (hk : cls p = classOf es .ipv4 d)
    (hmem : (zeroAddr, d) ∈ es) (hd : invalidKey d = false) (hT : ∀ t, TailReached c d p t)
    (h₁ : cacheInsert c .ipv4 d p = .ok c₁) (h₂ : cacheInsert c₁ .ipv6 d p = .ok c₂)
    (h₃ : cacheInsert c₂ .cname d p = .ok c₃) :
    (∃ S cls, LoadInv es S cls c₃) ∧ Zeroed c₃ d ∧ ∀ {d'}, d ≠ d' → Kept d' c c₃ := by
  have hZ := hL.zeroInserts hp hn hz hk hmem hT
  obtain ⟨⟨cls₁, hZ₁⟩, hK₁⟩ := hZ.insert hz hd (by simp) h₁
  obtain ⟨⟨cls₂, hZ₂⟩, hK₂⟩ := hZ₁.insert hz hd (by simp) h₂
  obtain ⟨⟨cls₃, hZ₃⟩, hK₃⟩ := hZ₂.insert hz hd (by simp) h₃
  refine ⟨⟨_, _, hZ₃.load⟩, ⟨p, [], ⟨n, hZ₃.info, hz, htype⟩, ⟨rfl, hZ₃.next⟩, fun t => ?_⟩,
    fun hd => ((hK₁ hd).trans (hK₂ hd)).trans (hK₃ hd)⟩
  obtain ⟨l, list, hl, hlist, hx, hreach⟩ := hZ₃.ends (t := t) (by cases t <;> simp)
  refine ⟨l, list, p, hl, hlist, hreach, hx, ?_⟩
  split_ifs
  · exact ⟨[], rfl⟩
  · rfl

/-! ## The loading loop -/

/-- An address other than zero keeps the lists of its domain plain. -/
theorem Plain.insert (hP : Plain c d) (hI : c.Inv S) (hp : c.heap.Unlinked p)
    (hr : cacheInsert c .ipv4 d p = .ok c') : Plain c' d := by
  rcases cacheInsert_inserted hI.index hr with ⟨-, rfl⟩ | ⟨-, l, τ, hi⟩
  · exact hP
  refine ⟨fun {t l'} h => ?_, fun {l'} h => ?_⟩
  · rcases (hi.has _ _ _).mp h with ⟨h, -⟩ | ⟨ht, -⟩
    · exact hP.absent h
    · exact ht
  · obtain rfl := (cacheInsert_inv hI.index hr).has_unique hi.has_self h
    exact hi.tailLast hp fun l h => hP.tail h

/-- **An address other than zero** is put behind the zero node. -/
theorem Zeroed.insert (hZ : Zeroed c d) (hI : c.Inv S) (hp : c.heap.Unlinked p)
    (hr : cacheInsert c .ipv4 d p = .ok c') : Zeroed c' d := by
  rcases cacheInsert_inserted hI.index hr with ⟨-, rfl⟩ | ⟨-, l, τ, hi⟩
  · exact hZ
  obtain ⟨z, v, ⟨n, hn, hz⟩, hv, hlists⟩ := hZ
  -- the node is put behind the end of the path from the zero node
  obtain ⟨l₄, list₄, x₄, hl₄, hlist₄, -, hx₄, hzv⟩ := hlists .ipv4
  obtain ⟨ys, hys⟩ := if_pos rfl ▸ hzv
  obtain ⟨rfl, rfl, hlist'⟩ : l = l₄ ∧ x₄ = τ ∧
      c'.heap.list l = some { list₄ with tail := some p, size := list₄.size + 1 } := by
    rcases hi.target with ⟨list, hl, hlist, hτ, hlist'⟩ | ⟨hn, -⟩
    · obtain rfl := hI.index.has_unique hl hl₄
      obtain rfl := Option.some.inj (hlist.symm.trans hlist₄)
      exact ⟨rfl, Option.some.inj (hx₄.symm.trans hτ), hlist'⟩
    · exact absurd hl₄ (hn _)
  have htail : ∀ {l list}, c.Has .ipv4 d l → c.heap.list l = some list → list.tail ≠ some p :=
    fun _ hlist => hp.tail hlist
  have hp' := hi.next_self hp.next (Heap.lt_of_isSome hp.isSome) htail
  have hnext : ∀ y, y ≠ x₄ → c'.heap.next y = c.heap.next y := fun y hy => by
    rw [hi.next, Function.update_of_ne hy]
  have hv' : LinkPath c'.heap.next (some z) (z :: (v ++ [p])) none := by
    rw [← List.cons_append, hys, LinkPath.concat_iff]
    rw [hys] at hv
    have hd := (List.nodup_append.mp hv.nodup).2.2
    have hlast := hv.update_last fun y hy => hnext y (hd y hy x₄ List.mem_cons_self)
    rw [hi.next, Function.update_self, ← hi.next] at hlast
    exact ⟨hlast, hp'⟩
  -- the paths to the zero node end before
  have hfront : ∀ {list : RecordList}, c.heap.Reaches list z → c'.heap.Reaches list z := by
    rintro list ⟨front, hfront⟩
    have hd := (List.nodup_append.mp (LinkPath.append_iff.mpr ⟨_, hfront, hv⟩).nodup).2.2
    have hx₄v : x₄ ∈ z :: v := by
      rw [hys]
      simp
    exact ⟨front, hfront.congr fun y hy => hnext y (hd y hy x₄ hx₄v)⟩
  refine ⟨z, v ++ [p], ⟨n, hi.info hn, hz⟩, hv', fun t => ?_⟩
  by_cases ht : t = .ipv4
  · subst ht
    obtain ⟨l', list, x, hl, hlist, hreach, -⟩ := hlists .ipv4
    obtain rfl := hI.index.has_unique hl₄ hl
    obtain rfl := Option.some.inj (hlist₄.symm.trans hlist)
    exact ⟨l, _, p, hi.has_self, hlist', hfront hreach, rfl, z :: v, rfl⟩
  · obtain ⟨l', list, x, hl, hlist, hreach, hx, hxz⟩ := hlists t
    have hne : (t, d) ≠ (CacheType.ipv4, d) := fun e => ht (Prod.mk.inj e).1
    refine ⟨l', list, x, (hi.has_other hne).mpr hl, (hi.list (hi.ne hI.index hl hne)).trans hlist,
      hfront hreach, hx, ?_⟩
    rw [if_neg ht] at hxz ⊢
    exact hxz

/-- **The state of the loading loop** after the entries `done`. -/
structure Loaded (es done : List (InAddr × CString)) (c : Cache) : Prop where
  load : ∃ S cls, LoadInv es S cls c
  domain : ∀ d, invalidKey d = false → if (zeroAddr, d) ∈ done then Zeroed c d else Plain c d

theorem Loaded.init : Loaded es [] Cache.init where
  load := ⟨_, _, .init⟩
  domain _ _ := ⟨fun h => absurd h (Cache.init_has _ _ _), fun h => absurd h (Cache.init_has _ _ _)⟩

/-- The inserts of an entry. -/
theorem insertHostsEntry_eq_ok {addr : InAddr} {k : CString} :
    insertHostsEntry c addr k = .ok c' ↔
      ∃ c₁, cacheInsert (c.withHeap (c.heap.allocNode (hostsNode addr k))) .ipv4 k
          c.heap.nextNode = .ok c₁ ∧
        if addr = zeroAddr then ∃ c₂, cacheInsert c₁ .ipv6 k c.heap.nextNode = .ok c₂ ∧
          cacheInsert c₂ .cname k c.heap.nextNode = .ok c'
        else c' = c₁ := by
  refine bind_eq_ok.trans (exists_congr fun c₁ => and_congr Iff.rfl ?_)
  split_ifs with h₁ h₂ h₂
  · exact bind_eq_ok
  · exact absurd h₁ h₂
  · exact absurd h₂ h₁
  · simp [eq_comm]

namespace Loaded

variable {done : List (InAddr × CString)}

theorem kept (hK : Kept d c c') (hd : if (zeroAddr, d) ∈ done then Zeroed c d else Plain c d) :
    if (zeroAddr, d) ∈ done then Zeroed c' d else Plain c' d := by
  split_ifs at hd ⊢
  · exact hK.1 hd
  · exact hK.2 hd

theorem tailReached (hd : if (zeroAddr, d) ∈ done then Zeroed c d else Plain c d) (hI : c.Inv S)
    (hp : c.heap.Unlinked p) (t : CacheType) : TailReached c d p t := by
  split_ifs at hd
  · exact hd.tailReached hI hp t
  · exact hd.tailReached hp t

/-- **One iteration of the loading loop**. -/
theorem entry (hD : Loaded es done c) {addr : InAddr} {k : CString} (hmem : (addr, k) ∈ es)
    (hr : insertHostsEntry c addr k = .ok c') : Loaded es (done ++ [(addr, k)]) c' := by
  obtain ⟨⟨S, cls, hL⟩, hD⟩ := hD
  -- the node of the entry, in the class of its domain
  have hL₁ := hL.alloc addr k
  have hp := hL.inv.heap.unlinked_alloc (n := hostsNode addr k) rfl rfl
  have hn : (c.heap.allocNode (hostsNode addr k)).info c.heap.nextNode = some (hostsNode addr k) :=
    by rw [Heap.allocNode_info, Function.update_self]; rfl
  have hk := Function.update_self c.heap.nextNode (classOf es .ipv4 k) cls
  have hD₁ := fun d hv => kept (KeyFrame.kept (.alloc (n := hostsNode addr k) rfl) hL)
    (hD d hv)
  obtain ⟨c₁, h₁, hr⟩ := insertHostsEntry_eq_ok.mp hr
  split_ifs at hr with hzero
  · obtain ⟨c₂, h₂, h₃⟩ := hr
    subst hzero
    cases hinv : invalidKey k with
    | true =>
      simp only [cacheInsert, hinv, if_true, Except.ok.injEq] at h₁ h₂ h₃
      obtain rfl := h₁.trans (h₂.trans h₃)
      refine ⟨⟨_, _, hL₁⟩, fun d hv => ?_⟩
      have hkd : d ≠ k := fun e => by simp [← e, hv] at hinv
      simpa [hkd] using hD₁ d hv
    | false =>
      obtain ⟨hload, hZ, hK⟩ := zero_inserts hL₁ hp hn (hostsNode_isZero k) rfl hk hmem hinv
        (tailReached (hD₁ k hinv) hL₁.inv hp) h₁ h₂ h₃
      refine ⟨hload, fun d hv => ?_⟩
      by_cases hkd : d = k
      · subst hkd
        rwa [if_pos (by simp)]
      · simpa [hkd] using kept (hK (Ne.symm hkd)) (hD₁ d hv)
  · subst hr
    obtain ⟨cls', hL'⟩ := hL₁.insert hp hk h₁
    refine ⟨⟨_, _, hL'⟩, fun d hv => ?_⟩
    have hne : (zeroAddr, d) ≠ (addr, k) := fun e => hzero (Prod.mk.inj e).1.symm
    have hmem : (zeroAddr, d) ∈ done ++ [(addr, k)] ↔ (zeroAddr, d) ∈ done := by simp [hne]
    simp only [hmem]
    by_cases hkd : d = k
    · subst hkd
      exact kept ⟨fun h => h.insert hL₁.inv hp h₁, fun h => h.insert hL₁.inv hp h₁⟩ (hD₁ d hv)
    · exact kept (hL₁.kept (Ne.symm hkd) h₁) (hD₁ d hv)

theorem entries (hD : Loaded es done c) {todo : List (InAddr × CString)} (hsub : todo ⊆ es)
    (hr : todo.foldlM (fun c e => insertHostsEntry c e.1 e.2) c = .ok c') :
    Loaded es (done ++ todo) c' := by
  induction todo generalizing done c with
  | nil =>
    cases hr
    rwa [List.append_nil]
  | cons e todo ih =>
    rw [List.foldlM_cons] at hr
    obtain ⟨c₁, h₁, hr⟩ := bind_eq_ok.mp hr
    rw [List.append_cons]
    exact ih (hD.entry (hsub List.mem_cons_self) h₁) (fun x hx => hsub (List.mem_cons_of_mem _ hx))
      hr

end Loaded

/-- **What the hosts file leaves**: the lists of every blocked domain meet in a zero node. -/
theorem readHostsFile_loaded {file : List UInt8} (hr : readHostsFile Cache.init file = .ok c) :
    Loaded (hostsEntries file) (hostsEntries file) c :=
  Loaded.init.entries (List.Subset.refl _) (readHostsFile_eq .. ▸ hr)

theorem readHostsFile_zeroed {file : List UInt8} (hr : readHostsFile Cache.init file = .ok c)
    (hd : IsBlocked file d) : Zeroed c d := by
  have := (readHostsFile_loaded hr).domain d hd.2
  rwa [if_pos hd.1] at this

/-! ## Success -/

/-- The index invariant, and live tails. -/
structure Growing (c : Cache) : Prop where
  index : c.IndexInv
  tail : ∀ {t k l}, c.Has t k l → c.heap.TailLive l

namespace Growing

theorem alloc (hG : Growing c) (n : ListNode) : Growing (c.withHeap (c.heap.allocNode n)) where
  index := hG.index.withHeap fun _ => rfl
  tail h := (hG.tail h).alloc

theorem insert {k : CString} (hG : Growing c) (hk : KeySafe k) (hp : (c.heap.node p).isSome) :
    ∃ c', cacheInsert c t k p = .ok c' ∧ Growing c' ∧ (c'.heap.node p).isSome := by
  obtain ⟨c', hr⟩ := cacheInsert_ok (t := t) hG.index hk hp fun l h => hG.tail h
  refine ⟨c', hr, ⟨cacheInsert_inv hG.index hr, fun {t' k' l'} h =>
    cacheInsert_tailLive hG.index hr hp (fun _ => hG.tail) h⟩, ?_⟩
  rcases cacheInsert_inserted hG.index hr with ⟨-, rfl⟩ | ⟨-, l, τ, hi⟩
  · exact hp
  · exact hi.isSome hp

end Growing

/-- **The load succeeds** when the cache can index every domain. -/
theorem readHostsFile_ok {file : List UInt8} (hk : ∀ e ∈ hostsEntries file, KeySafe e.2) :
    ∃ c, readHostsFile Cache.init file = .ok c := by
  rw [readHostsFile_eq]
  have hinit : Growing Cache.init :=
    ⟨Cache.Inv.init.index, fun h => absurd h (Cache.init_has _ _ _)⟩
  refine (foldlM_total (fun c e he hG => ?_) hinit).imp fun _ h => h.1
  have hG₁ := hG.alloc (hostsNode e.1 e.2)
  have hp : ((c.heap.allocNode (hostsNode e.1 e.2)).node c.heap.nextNode).isSome := by
    rw [Heap.allocNode_node, Function.update_self, Option.isSome_some]
  obtain ⟨c₁, h₁, hG₁, hp₁⟩ := hG₁.insert (t := .ipv4) (hk e he) hp
  obtain ⟨c₂, h₂, hG₂, hp₂⟩ := hG₁.insert (t := .ipv6) (hk e he) hp₁
  obtain ⟨c₃, h₃, hG₃, -⟩ := hG₂.insert (t := .cname) (hk e he) hp₂
  by_cases hz : e.1 = zeroAddr
  · exact ⟨c₃, insertHostsEntry_eq_ok.mpr ⟨c₁, h₁, by rw [if_pos hz]; exact ⟨c₂, h₂, h₃⟩⟩, hG₃⟩
  · exact ⟨c₁, insertHostsEntry_eq_ok.mpr ⟨c₁, h₁, by rw [if_neg hz]⟩, hG₁⟩

end Adrift
