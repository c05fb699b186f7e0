import Adrift.Ds.ListPush
import Adrift.Ds.ListRun

/-!
# Tables of lists

A table keeps a list for every key that has one. Pushing a node under a key appends to the
sequence of that key, freeing the list of a key empties it, and the other keys are left alone.
A trie and a hash map are such tables.

## Main definitions

* `Heap.dtorHeap h l ids`: the heap after the list `l` of the nodes `ids` is freed
* `Table has m h`: the lists of the keys represent the map `m`

## Main results

* `Heap.Rep.dtor`: what `list_dtor` does to a list
* `Table.push`, `Table.delete`: what a push under a key and the deletion of a key do to the map
-/

namespace Adrift

open Outcome

variable {h h' : Heap} {l k s s' p q : ℕ} {ids ids' : List ℕ} {n : ListNode}

/-! ## Freed lists -/

namespace Heap

/-- The nodes `ids` freed. -/
def freeNodes (h : Heap) (ids : List ℕ) : Heap := ids.foldl freeNode h

/-- The list `l` freed, with the nodes `ids`. -/
def dtorHeap (h : Heap) (l : ℕ) (ids : List ℕ) : Heap := (h.freeNodes ids).freeList l

theorem freeNodes_node (x : ℕ) :
    (h.freeNodes ids).node x = if x ∈ ids then none else h.node x := by
  induction ids generalizing h with
  | nil => simp [freeNodes]
  | cons i ids ih =>
    have hstep : h.freeNodes (i :: ids) = (h.freeNode i).freeNodes ids := rfl
    rw [hstep, ih]
    by_cases hx : x = i
    · simp [hx, freeNode]
    · simp [hx, freeNode]

theorem freeNodes_list : (h.freeNodes ids).list = h.list := by
  induction ids generalizing h with
  | nil => rfl
  | cons i ids ih => exact ih (h := h.freeNode i)

theorem freeNodes_nextNode : (h.freeNodes ids).nextNode = h.nextNode := by
  induction ids generalizing h with
  | nil => rfl
  | cons i ids ih => exact ih (h := h.freeNode i)

theorem dtorHeap_node (x : ℕ) :
    (h.dtorHeap l ids).node x = if x ∈ ids then none else h.node x := freeNodes_node x

theorem freeList_list : (h.freeList l).list = Function.update h.list l none := rfl

/-- The other lists are as they were. -/
theorem freeList_eq_some {list : RecordList} (hk : (h.freeList l).list k = some list) :
    k ≠ l ∧ h.list k = some list := by
  rw [freeList_list] at hk
  have hkl : k ≠ l := by
    rintro rfl
    rw [Function.update_self] at hk
    cases hk
  exact ⟨hkl, by rwa [Function.update_of_ne hkl] at hk⟩

theorem dtorHeap_list : (h.dtorHeap l ids).list = Function.update h.list l none := by
  rw [dtorHeap, freeList_list, freeNodes_list]

theorem dtorHeap_list_eq_some {list : RecordList} (hk : (h.dtorHeap l ids).list k = some list) :
    k ≠ l ∧ h.list k = some list := by
  obtain ⟨hkl, hk⟩ := freeList_eq_some hk
  exact ⟨hkl, by rwa [freeNodes_list] at hk⟩

/-- A node that is live afterwards is as it was. -/
theorem dtorHeap_live {x : ℕ} (hx : ((h.dtorHeap l ids).node x).isSome) :
    x ∉ ids ∧ (h.dtorHeap l ids).node x = h.node x := by
  rw [dtorHeap_node] at hx ⊢
  have hmem : x ∉ ids := by
    intro hmem
    simp [hmem] at hx
  exact ⟨hmem, if_neg hmem⟩

theorem freeFrom_eq_ok {fuel : ℕ} {o : Option ℕ} (hp : LinkPath h.next o ids none)
    (hlive : ∀ i ∈ ids, (h.node i).isSome) (hf : ids.length ≤ fuel) :
    freeFrom fuel h o = .ok (h.freeNodes ids) := by
  induction ids generalizing h o fuel with
  | nil =>
    obtain rfl : o = none := hp
    cases fuel <;> rfl
  | cons i ids ih =>
    have hd := hp.nodup
    obtain ⟨rfl, hp⟩ := hp
    obtain ⟨n, hn⟩ := Option.isSome_iff_exists.mp (hlive i List.mem_cons_self)
    obtain ⟨fuel, rfl⟩ := Nat.exists_eq_succ_of_ne_zero (Nat.ne_of_gt (Nat.lt_of_lt_of_le
      (Nat.succ_pos _) hf))
    -- the rest of the path does not meet the freed node
    have hne : ∀ x ∈ ids, x ≠ i := fun x hx => ne_of_mem_of_not_mem hx (List.nodup_cons.mp hd).1
    rw [freeFrom, Heap.getNode_eq_ok.mpr hn, ok_bind, ← next_of_node hn]
    refine ih (h := h.freeNode i) (hp.congr fun x hx => ?_) (fun x hx => ?_) (by simpa using hf)
    · rw [freeNode_next, Function.update_of_ne (hne x hx)]
    · have hnode : (h.freeNode i).node x = h.node x := Function.update_of_ne (hne x hx) ..
      rw [hnode]
      exact hlive x (List.mem_cons_of_mem _ hx)

end Heap

namespace Heap.Rep

/-- **`list_dtor` succeeds**, and frees the list and its nodes. -/
theorem dtor (hr : h.Rep l s ids) : listDtor h (some l) = .ok (h.dtorHeap l (s :: ids)) := by
  have hfree := freeFrom_eq_ok hr.links.forward hr.live
    (Heap.length_le_of_live hr.links.nodup hr.live)
  rw [List.head?_cons] at hfree
  simp only [listDtor, Heap.getList_eq_ok.mpr hr.cell, ok_bind, hfree]
  rfl

/-- No link leads from outside into a list. -/
theorem notMem_of_next (hr : h.Rep l s ids) (hI : h.Inv ∅) (hp : p ∉ s :: ids)
    (hn : h.next p = some q) : q ∉ s :: ids := by
  intro hq
  rcases hr.links.forward.pred_of_mem hq with he | ⟨w, hw, hwq⟩
  · -- the head node has no record, and is linked from nowhere
    obtain ⟨m, hm, hd⟩ := hI.head_info hr.chain
    obtain ⟨m', hm', hd'⟩ := hI.next hn
    obtain rfl : s = q := Option.some.inj he
    rw [Option.some.inj (hm.symm.trans hm'), Option.isSome_iff_ne_none] at *
    exact hd' hd
  · -- the two links to `q` come from one node
    have := (hI.pred hn (Set.notMem_empty q)).symm.trans (hI.pred hwq (Set.notMem_empty q))
    exact hp (Option.some.inj this ▸ hw)

end Heap.Rep

namespace Heap

/-- Freeing a list keeps the invariant. -/
theorem Inv.dtor (hI : h.Inv ∅) (hr : h.Rep l s ids) : (h.dtorHeap l (s :: ids)).Inv ∅ := by
  have hinfo : ∀ {x m}, (h.dtorHeap l (s :: ids)).info x = some m →
      x ∉ s :: ids ∧ h.info x = some m := by
    intro x m hm
    obtain ⟨hx, hn⟩ := dtorHeap_live (isSome_of_info hm)
    exact ⟨hx, by rwa [info, hn] at hm⟩
  have hkeep : ∀ {x}, x ∉ s :: ids → (h.dtorHeap l (s :: ids)).node x = h.node x := by
    intro x hx
    rw [dtorHeap_node, if_neg hx]
  -- the links left are those between nodes outside the list
  have hnext : ∀ {x y}, (h.dtorHeap l (s :: ids)).next x = some y →
      x ∉ s :: ids ∧ y ∉ s :: ids ∧ h.next x = some y := by
    intro x y hxy
    obtain ⟨hx, hn⟩ := dtorHeap_live (Heap.isSome_of_next hxy)
    rw [Heap.next, hn] at hxy
    exact ⟨hx, hr.notMem_of_next hI hx hxy, hxy⟩
  refine ⟨fun {k list} hk => ?_, fun hk hk' he => ?_, fun hm hd => ?_, fun hxy => ?_,
    fun {x} hx => ?_, fun hxy _ => ?_, fun hp _ => hp.elim, fun hp => hp.elim, fun hk ht => ?_⟩
  · obtain ⟨hkl, hk⟩ := dtorHeap_list_eq_some hk
    obtain ⟨x, m, hx, hm, hd⟩ := hI.head hk
    obtain ⟨x', xs, hx', hc⟩ := hI.chain hk
    obtain rfl := Option.some.inj (hx.symm.trans hx')
    have hxl : x ∉ s :: ids := fun hmem =>
      hI.disjoint hr.chain hc (fun _ _ => Set.notMem_empty _) hkl.symm hmem List.mem_cons_self
    exact ⟨x, m, hx, by rw [info, hkeep hxl]; exact hm, hd⟩
  · exact hI.head_inj (dtorHeap_list_eq_some hk).2 (dtorHeap_list_eq_some hk').2 he
  · exact hI.ttl (hinfo hm).2 hd
  · obtain ⟨-, hy, hxy⟩ := hnext hxy
    obtain ⟨m, hm, hd⟩ := hI.next hxy
    exact ⟨m, by rw [info, hkeep hy]; exact hm, hd⟩
  · -- a path from outside the list stays outside
    obtain ⟨hxl, hn⟩ := dtorHeap_live hx
    rw [hn] at hx
    obtain ⟨xs, hp⟩ := hI.ends hx
    refine ⟨xs, hp.congr fun y hy => ?_⟩
    have hyl : y ∉ s :: ids := hp.forall_mem (P := (· ∉ s :: ids))
      (fun z _ hz => Option.some.inj hz ▸ hxl)
      (fun z _ w _ hz hzw => hr.notMem_of_next hI hz hzw) y hy
    rw [Heap.next, Heap.next, hkeep hyl]
  · obtain ⟨-, hy, hxy⟩ := hnext hxy
    rw [prev, hkeep hy]
    exact hI.pred hxy (Set.notMem_empty _)
  · rw [dtorHeap, show ((h.freeNodes (s :: ids)).freeList l).nextNode = h.nextNode from
      freeNodes_nextNode]
    exact hI.tail_lt (dtorHeap_list_eq_some hk).2 ht

/-- Freeing a list leaves the nodes fresh that are. -/
theorem Unlinked.dtor (hq : h.Unlinked q) (hmem : q ∉ ids) : (h.dtorHeap l ids).Unlinked q where
  data := by
    rw [info, dtorHeap_node, if_neg hmem]
    exact hq.data
  next := by
    rw [Heap.next, dtorHeap_node, if_neg hmem]
    exact hq.next
  pred x hx := by
    obtain ⟨-, hn⟩ := dtorHeap_live (isSome_of_next hx)
    rw [Heap.next, hn] at hx
    exact hq.pred x hx
  tail hk := hq.tail (dtorHeap_list_eq_some hk).2

/-- A node in no list is in no new list. -/
theorem InNoList.ctor {m : ℕ → List ℕ} (hp : h.InNoList p) (hL : h.Lists m) :
    h.ctorHeap.InNoList p := by
  refine ⟨ctorHeap_isSome hp.1, fun k ids hc => ?_⟩
  obtain ⟨list, hl, -⟩ := id hc
  obtain ⟨rfl, -⟩ | hl := ctorHeap_list_eq_some hl
  · rw [hc.unique (ctorHeap_chain h), List.mem_singleton]
    exact (lt_of_isSome hp.1).ne
  · obtain ⟨s, hr⟩ := hL.rep (l := k) (by rw [hl, Option.isSome_some])
    rw [hc.unique hr.chain.ctor]
    exact hp.2 k _ hr.chain

namespace Lists

variable {m : ℕ → List ℕ}

/-- **Freeing a list** leaves the other lists alone. -/
theorem dtor (hL : h.Lists m) (hl : (h.list l).isSome) :
    ∃ h', listDtor h (some l) = .ok h' ∧ h'.Lists (Function.update m l []) ∧
      ∀ k, (h'.list k).isSome ↔ k ≠ l ∧ (h.list k).isSome := by
  obtain ⟨s, hself⟩ := hL.rep hl
  have hlist : ∀ k, ((h.dtorHeap l (s :: m l)).list k).isSome ↔ k ≠ l ∧ (h.list k).isSome := by
    intro k
    rw [dtorHeap_list]
    by_cases hk : k = l
    · simp [hk]
    · simp [hk]
  have hrep : ∀ {k s'}, k ≠ l → h.Rep k s' (m k) →
      (h.dtorHeap l (s :: m l)).Rep k s' (m k) := by
    intro k s' hk hr
    apply hr.congr (by rw [dtorHeap_list, Function.update_of_ne hk])
    intro i hi
    rw [dtorHeap_node, if_neg fun hmem => hself.disjoint hL.inv hr hk.symm hmem hi]
  refine ⟨_, hself.dtor, ⟨hL.inv.dtor hself, fun {k} hk => ?_, fun {q} hq => ?_⟩, hlist⟩
  · obtain ⟨hkl, hk⟩ := (hlist k).mp hk
    rw [Function.update_of_ne hkl]
    exact (hL.rep hk).imp fun _ => hrep hkl
  · obtain ⟨hql, hn⟩ := dtorHeap_live hq.1
    have hlive := hq.1
    rw [hn] at hlive
    refine (hL.settle_of (fun {k s'} hr x hx hxl => ?_) hq hlive).dtor hql
    -- a live member is one of another list
    have hkl : k ≠ l := by
      rintro rfl
      obtain ⟨rfl, -⟩ := hr.unique hself
      exact (dtorHeap_live hxl).1 hx
    exact ⟨k, _, (hrep hkl hr).chain, hx⟩

end Lists

end Heap

/-- **A lookup finds the nodes `ids`**: a list of them, or nothing where there are none. -/
def Heap.Finds (h : Heap) (r : Except Fault (Option ℕ)) (ids : List ℕ) : Prop :=
  (∃ l s, r = .ok (some l) ∧ h.Rep l s ids ∧ ids ≠ []) ∨ r = .ok none ∧ ids = []

/-! ## Tables -/

variable {K : Type} {has has' : K → ℕ → Prop} {m : K → List ℕ} {key : K}

/-- **A table of lists** represents the map `m`: every key has one list at most, and no other key
has it; the list has the nodes of the key, and a key without nodes has none. -/
structure Table (has : K → ℕ → Prop) (m : K → List ℕ) (h : Heap) : Prop where
  lists : ∃ members, h.Lists members ∧ ∀ {key l}, has key l → members l = m key
  live : ∀ {key l}, has key l → (h.list l).isSome
  unique : ∀ {key l l'}, has key l → has key l' → l = l'
  inj : ∀ {key key' l}, has key l → has key' l → key = key'
  absent : ∀ {key}, (∀ l, ¬ has key l) ↔ m key = []

namespace Table

theorem empty {members : ℕ → List ℕ} (hL : h.Lists members) (hn : ∀ key l, ¬ has key l) :
    Table has (fun _ => []) h where
  lists := ⟨members, hL, fun hl => absurd hl (hn _ _)⟩
  live hl := absurd hl (hn _ _)
  unique hl := absurd hl (hn _ _)
  inj hl := absurd hl (hn _ _)
  absent := iff_of_true (hn _) rfl

/-- The list of a key represents its nodes. -/
theorem rep (hT : Table has m h) (hl : has key l) : ∃ s, h.Rep l s (m key) := by
  obtain ⟨members, hL, hm⟩ := hT.lists
  obtain ⟨s, hr⟩ := hL.rep (hT.live hl)
  exact ⟨s, hm hl ▸ hr⟩

/-- **A lookup finds the nodes of its key**. -/
theorem finds (hT : Table has m h) {r : Option ℕ} (hr : ∀ l, r = some l ↔ has key l) :
    h.Finds (.ok r) (m key) := by
  cases r with
  | none =>
    refine .inr ⟨rfl, hT.absent.mp fun l hl => ?_⟩
    cases (hr l).mpr hl
  | some l =>
    have hl := (hr l).mp rfl
    obtain ⟨s, hrep⟩ := hT.rep hl
    exact .inl ⟨l, s, rfl, hrep, fun e => hT.absent.mpr e l hl⟩

/-- The list of a key can be pushed onto. -/
theorem push_ok (hT : Table has m h) (hl : has key l) (hp : (h.node p).isSome) :
    ∃ h', listPushBack h l p = .ok h' := by
  obtain ⟨s, hr⟩ := hT.rep hl
  exact hr.tailLive.push_ok hp

/-- The list of a key can be freed. -/
theorem dtor_ok (hT : Table has m h) (hl : has key l) : ∃ h', listDtor h (some l) = .ok h' := by
  obtain ⟨s, hr⟩ := hT.rep hl
  exact ⟨_, hr.dtor⟩

theorem alloc (hT : Table has m h) (hn : n.next = none) (hd : n.data.isSome) :
    Table has m (h.allocNode n) where
  lists := by
    obtain ⟨members, hL, hm⟩ := hT.lists
    exact ⟨members, hL.alloc hn hd, hm⟩
  live := hT.live
  unique := hT.unique
  inj := hT.inj
  absent := hT.absent

/-- A node just allocated is in no list. -/
theorem inNoList_ctor (hT : Table has m h) (data : DnsResourceRecord) (rrType : RrType)
    (recordTime ttl : ℤ) :
    (listNodeCtorWithInfo h data rrType recordTime ttl).1.InNoList h.nextNode := by
  obtain ⟨members, hL, -⟩ := hT.lists
  exact hL.inNoList_ctor data rrType recordTime ttl

variable [DecidableEq K]

/-- **A push under a key** appends to the sequence of the key, and leaves the other keys alone. -/
theorem push (hT : Table has m h) (hp : h.InNoList p) (hpush : PushedUnder h (has key) p l h')
    (hhas : ∀ key' l', has' key' l' ↔ has key' l' ∧ key' ≠ key ∨ key' = key ∧ l' = l) :
    Table has' (Function.update m key (m key ++ [p])) h' := by
  obtain ⟨members, hL, hm⟩ := hT.lists
  -- the list pushed onto is the old one of the key, or a fresh one
  obtain ⟨members', hL', hself, hold, hother⟩ : ∃ members', h'.Lists members' ∧
      members' l = m key ++ [p] ∧ (∀ l', l' ≠ l → (h.list l').isSome → members' l' = members l') ∧
      ∀ key' l', has key' l' → key' ≠ key → l' ≠ l := by
    rcases hpush with ⟨hl, hpush⟩ | ⟨hn, rfl, hpush⟩
    · refine ⟨_, hL.push hp hpush, by rw [Function.update_self, hm hl], fun l' hne _ => ?_, ?_⟩
      · rw [Function.update_of_ne hne]
      · rintro key' l' hl' hne rfl
        exact hne (hT.inj hl' hl)
    · refine ⟨_, hL.ctor.push (hp.ctor hL) hpush, ?_, fun l' hne _ => ?_, ?_⟩
      · rw [Function.update_self, Function.update_self, hT.absent.mp hn]
      · rw [Function.update_of_ne hne, Function.update_of_ne hne]
      · rintro key' l' hl' - rfl
        have hlive := hT.live hl'
        rw [h.list_fresh _ le_rfl] at hlive
        cases hlive
  obtain ⟨h₀, t, hpushed, -⟩ := hpush.pushed
  have hkey : ∀ l', has' key l' ↔ l' = l := fun l' => by simp [hhas]
  have helse : ∀ {key' l'}, key' ≠ key → (has' key' l' ↔ has key' l') := fun hk => by
    simp [hhas, hk]
  refine ⟨⟨members', hL', fun {key' l'} hl' => ?_⟩, fun {key' l'} hl' => ?_,
    fun {key' l₁ l₂} h₁ h₂ => ?_, fun {key₁ key₂ l'} h₁ h₂ => ?_, fun {key'} => ?_⟩
  · by_cases hk : key' = key
    · subst hk
      rw [(hkey l').mp hl', Function.update_self, hself]
    · rw [helse hk] at hl'
      rw [Function.update_of_ne hk, hold l' (hother key' l' hl' hk) (hT.live hl'), hm hl']
  · rw [hpushed.list_isSome]
    by_cases hk : key' = key
    · subst hk
      exact .inr ((hkey l').mp hl')
    · exact .inl (hT.live ((helse hk).mp hl'))
  · by_cases hk : key' = key
    · subst hk
      exact ((hkey l₁).mp h₁).trans ((hkey l₂).mp h₂).symm
    · exact hT.unique ((helse hk).mp h₁) ((helse hk).mp h₂)
  · by_cases hk₁ : key₁ = key <;> by_cases hk₂ : key₂ = key
    · exact hk₁.trans hk₂.symm
    · subst hk₁
      exact absurd ((hkey l').mp h₁) (hother key₂ l' ((helse hk₂).mp h₂) hk₂)
    · subst hk₂
      exact absurd ((hkey l').mp h₂) (hother key₁ l' ((helse hk₁).mp h₁) hk₁)
    · exact hT.inj ((helse hk₁).mp h₁) ((helse hk₂).mp h₂)
  · by_cases hk : key' = key
    · subst hk
      refine iff_of_false (fun hn => hn l ((hkey l).mpr rfl)) ?_
      rw [Function.update_self]
      simp
    · rw [Function.update_of_ne hk, ← hT.absent]
      exact forall_congr' fun l' => not_congr (helse hk)

/-- **The deletion of a key** frees its list, and leaves the other keys alone. -/
theorem delete (hT : Table has m h)
    (hdtor : (∃ l, has key l ∧ listDtor h (some l) = .ok h') ∨ (∀ l, ¬ has key l) ∧ h' = h)
    (hhas : ∀ key' l', has' key' l' ↔ has key' l' ∧ key' ≠ key) :
    Table has' (Function.update m key []) h' := by
  obtain ⟨members, hL, hm⟩ := hT.lists
  -- the lists of the other keys stay
  obtain ⟨members', hL', hold⟩ : ∃ members', h'.Lists members' ∧ ∀ key' l', has key' l' →
      key' ≠ key → members' l' = members l' ∧ (h'.list l').isSome := by
    rcases hdtor with ⟨l, hl, hdtor⟩ | ⟨-, rfl⟩
    · obtain ⟨h₁, hr, hL', hlive⟩ := hL.dtor (hT.live hl)
      cases hdtor.symm.trans hr
      refine ⟨_, hL', fun key' l' hl' hne => ?_⟩
      have hll : l' ≠ l := by
        rintro rfl
        exact hne (hT.inj hl' hl)
      exact ⟨Function.update_of_ne hll .., (hlive l').mpr ⟨hll, hT.live hl'⟩⟩
    · exact ⟨members, hL, fun key' l' hl' _ => ⟨rfl, hT.live hl'⟩⟩
  refine ⟨⟨members', hL', fun {key' l'} hl' => ?_⟩, fun {key' l'} hl' => ?_,
    fun h₁ h₂ => ?_, fun h₁ h₂ => ?_, fun {key'} => ?_⟩
  · obtain ⟨hl', hne⟩ := (hhas key' l').mp hl'
    rw [Function.update_of_ne hne, (hold key' l' hl' hne).1, hm hl']
  · obtain ⟨hl', hne⟩ := (hhas key' l').mp hl'
    exact (hold key' l' hl' hne).2
  · exact hT.unique ((hhas _ _).mp h₁).1 ((hhas _ _).mp h₂).1
  · exact hT.inj ((hhas _ _).mp h₁).1 ((hhas _ _).mp h₂).1
  · by_cases hk : key' = key
    · subst hk
      rw [Function.update_self]
      exact iff_of_true (fun l' hl' => ((hhas key' l').mp hl').2 rfl) rfl
    · rw [Function.update_of_ne hk, ← hT.absent]
      refine forall_congr' fun l' => not_congr ?_
      rw [hhas, and_iff_left hk]

end Table

end Adrift
