import Adrift.Ds.ListInvariant

/-!
# Erasing and expiry

`list_erase` unlinks and frees one node; `list_update` erases the expired nodes of a list. Under
the invariant of the lists an update never faults, and every erasure it makes is of the same
form: an expired node is taken out behind its predecessor.

## Main definitions

* `erasedHeap`: the heap after an erasure
* `Unlinks S h w p n`: the node `p` stands behind `w`, and can be taken out
* `Erases`: the situation in which an update erases a node

## Main results

* `listErase_eq_ok`: what an erasure does
* `Heap.Inv.erase`: an erasure keeps the invariant
* `listUpdate_spec`: an update succeeds, keeps what its erasures keep, and leaves the nodes of the
  list that are not expired
* `listUpdate_node`, `listUpdate_info`, `listUpdate_list`: what an update leaves alone
-/

namespace Adrift

open Outcome

variable {h h' : Heap} {S : Set ℕ} {p q l w : ℕ} {o : Option ℕ} {n m : ListNode} {now : ℤ}

/-! ## Erasures -/

namespace Heap

theorem freeNode_next : (h.freeNode p).next = Function.update h.next p none := by
  funext x
  by_cases hx : x = p
  · simp [hx, next, freeNode]
  · simp [next, freeNode, Function.update_of_ne hx]

theorem freeNode_prev : (h.freeNode p).prev = Function.update h.prev p none := by
  funext x
  by_cases hx : x = p
  · simp [hx, prev, freeNode]
  · simp [prev, freeNode, Function.update_of_ne hx]

theorem freeNode_info : (h.freeNode p).info = Function.update h.info p none := by
  funext x
  by_cases hx : x = p
  · simp [hx, info, freeNode]
  · simp [info, freeNode, Function.update_of_ne hx]

/-- The cell `w` linked with `o`, both ways. -/
def relinked (h : Heap) (w : ℕ) (o : Option ℕ) : Heap :=
  match o with
  | none => h.modifyNode w ({ · with next := none })
  | some q => (h.modifyNode w ({ · with next := some q })).modifyNode q ({ · with prev := some w })

theorem relinked_info : (h.relinked w o).info = h.info := by
  cases o with
  | none => exact setNext_info
  | some q => exact setPrev_info.trans setNext_info

theorem relinked_next (hw : (h.node w).isSome) :
    (h.relinked w o).next = Function.update h.next w o := by
  cases o with
  | none => exact setNext_next hw
  | some q => exact setPrev_next.trans (setNext_next hw)

theorem relinked_prev (ho : ∀ q, o = some q → (h.node q).isSome) (x : ℕ) :
    (h.relinked w o).prev x = if o = some x then some w else h.prev x := by
  cases o with
  | none => rw [relinked, setNext_prev, if_neg (by simp)]
  | some q =>
    have hq : ((h.modifyNode w ({ · with next := some q })).node q).isSome := by
      rw [← info_isSome, setNext_info, info_isSome]
      exact ho q rfl
    rw [relinked, setPrev_prev hq, setNext_prev]
    by_cases hx : x = q
    · rw [hx, Function.update_self, if_pos rfl]
    · rw [Function.update_of_ne hx, if_neg (by simpa using Ne.symm hx)]

end Heap

/-- The heap after `p`, between `w` and `o`, is erased from `l`. -/
def erasedHeap (h : Heap) (l w p : ℕ) (o : Option ℕ) : Heap :=
  ((h.relinked w o).modifyList l fun list =>
    { head := if list.head = some p then o else list.head
      tail := if list.tail = some p then some w else list.tail
      size := list.size - 1 }).freeNode p

/-- **An erasure** of a node with a live predecessor and a live or no successor. -/
theorem listErase_eq_ok (hn : h.node p = some n) (hw : n.prev = some w)
    (hlive : (h.node w).isSome) (hnext : ∀ q, n.next = some q → (h.node q).isSome) :
    listErase h l p = .ok (erasedHeap h l w p n.next) := by
  have hset : h.setNext w n.next = .ok (h.modifyNode w ({ · with next := n.next })) :=
    Heap.setNext_eq_ok.mpr ⟨hlive, rfl⟩
  simp only [listErase, Heap.getNode_eq_ok.mpr hn, ok_bind, hw, Heap.relinkNext, hset]
  cases ho : n.next with
  | none => rfl
  | some q =>
    have hq : ((h.modifyNode w ({ · with next := some q })).node q).isSome := by
      rw [← Heap.info_isSome, Heap.setNext_info, Heap.info_isSome]
      exact hnext q ho
    simp only [Heap.relinkPrev, Heap.setPrev_eq_ok.mpr ⟨hq, rfl⟩, ok_bind]
    rfl

@[simp] theorem erasedHeap_info :
    (erasedHeap h l w p o).info = Function.update h.info p none := by
  rw [erasedHeap, Heap.freeNode_info]
  exact congrArg (Function.update · p none) Heap.relinked_info

theorem erasedHeap_next (hw : (h.node w).isSome) : (erasedHeap h l w p o).next =
    Function.update (Function.update h.next w o) p none := by
  rw [erasedHeap, Heap.freeNode_next]
  exact congrArg (Function.update · p none) (Heap.relinked_next hw)

theorem erasedHeap_prev (ho : ∀ q, o = some q → (h.node q).isSome) {x : ℕ} (hx : x ≠ p) :
    (erasedHeap h l w p o).prev x = if o = some x then some w else h.prev x := by
  rw [erasedHeap, Heap.freeNode_prev, Function.update_of_ne hx]
  exact Heap.relinked_prev ho x

theorem erasedHeap_list : (erasedHeap h l w p o).list = Function.update h.list l
    ((h.list l).map fun list =>
      { head := if list.head = some p then o else list.head
        tail := if list.tail = some p then some w else list.tail
        size := list.size - 1 }) := by
  cases o <;> rfl

@[simp] theorem erasedHeap_nextNode : (erasedHeap h l w p o).nextNode = h.nextNode := by
  cases o <;> rfl

@[simp] theorem erasedHeap_nextList : (erasedHeap h l w p o).nextList = h.nextList := by
  cases o <;> rfl

/-- A node away from the erased one and its neighbours is as it was. -/
theorem erasedHeap_node (hw : (h.node w).isSome) (ho : ∀ q, o = some q → (h.node q).isSome)
    {x : ℕ} (hxp : x ≠ p) (hxw : x ≠ w) (hxo : o ≠ some x) :
    (erasedHeap h l w p o).node x = h.node x :=
  Heap.node_congr (by rw [erasedHeap_info, Function.update_of_ne hxp])
    (by rw [erasedHeap_next hw, Function.update_of_ne hxp, Function.update_of_ne hxw])
    (by rw [erasedHeap_prev ho hxp, if_neg hxo])

/-- **A node that can be unlinked**: it stands behind `w`, and is on one list at most. -/
structure Unlinks (S : Set ℕ) (h : Heap) (w p : ℕ) (n : ListNode) : Prop where
  inv : h.Inv S
  node : h.node p = some n
  notMem : p ∉ S
  next : h.next w = some p

namespace Unlinks

theorem live (he : Unlinks S h w p n) : (h.node w).isSome := Heap.isSome_of_next he.next

theorem data (he : Unlinks S h w p n) : n.data.isSome := by
  obtain ⟨m, hm, hd⟩ := he.inv.next he.next
  rw [Heap.info_of_node he.node] at hm
  rwa [← Option.some.inj hm] at hd

theorem prev (he : Unlinks S h w p n) : n.prev = some w := by
  rw [← Heap.prev_of_node he.node]
  exact he.inv.pred he.next he.notMem

theorem next_eq (he : Unlinks S h w p n) : h.next p = n.next := Heap.next_of_node he.node

theorem next_live (he : Unlinks S h w p n) : ∀ q, n.next = some q → (h.node q).isSome :=
  fun _ hq => he.inv.isSome_of_next (he.next_eq.trans hq)

theorem erase_ok (he : Unlinks S h w p n) :
    listErase h l p = .ok (erasedHeap h l w p n.next) :=
  listErase_eq_ok he.node he.prev he.live he.next_live

theorem ne (he : Unlinks S h w p n) : w ≠ p := by
  rintro rfl
  -- a path from a node that is linked to itself has no end
  obtain ⟨xs, hx⟩ := he.inv.ends he.live
  rcases xs with _ | ⟨x, xs⟩
  · cases hx
  obtain ⟨hxw, hx⟩ := hx
  obtain rfl := Option.some.inj hxw
  rw [he.next] at hx
  rcases xs with _ | ⟨y, xs⟩
  · cases hx
  have hpath : LinkPath h.next (some w) (w :: y :: xs) none :=
    LinkPath.cons_iff.mpr ⟨rfl, he.next.symm ▸ hx⟩
  have hd := hpath.nodup
  rw [← Option.some.inj hx.1] at hd
  simp at hd

/-- Nothing but `w` links to the erased node. -/
theorem unique (he : Unlinks S h w p n) {x : ℕ} (hx : h.next x = some p) : x = w :=
  Option.some.inj ((he.inv.pred hx he.notMem).symm.trans (he.inv.pred he.next he.notMem))

/-- No list starts with the erased node. -/
theorem ne_head (he : Unlinks S h w p n) {k : ℕ} {list : RecordList}
    (hl : h.list k = some list) : list.head ≠ some p := by
  intro hp
  -- a head node has no record
  obtain ⟨s, m, hs, hm, hd⟩ := he.inv.head hl
  obtain rfl : s = p := Option.some.inj (hs.symm.trans hp)
  rw [Heap.info_of_node he.node] at hm
  rw [← Option.some.inj hm] at hd
  have hdata := he.data
  rw [show n.data = none from hd] at hdata
  cases hdata

/-- The head nodes stay. -/
theorem list_eq_some (he : Unlinks S h w p n) {k : ℕ} {list' : RecordList}
    (hl : (erasedHeap h l w p n.next).list k = some list') : ∃ list, h.list k = some list ∧
      list'.head = list.head ∧
      (list'.tail = list.tail ∨ k = l ∧ list.tail = some p ∧ list'.tail = some w) := by
  rw [erasedHeap_list] at hl
  by_cases hk : k = l
  · subst hk
    rw [Function.update_self, Option.map_eq_some_iff] at hl
    obtain ⟨list, hl, rfl⟩ := hl
    refine ⟨list, hl, if_neg (he.ne_head hl), ?_⟩
    by_cases ht : list.tail = some p
    · exact .inr ⟨rfl, ht, if_pos ht⟩
    · exact .inl (if_neg ht)
  · rw [Function.update_of_ne hk] at hl
    exact ⟨list', hl, rfl, .inl rfl⟩

theorem filter_ne_of_nodup {as bs : List ℕ} (hd : (as ++ p :: bs).Nodup) :
    (as ++ p :: bs).filter (· ≠ p) = as ++ bs := by
  rw [List.nodup_middle, List.nodup_cons, List.mem_append, not_or] at hd
  rw [List.filter_append, List.filter_cons_of_neg (by simp), List.filter_eq_self.mpr,
    List.filter_eq_self.mpr]
  · rintro y hy
    simpa using fun e : y = p => hd.1.2 (e ▸ hy)
  · rintro y hy
    simpa using fun e : y = p => hd.1.1 (e ▸ hy)

theorem list_of_list (he : Unlinks S h w p n) {k : ℕ} {list : RecordList}
    (hl : h.list k = some list) : ∃ list', (erasedHeap h l w p n.next).list k = some list' ∧
      list'.head = list.head := by
  obtain ⟨list', hl'⟩ : ∃ list', (erasedHeap h l w p n.next).list k = some list' := by
    rw [erasedHeap_list]
    by_cases hk : k = l
    · subst hk
      exact ⟨_, by rw [Function.update_self, hl, Option.map_some]⟩
    · exact ⟨list, by rw [Function.update_of_ne hk, hl]⟩
  obtain ⟨list₀, hl₀, hh, -⟩ := he.list_eq_some hl'
  exact ⟨list', hl', hh.trans (by rw [Option.some.inj (hl₀.symm.trans hl)])⟩

/-- **A path past the erased node** skips it. -/
theorem path (he : Unlinks S h w p n) {x : Option ℕ} {xs : List ℕ}
    (hx : LinkPath h.next x xs none) (hxp : x ≠ some p) :
    LinkPath (erasedHeap h l w p n.next).next x (xs.filter (· ≠ p)) none := by
  have hnext : ∀ y, y ≠ w → y ≠ p → (erasedHeap h l w p n.next).next y = h.next y := by
    intro y hw hp
    rw [erasedHeap_next he.live, Function.update_of_ne hp, Function.update_of_ne hw]
  by_cases hmem : p ∈ xs
  · -- the path goes through `w` to the erased node
    obtain ⟨as, bs, rfl⟩ := List.append_of_mem hmem
    rw [filter_ne_of_nodup hx.nodup]
    have ha := (LinkPath.append_cons_iff.mp hx).1
    rcases List.eq_nil_or_concat as with rfl | ⟨as, v, rfl⟩
    · exact absurd ha hxp
    rw [List.concat_eq_append] at ha hx ⊢
    obtain rfl : v = w := he.unique (LinkPath.concat_iff.mp ha).2
    rw [List.append_assoc] at hx ⊢
    refine hx.unlink ?_ hnext
    rw [erasedHeap_next he.live, Function.update_of_ne he.ne, Function.update_self, he.next_eq]
  · -- a path through `w` would go through the erased node, too
    rw [List.filter_eq_self.mpr fun y hy => by simpa using fun e : y = p => hmem (e ▸ hy)]
    refine hx.congr fun y hy => hnext y ?_ fun e => hmem (e ▸ hy)
    rintro rfl
    obtain ⟨as, bs, rfl⟩ := List.append_of_mem hy
    have hb := (LinkPath.append_cons_iff.mp hx).2
    rw [he.next] at hb
    rcases bs with _ | ⟨b, bs⟩
    · cases hb
    · exact hmem (by simp [Option.some.inj hb.1])

theorem info_of_erased (_ : Unlinks S h w p n) {x : ℕ}
    (hm : (erasedHeap h l w p n.next).info x = some m) : x ≠ p ∧ h.info x = some m := by
  rw [erasedHeap_info] at hm
  have hx : x ≠ p := by
    rintro rfl
    simp at hm
  exact ⟨hx, by rwa [Function.update_of_ne hx] at hm⟩

/-- A link after the erasure is the new link of the predecessor, or an old one. -/
theorem next_of_erased (he : Unlinks S h w p n) {x y : ℕ}
    (hxy : (erasedHeap h l w p n.next).next x = some y) :
    y ≠ p ∧ x ≠ p ∧ (x = w ∧ h.next p = some y ∨ x ≠ w ∧ h.next x = some y) := by
  rw [erasedHeap_next he.live] at hxy
  rcases Heap.update_eq_some hxy with ⟨-, hnone⟩ | ⟨hx, hxy'⟩
  · cases hnone
  rcases Heap.update_eq_some hxy' with ⟨rfl, hpy⟩ | ⟨hw, hold⟩
  · rw [← he.next_eq] at hpy
    refine ⟨?_, hx, .inl ⟨rfl, hpy⟩⟩
    rintro rfl
    exact hx (he.unique hpy).symm
  · refine ⟨?_, hx, .inr ⟨hw, hold⟩⟩
    rintro rfl
    exact hw (he.unique hold)

/-- An erasure leaves the nodes fresh that are. -/
theorem unlinked (he : Unlinks S h w p n) (hq : h.Unlinked q) :
    (erasedHeap h l w p n.next).Unlinked q where
  data := by
    obtain ⟨m, hm, hd⟩ := hq.data
    have hqp : q ≠ p := fun e => hq.pred w (e ▸ he.next)
    exact ⟨m, by rw [erasedHeap_info, Function.update_of_ne hqp, hm], hd⟩
  next := by
    have hqw : q ≠ w := by
      rintro rfl
      cases hq.next.symm.trans he.next
    have hqp : q ≠ p := fun e => hq.pred w (e ▸ he.next)
    rw [erasedHeap_next he.live, Function.update_of_ne hqp, Function.update_of_ne hqw, hq.next]
  pred x hx := by
    obtain ⟨-, -, ⟨-, hold⟩ | ⟨-, hold⟩⟩ := he.next_of_erased hx
    · exact hq.pred _ hold
    · exact hq.pred _ hold
  tail hl ht := by
    obtain ⟨list, hl, -, ht' | ⟨-, -, ht'⟩⟩ := he.list_eq_some hl
    · exact hq.tail hl (ht' ▸ ht)
    · -- the new tail leads to the erased node
      rw [ht'] at ht
      have hnext := he.next
      rw [Option.some.inj ht, hq.next] at hnext
      cases hnext

end Unlinks

/-- **An erasure keeps the invariant**. -/
theorem Heap.Inv.erase (he : Unlinks S h w p n) :
    Inv S (erasedHeap h l w p n.next) := by
  have hI := he.inv
  have hinfo : ∀ {x m}, h.info x = some m → x ≠ p →
      (erasedHeap h l w p n.next).info x = some m := by
    intro x m hm hx
    rw [erasedHeap_info, Function.update_of_ne hx, hm]
  refine ⟨fun hl => ?_, fun hl hl' hh => ?_, fun hm hd => ?_, fun hxy => ?_, fun {x} hx => ?_,
    fun {x y} hxy hy => ?_, fun hp hm => ?_, fun hp => ?_, fun hl ht => ?_⟩
  · obtain ⟨list, hl₀, hh, -⟩ := he.list_eq_some hl
    obtain ⟨s, m, hs, hm, hd⟩ := hI.head hl₀
    refine ⟨s, m, hh ▸ hs, hinfo hm ?_, hd⟩
    rintro rfl
    exact he.ne_head hl₀ hs
  · obtain ⟨list, hl, hh₁, -⟩ := he.list_eq_some hl
    obtain ⟨list', hl', hh₂, -⟩ := he.list_eq_some hl'
    exact hI.head_inj hl hl' (hh₁ ▸ hh₂ ▸ hh)
  · exact hI.ttl (he.info_of_erased hm).2 hd
  · obtain ⟨hyp, -, hxy⟩ := he.next_of_erased hxy
    obtain ⟨m, hm, hd⟩ := hxy.elim (fun h => hI.next h.2) fun h => hI.next h.2
    exact ⟨m, hinfo hm hyp, hd⟩
  · obtain ⟨m, hm⟩ := Heap.exists_info hx
    obtain ⟨hxp, hm⟩ := he.info_of_erased hm
    obtain ⟨ids, hids⟩ := hI.ends (Heap.isSome_of_info hm)
    exact ⟨_, he.path hids (by simpa using hxp)⟩
  · obtain ⟨hyp, hxp, hxy⟩ := he.next_of_erased hxy
    rw [erasedHeap_prev he.next_live hyp, ← he.next_eq]
    -- the node behind the erased one is linked back to `w`, and the others as before
    rcases hxy with ⟨rfl, hpy⟩ | ⟨-, hold⟩
    · rw [if_pos hpy]
    · rw [if_neg, hI.pred hold hy]
      intro hpy
      exact hxp (Option.some.inj ((hI.pred hold hy).symm.trans (hI.pred hpy hy)))
  · exact hI.shared hp (he.info_of_erased hm).2
  · rw [erasedHeap_nextNode]
    exact hI.shared_lt hp
  · rw [erasedHeap_nextNode]
    obtain ⟨list, hl, -, ht' | ⟨-, -, ht'⟩⟩ := he.list_eq_some hl
    · exact hI.tail_lt hl (ht' ▸ ht)
    · rw [ht'] at ht
      rw [← Option.some.inj ht]
      exact lt_of_isSome he.live

/-- **The situation of an erasure** in an update of a list with the nodes `ids`. -/
structure Erases (S : Set ℕ) (now : ℤ) (ids : List ℕ) (h : Heap) (w p : ℕ) (n : ListNode) :
    Prop where
  inv : h.Inv S
  node : h.node p = some n
  expired : n.expired now = true
  next : h.next w = some p
  prev : n.prev = some w
  mem : p ∈ ids
  pred_mem : w ∈ ids
  next_mem : ∀ q, n.next = some q → q ∈ ids

namespace Erases

variable {ids : List ℕ}

theorem ttl (he : Erases S now ids h w p n) : n.ttl ≠ 0 := by
  have := he.expired
  simp only [ListNode.expired, decide_eq_true_eq] at this
  exact this.1

theorem notMem (he : Erases S now ids h w p n) : p ∉ S := fun hp =>
  he.ttl (he.inv.shared (n := n.unlinked) hp (Heap.info_of_node he.node))

theorem unlinks (he : Erases S now ids h w p n) : Unlinks S h w p n :=
  ⟨he.inv, he.node, he.notMem, he.next⟩

end Erases

/-! ## Updates -/

/-- The node `p` is live and past its lifetime. -/
def Heap.expiredAt (h : Heap) (now : ℤ) (p : ℕ) : Bool := (h.info p).any (·.expired now)

theorem Heap.expiredAt_of_node (hn : h.node p = some n) : h.expiredAt now p = n.expired now := by
  rw [expiredAt, info_of_node hn]
  rfl

/-- What is expired among the later nodes does not depend on the node that is erased. -/
theorem filter_expiredAt_erasedHeap {as bs : List ℕ} (hd : (as ++ p :: bs).Nodup) :
    bs.filter (!(erasedHeap h l w p o).expiredAt now ·) = bs.filter (!h.expiredAt now ·) := by
  apply List.filter_congr
  intro y hy
  have hyp : y ≠ p := by
    rintro rfl
    rw [List.nodup_middle, List.nodup_cons] at hd
    exact hd.1 (List.mem_append_right _ hy)
  rw [Heap.expiredAt, Heap.expiredAt, erasedHeap_info, Function.update_of_ne hyp]

/-- An expired node of a list is not its head, and can be unlinked from the node before. -/
theorem exists_erases {pre rest ids : List ℕ} {s p : ℕ} {n : ListNode} (hI : h.Inv S)
    (hsub : pre ++ p :: rest ⊆ ids) (hp : LinkPath h.next (some s) (pre ++ p :: rest) none)
    (hs : h.info s = some m) (hd : m.data = none) (hn : h.node p = some n)
    (hexp : n.expired now = true) : p ≠ s ∧ ∃ w, Erases S now ids h w p n := by
  obtain ⟨hpre, hrest⟩ := LinkPath.append_cons_iff.mp hp
  have httl : n.ttl ≠ 0 := by
    simp only [ListNode.expired, decide_eq_true_eq] at hexp
    exact hexp.1
  -- the head node has no lifetime
  have hps : p ≠ s := by
    rintro rfl
    have hm := hI.ttl hs hd
    rw [Heap.info_of_node hn] at hs
    rw [← Option.some.inj hs] at hm
    exact httl hm
  obtain ⟨w, hmem, hw⟩ : ∃ w ∈ pre, h.next w = some p := by
    rcases hpre.append_pred with he | hw
    · exact absurd (Option.some.inj he).symm hps
    · exact hw
  refine ⟨hps, w, hI, hn, hexp, hw, ?_, hsub (by simp), hsub (by simp [hmem]), fun q hq => ?_⟩
  · -- a shared node never expires
    rw [← Heap.prev_of_node hn]
    exact hI.pred hw fun hS => httl (hI.shared (n := n.unlinked) hS (Heap.info_of_node hn))
  · rw [← Heap.next_of_node hn, hrest.eq_head?] at hq
    exact hsub (by simp [List.mem_of_mem_head? hq])

/-- **The loop of an update**, after it kept the nodes `pre`: what every erasure keeps holds at
the end, and the nodes kept of `rest` are counted, and stand behind those of `pre`. -/
theorem listUpdateFrom_spec {P : Heap → Prop} {ids : List ℕ} {s : ℕ}
    (hstep : ∀ {h w p n}, P h → Erases S now ids h w p n → P (erasedHeap h l w p n.next))
    (fuel : ℕ) (pre rest : List ℕ) (size : UInt64) (hI : h.Inv S) (hP : P h)
    (hsub : pre ++ rest ⊆ ids) (hp : LinkPath h.next (some s) (pre ++ rest) none)
    (hs : h.info s = some m) (hd : m.data = none) (hf : rest.length ≤ fuel) :
    ∃ h', listUpdateFrom now l fuel h rest.head? size =
        .ok (h', size + .ofNat (rest.filter (!h.expiredAt now ·)).length) ∧ h'.Inv S ∧ P h' ∧
      LinkPath h'.next (some s) (pre ++ rest.filter (!h.expiredAt now ·)) none := by
  -- the bound is the number of nodes left, and the head node `s` stays all the way
  induction fuel generalizing h pre rest size with
  | zero =>
    obtain rfl := List.length_eq_zero_iff.mp (Nat.le_zero.mp hf)
    exact ⟨h, by simp [listUpdateFrom], hI, hP, hp⟩
  | succ fuel ih =>
    rcases rest with _ | ⟨p, rest⟩
    · exact ⟨h, by simp [listUpdateFrom], hI, hP, hp⟩
    obtain ⟨hpre, hrest⟩ := LinkPath.append_cons_iff.mp hp
    have hlive : (h.node p).isSome := by
      refine hI.live_of_path hp (fun i hi => ?_) p (by simp)
      rw [← Option.some.inj hi, ← Heap.info_isSome, hs, Option.isSome_some]
    obtain ⟨n, hn⟩ := Option.isSome_iff_exists.mp hlive
    have hhead : n.next = rest.head? := by rw [← Heap.next_of_node hn, hrest.eq_head?]
    rw [List.head?_cons, listUpdateFrom]
    simp only [Heap.getNode_eq_ok.mpr hn, ok_bind]
    by_cases hexp : n.expired now = true
    · -- an expired node is erased, and the rest of the list is unchanged
      rw [if_pos hexp]
      obtain ⟨hps, w, he⟩ := exists_erases hI hsub hp hs hd hn hexp
      have hu := he.unlinks
      have hpath := hu.path (l := l) hp (by simpa using hps.symm)
      have hnodup := hp.nodup
      rw [Unlinks.filter_ne_of_nodup hnodup] at hpath
      rw [hu.erase_ok, ok_bind, hhead]
      obtain ⟨h', hr, hI', hP', hp'⟩ := ih pre rest size
        (h := erasedHeap h l w p n.next) (Heap.Inv.erase hu) (hstep hP he)
        (fun x hx => hsub (by simp at hx ⊢; tauto)) hpath
        (by rw [erasedHeap_info, Function.update_of_ne hps.symm, hs]) (by simpa using hf)
      rw [filter_expiredAt_erasedHeap hnodup] at hr hp'
      rw [hhead] at hr
      have hdrop : (!h.expiredAt now p) = false := by
        rw [Heap.expiredAt_of_node hn, hexp]
        rfl
      rw [List.filter_cons_of_neg (by simp [hdrop])]
      exact ⟨h', hr, hI', hP', hp'⟩
    · -- a node that is kept joins the part already done
      rw [if_neg hexp, hhead]
      have hkeep : (!h.expiredAt now p) = true := by
        rw [Heap.expiredAt_of_node hn]
        simpa using hexp
      obtain ⟨h', hr, hI', hP', hp'⟩ := ih (pre ++ [p]) rest (size + 1) hI hP
        (by simpa using hsub) (by simpa using hp) hs (by simpa using hf)
      rw [List.filter_cons_of_pos (by simp [hkeep])]
      refine ⟨h', ?_, hI', hP', by simpa using hp'⟩
      rw [hr, List.length_cons, UInt64.ofNat_add, UInt64.add_assoc,
        UInt64.add_comm 1 (UInt64.ofNat _)]
      rfl

/-- **An update** of a list with the nodes `ids` succeeds, keeps what every erasure keeps, leaves
the nodes that are not expired, and returns their number. -/
theorem listUpdate_spec (now : ℤ) {P : Heap → Prop} {ids : List ℕ} (hI : h.Inv S)
    (hc : h.Chain l ids) (hP : P h)
    (hstep : ∀ {h w p n}, P h → Erases S now ids h w p n → P (erasedHeap h l w p n.next)) :
    ∃ h', listUpdate h l now =
        .ok (h', .ofNat (ids.filter (!h.expiredAt now ·)).length - 1) ∧ h'.Inv S ∧ P h' ∧
      h'.Chain l (ids.filter (!h.expiredAt now ·)) := by
  obtain ⟨list, hl, hp, hlive⟩ := hc
  obtain ⟨s, m, hs, hm, hd⟩ := hI.head hl
  -- the list keeps its head node through the erasures
  have hstep' : ∀ {h w p n}, (P h ∧ ∃ list, h.list l = some list ∧ list.head = some s) →
      Erases S now ids h w p n → P (erasedHeap h l w p n.next) ∧
        ∃ list, (erasedHeap h l w p n.next).list l = some list ∧ list.head = some s := by
    rintro h w p n ⟨hP, list, hl, hs⟩ he
    obtain ⟨list', hl', hh⟩ := he.unlinks.list_of_list (l := l) hl
    exact ⟨hstep hP he, list', hl', hh.trans hs⟩
  obtain ⟨h', hr, hI', ⟨hP', list', hl', hs'⟩, hp'⟩ := listUpdateFrom_spec
    hstep' h.nextNode [] ids 0 hI ⟨hP, list, hl, hs⟩ (List.Subset.refl _)
    (by simpa [hs] using hp) hm hd (Heap.length_le_of_live hp.nodup hlive)
  refine ⟨h', ?_, hI', hP', list', hl', hs' ▸ hp', ?_⟩
  · rw [listUpdate, Heap.getList_eq_ok.mpr hl, ok_bind, if_neg (by simp [hs]), hp.eq_head?, hr]
    simp
  · obtain ⟨s₀, m₀, hs₀, hm₀, -⟩ := hI'.head hl'
    apply hI'.live_of_path hp'
    intro i hi
    rw [← Option.some.inj hi, ← Heap.info_isSome, Option.some.inj (hs'.symm.trans hs₀), hm₀,
      Option.isSome_some]

/-! ## What an update leaves alone -/

variable {ids : List ℕ} {size : UInt64}

/-- What every erasure keeps, an update keeps. -/
theorem listUpdate_keeps {P : Heap → Prop} (hI : h.Inv S) (hc : h.Chain l ids)
    (hr : listUpdate h l now = .ok (h', size)) (hP : P h)
    (hstep : ∀ {h w p n}, P h → Erases S now ids h w p n → P (erasedHeap h l w p n.next)) :
    P h' := by
  obtain ⟨h₁, hr₁, -, hP₁, -⟩ := listUpdate_spec now hI hc hP hstep
  cases hr.symm.trans hr₁
  exact hP₁

/-- **An update** keeps the invariant, and leaves the nodes that are not expired. -/
theorem listUpdate_chain (hI : h.Inv S) (hc : h.Chain l ids)
    (hr : listUpdate h l now = .ok (h', size)) :
    h'.Inv S ∧ h'.Chain l (ids.filter (!h.expiredAt now ·)) := by
  obtain ⟨h₁, hr₁, hI₁, -, hc₁⟩ := listUpdate_spec now (P := fun _ => True) hI hc
    trivial fun _ _ => trivial
  cases hr.symm.trans hr₁
  exact ⟨hI₁, hc₁⟩

theorem listUpdate_ok (hI : h.Inv S) (hc : h.Chain l ids) (now : ℤ) :
    ∃ h' size, listUpdate h l now = .ok (h', size) := by
  obtain ⟨h', hr, -⟩ := listUpdate_spec now (P := fun _ => True) hI hc
    trivial fun _ _ => trivial
  exact ⟨h', _, hr⟩

/-- An update changes no information: it only frees nodes. -/
theorem listUpdate_info (hI : h.Inv S) (hc : h.Chain l ids)
    (hr : listUpdate h l now = .ok (h', size)) {x : ℕ} (hm : h'.info x = some m) :
    h.info x = some m :=
  listUpdate_keeps (P := fun h₁ => ∀ {x m}, h₁.info x = some m → h.info x = some m) hI hc hr id
    (fun hP he _ _ hm => hP (he.unlinks.info_of_erased hm).2) hm

theorem listUpdate_info_eq (hI : h.Inv S) (hc : h.Chain l ids)
    (hr : listUpdate h l now = .ok (h', size)) {x : ℕ} (hx : (h'.node x).isSome) :
    h'.info x = h.info x := by
  obtain ⟨m, hm⟩ := Heap.exists_info hx
  exact hm.trans (listUpdate_info hI hc hr hm).symm

/-- An update leaves the nodes of other lists alone. -/
theorem listUpdate_node (hI : h.Inv S) (hc : h.Chain l ids)
    (hr : listUpdate h l now = .ok (h', size)) {x : ℕ} (hx : x ∉ ids) : h'.node x = h.node x := by
  refine listUpdate_keeps (P := fun h₁ => h₁.node x = h.node x) hI hc hr rfl fun hP he => ?_
  rw [erasedHeap_node he.unlinks.live he.unlinks.next_live, hP]
  · exact fun e => hx (e ▸ he.mem)
  · exact fun e => hx (e ▸ he.pred_mem)
  · exact fun e => hx (he.next_mem x e)

/-- An update leaves the other lists alone. -/
theorem listUpdate_list (hI : h.Inv S) (hc : h.Chain l ids)
    (hr : listUpdate h l now = .ok (h', size)) {k : ℕ} (hk : k ≠ l) : h'.list k = h.list k := by
  refine listUpdate_keeps (P := fun h₁ => h₁.list k = h.list k) hI hc hr rfl fun hP _ => ?_
  rw [erasedHeap_list, Function.update_of_ne hk, hP]

/-- An update frees no list. -/
theorem listUpdate_isSome (hI : h.Inv S) (hc : h.Chain l ids)
    (hr : listUpdate h l now = .ok (h', size)) (k : ℕ) :
    (h'.list k).isSome = (h.list k).isSome := by
  refine listUpdate_keeps (P := fun h₁ => (h₁.list k).isSome = (h.list k).isSome) hI hc hr rfl
    fun {h₁ _ _ _} hP _ => ?_
  rw [erasedHeap_list, ← hP]
  by_cases hk : k = l
  · rw [hk, Function.update_self, Option.isSome_map]
  · rw [Function.update_of_ne hk]

theorem listUpdate_fresh (hI : h.Inv S) (hc : h.Chain l ids)
    (hr : listUpdate h l now = .ok (h', size)) :
    h'.nextNode = h.nextNode ∧ h'.nextList = h.nextList :=
  listUpdate_keeps (P := fun h₁ => h₁.nextNode = h.nextNode ∧ h₁.nextList = h.nextList) hI hc hr
    ⟨rfl, rfl⟩ fun hP _ => by rwa [erasedHeap_nextNode, erasedHeap_nextList]

theorem Heap.Inv.head_info (hI : h.Inv S) {s : ℕ} (hc : h.Chain l (s :: ids)) :
    ∃ m, h.info s = some m ∧ m.data = none := by
  obtain ⟨list, hl, ⟨hs, -⟩, -⟩ := hc
  obtain ⟨s', m, hs', hm, hd⟩ := hI.head hl
  obtain rfl : s = s' := Option.some.inj (hs.symm.trans hs')
  exact ⟨m, hm, hd⟩

/-- The head node of a list stays. -/
theorem Heap.Inv.head_not_expired (hI : h.Inv S) {s : ℕ} (hc : h.Chain l (s :: ids)) (now : ℤ) :
    h.expiredAt now s = false := by
  obtain ⟨m, hm, hd⟩ := hI.head_info hc
  have := hI.ttl hm hd
  simp [expiredAt, hm, ListNode.expired, this]

/-- A chain apart from an updated list stays. -/
theorem listUpdate_chain_of_disjoint (hI : h.Inv S) (hc : h.Chain l ids)
    (hr : listUpdate h l now = .ok (h', size)) {k : ℕ} {ks : List ℕ} (hk : h.Chain k ks)
    (hkl : k ≠ l) (hd : ids.Disjoint ks) : h'.Chain k ks := by
  obtain ⟨list, hlist, hp, hlive⟩ := hk
  have hn : ∀ x ∈ ks, h'.node x = h.node x := fun x hx =>
    listUpdate_node hI hc hr fun hx' => hd hx' hx
  refine ⟨list, by rw [listUpdate_list hI hc hr hkl, hlist], hp.congr fun x hx => ?_,
    fun x hx => ?_⟩
  · rw [Heap.next, Heap.next, hn x hx]
  · rw [hn x hx]
    exact hlive x hx

/-- An erasure keeps the tail at the end of its list. -/
theorem Unlinks.tailLast (he : Unlinks S h w p n) (hl : h.TailLast l) :
    (erasedHeap h l w p n.next).TailLast l := by
  obtain ⟨list, xs, t, hlist, ht, hc⟩ := hl
  obtain ⟨list₀, hlist₀, hp, -⟩ := hc
  obtain rfl := Option.some.inj (hlist.symm.trans hlist₀)
  have hhead := he.ne_head hlist
  have hpath := he.path (l := l) hp hhead
  -- the new tail is `w` when the old one is erased, and the old one otherwise
  obtain ⟨ys, t', hys, htail⟩ : ∃ ys t', (xs ++ [t]).filter (· ≠ p) = ys ++ [t'] ∧
      (if list.tail = some p then some w else list.tail) = some t' := by
    by_cases htp : t = p
    · subst htp
      rw [filter_ne_of_nodup hp.nodup, List.append_nil, if_pos ht]
      rcases List.eq_nil_or_concat xs with rfl | ⟨xs, v, rfl⟩
      · exact absurd hp.1 hhead
      rw [List.concat_eq_append] at hp ⊢
      obtain rfl : v = w := he.unique (LinkPath.concat_iff.mp (LinkPath.concat_iff.mp hp).1).2
      exact ⟨xs, v, rfl, rfl⟩
    · refine ⟨xs.filter (· ≠ p), t, ?_, ?_⟩
      · rw [List.filter_append, List.filter_cons_of_pos (by simpa using htp), List.filter_nil]
      · rw [if_neg (by rw [ht]; simpa using htp), ht]
  obtain ⟨list', hlist', hh⟩ := he.list_of_list (l := l) hlist
  refine ⟨list', ys, t', hlist', ?_, list', hlist', ?_, fun i hi => ?_⟩
  · rw [← htail]
    rw [erasedHeap_list, Function.update_self, hlist, Option.map_some] at hlist'
    rw [← Option.some.inj hlist']
  · rw [hh, ← hys]
    exact hpath
  · rw [← hys] at hi
    rw [← Heap.info_isSome, erasedHeap_info]
    obtain ⟨hi, hip⟩ := List.mem_filter.mp hi
    rw [Function.update_of_ne (by simpa using hip), Heap.info_isSome]
    obtain ⟨s, m, hs, hm, -⟩ := he.inv.head hlist
    refine he.inv.live_of_path hp (fun j hj => ?_) i hi
    rw [← Option.some.inj (hs.symm.trans hj), ← Heap.info_isSome, hm, Option.isSome_some]

end Adrift
