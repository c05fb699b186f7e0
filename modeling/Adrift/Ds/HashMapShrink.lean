import Adrift.Ds.HashMapRun
import Adrift.Ds.ListTable

/-!
# Shrinking the hash map

`hash_map_shrink` updates the list of every entry, and frees the entries whose lists become empty.
The destructor that it calls frees the rest of the chain, too, so the walk is only safe when the
entries it drops are the last ones of their chains.

## Main definitions

* `EntryLists h members es`: the lists of the entries are distinct, and represent their members
* `Shrunk now members es h h'`: the lists of the entries have been updated, and no other
* `ShrinksExactly h m now`: a shrink drops the dead keys and no other
* `DeadLast h m now`: in every chain, only the last entry may be dead

## Main results

* `HashMap.Run.table`: the lists of a hash map represent the nodes of the keys
* `shrinkChain_spec`: what a walk over a chain does
* `shrinksExactly_iff`: a shrink drops exactly the dead keys when they are the last of their chains
-/

namespace Adrift

open Outcome

variable {h₀ h h' : Heap} {m m' : HashMap} {k : CString} {e : HashMapEntry} {es : List HashMapEntry}
  {l s : ℕ} {ids : List ℕ} {now : ℤ} {members : ℕ → List ℕ}

/-- **The lists of a hash map represent the nodes of the keys** after any inserts. -/
theorem HashMap.Run.table (hrun : HashMap.Run Heap.InNoList h₀ h m) (hL : h₀.Lists members) :
    ∃ nodes, Table m.Has nodes h := by
  induction hrun with
  | start => exact ⟨_, .empty hL hashMapCtor_has⟩
  | nodeCtor data rrType recordTime ttl _ ih =>
    obtain ⟨nodes, hT⟩ := ih
    exact ⟨nodes, hT.alloc rfl rfl⟩
  | insert hrun _ hp hr ih =>
    obtain ⟨nodes, hT⟩ := ih
    obtain ⟨l, hhas, hpush, -⟩ := hashMapInsert_cases hrun.wellFormed.inv hr
    exact ⟨_, hT.push hp (.of_or hpush) hhas⟩

/-! ## Chains -/

/-- The unexpired nodes of the list `l`, where `members` are those of all lists. -/
def Heap.kept (h : Heap) (now : ℤ) (members : ℕ → List ℕ) (l : ℕ) : List ℕ :=
  (members l).filter (!h.expiredAt now ·)

/-- `list_update` returns a size other than zero for the list of the entry. -/
def Heap.survives (h : Heap) (now : ℤ) (members : ℕ → List ℕ) (e : HashMapEntry) : Bool :=
  UInt64.ofNat (h.kept now members e.value).length ≠ 0

/-- The lists of the entries are distinct, and represent their members. -/
structure EntryLists (h : Heap) (members : ℕ → List ℕ) (es : List HashMapEntry) : Prop where
  inv : h.Inv ∅
  distinct : (es.map (·.value)).Nodup
  rep : ∀ e ∈ es, ∃ s, h.Rep e.value s (members e.value)

/-- **The entries `es` are done**: the lists of those that survive have lost their expired nodes,
and the other lists are left alone. -/
structure Shrunk (now : ℤ) (members : ℕ → List ℕ) (es : List HashMapEntry) (h h' : Heap) :
    Prop where
  inv : h'.Inv ∅
  info : ∀ x, (h'.node x).isSome → h'.info x = h.info x
  kept : ∀ e ∈ es, h.survives now members e = true →
    ∃ s, h'.Rep e.value s (h.kept now members e.value)
  frame : ∀ {l s ids}, (∀ e ∈ es, l ≠ e.value) → h.Rep l s ids → h'.Rep l s ids

namespace Shrunk

theorem nil (hI : h.Inv ∅) : Shrunk now members [] h h :=
  ⟨hI, fun _ _ => rfl, by simp, fun _ hr => hr⟩

/-- A list that is left alone keeps its unexpired nodes. -/
theorem kept_eq (hs : Shrunk now members es h h') (hr : h'.Rep l s (members l)) :
    h'.kept now members l = h.kept now members l :=
  hr.filter_expiredAt hs.info now

/-- **An update** of the list of an entry. -/
theorem update (hI : h.Inv ∅) (hr : h.Rep e.value s (members e.value)) (now : ℤ) :
    ∃ h', listUpdate h e.value now = .ok (h', .ofNat (h.kept now members e.value).length) ∧
      Shrunk now members [e] h h' ∧ (h'.list e.value).isSome := by
  obtain ⟨h', hrun, hI', hr', -⟩ := hr.update hI now
  refine ⟨h', hrun, ⟨hI', fun x hx => listUpdate_info_eq hI hr.chain hrun hx, fun d hd _ => ?_,
    fun hl hrl => hrl.update_other hr hI (hl e List.mem_cons_self) hrun⟩, by rw [hr'.cell]; rfl⟩
  rw [List.mem_singleton.mp hd]
  exact ⟨s, hr'⟩

/-- **A dead entry is freed**, without its nodes. -/
theorem free (hs : Shrunk now members [e] h h') (hdead : h.survives now members e = false) :
    Shrunk now members [e] h (h'.freeList e.value) := by
  have hI := hs.inv
  have hold := fun {k list} (hk : (h'.freeList e.value).list k = some list) =>
    (Heap.freeList_eq_some hk).2
  refine ⟨⟨fun hl => hI.head (hold hl), fun hl hl' => hI.head_inj (hold hl) (hold hl'), hI.ttl,
    hI.next, hI.ends, hI.pred, hI.shared, hI.shared_lt, fun hl => hI.tail_lt (hold hl)⟩,
    hs.info, fun d hd hsurv => ?_, fun hl hr => (hs.frame hl hr).congr ?_ fun _ _ => rfl⟩
  · rw [List.mem_singleton.mp hd, hdead] at hsurv
    cases hsurv
  · rw [Heap.freeList_list, Function.update_of_ne (hl e List.mem_cons_self)]

end Shrunk

namespace EntryLists

variable {fs : List HashMapEntry}

theorem left (hE : EntryLists h members (es ++ fs)) : EntryLists h members es where
  inv := hE.inv
  distinct := by
    have hd := hE.distinct
    rw [List.map_append] at hd
    exact (List.nodup_append.mp hd).1
  rep e he := hE.rep e (List.mem_append_left _ he)

/-- The lists of the others stay when the first entries are done. -/
theorem frame (hE : EntryLists h members (es ++ fs)) (hs : Shrunk now members es h h')
    {d : HashMapEntry} (hd : d ∈ fs) {s : ℕ} {ids : List ℕ} (hr : h.Rep d.value s ids) :
    h'.Rep d.value s ids := by
  refine hs.frame (fun e he heq => ?_) hr
  have hdist := hE.distinct
  rw [List.map_append] at hdist
  refine (List.nodup_append.mp hdist).2.2 _ (List.mem_map_of_mem he) _ ?_ heq.symm
  exact List.mem_map_of_mem (f := (·.value)) hd

/-- **The other entries** are as they were after the first ones are done. -/
theorem right (hE : EntryLists h members (es ++ fs)) (hs : Shrunk now members es h h') :
    EntryLists h' members fs where
  inv := hs.inv
  distinct := by
    have hd := hE.distinct
    rw [List.map_append] at hd
    exact (List.nodup_append.mp hd).2.1
  rep d hd := (hE.rep d (List.mem_append_right _ hd)).imp fun _ => hE.frame hs hd

theorem kept_eq (hE : EntryLists h members (es ++ fs)) (hs : Shrunk now members es h h')
    {d : HashMapEntry} (hd : d ∈ fs) :
    h'.kept now members d.value = h.kept now members d.value := by
  obtain ⟨s, hr⟩ := (hE.right hs).rep d hd
  exact hs.kept_eq hr

theorem survives_eq (hE : EntryLists h members (es ++ fs)) (hs : Shrunk now members es h h')
    {d : HashMapEntry} (hd : d ∈ fs) : h'.survives now members d = h.survives now members d := by
  rw [Heap.survives, Heap.survives, hE.kept_eq hs hd]

/-- **First some entries are done, and then the others**. -/
theorem trans {h₁ : Heap} (hE : EntryLists h members (es ++ fs)) (hs : Shrunk now members es h h₁)
    (hs' : Shrunk now members fs h₁ h') : Shrunk now members (es ++ fs) h h' where
  inv := hs'.inv
  info := Heap.info_trans hs.info hs'.info
  kept e he hsurv := by
    rcases List.mem_append.mp he with he | he
    · -- the lists of the first entries are left alone by the others
      obtain ⟨s, hr⟩ := hs.kept e he hsurv
      refine ⟨s, hs'.frame (fun d hd heq => ?_) hr⟩
      have hdist := hE.distinct
      rw [List.map_append] at hdist
      refine (List.nodup_append.mp hdist).2.2 _ (List.mem_map_of_mem he) _ ?_ heq
      exact List.mem_map_of_mem (f := (·.value)) hd
    · rw [← hE.kept_eq hs he]
      exact hs'.kept e he ((hE.survives_eq hs he).trans hsurv)
  frame hl hr := hs'.frame (fun e he => hl e (List.mem_append_right _ he))
    (hs.frame (fun e he => hl e (List.mem_append_left _ he)) hr)

end EntryLists

/-- **A walk over a chain** whose dead entries are the last ones keeps the entries that survive. -/
theorem shrinkChain_spec (size : ℕ) (hE : EntryLists h members es)
    (hlast : ∀ pre e post, es = pre ++ e :: post → h.survives now members e = false →
      post = []) :
    ∃ h', shrinkChain now h size es =
        .ok (h', size - (es.filter (!h.survives now members ·)).length,
          es.filter (h.survives now members)) ∧ Shrunk now members es h h' := by
  induction es generalizing h size with
  | nil => exact ⟨h, rfl, .nil hE.inv⟩
  | cons e es ih =>
    replace hE : EntryLists h members ([e] ++ es) := hE
    obtain ⟨s, hr⟩ := hE.rep e List.mem_cons_self
    obtain ⟨h₁, hrun, hs₁, hlive⟩ := Shrunk.update hE.inv hr now
    rw [shrinkChain, hrun, ok_bind]
    by_cases hsurv : h.survives now members e = true
    · -- the walk goes on in the heap after the update, where the other entries survive as before
      obtain ⟨h', hrest, hs'⟩ := ih size (hE.right hs₁) <| by
        intro pre d post hes hdead
        refine hlast (e :: pre) d post (by rw [hes]; rfl) ?_
        rw [← hE.survives_eq hs₁ (by rw [hes]; simp), hdead]
      have hkeep : es.filter (h₁.survives now members) = es.filter (h.survives now members) :=
        List.filter_congr fun d hd => hE.survives_eq hs₁ hd
      have hdrop : es.filter (!h₁.survives now members ·) = es.filter (!h.survives now members ·) :=
        List.filter_congr fun d hd => by rw [hE.survives_eq hs₁ hd]
      refine ⟨h', ?_, hE.trans hs₁ hs'⟩
      rw [List.filter_cons_of_pos hsurv, List.filter_cons_of_neg (by simp [hsurv]), ← hkeep,
        ← hdrop]
      simp only [Heap.survives, decide_eq_true_eq] at hsurv
      simp only [if_pos hsurv, hrest]
      rfl
    · -- a dead entry is the last one, and is freed alone
      rw [Bool.not_eq_true] at hsurv
      obtain rfl := hlast [] e es rfl hsurv
      refine ⟨h₁.freeList e.value, ?_, hs₁.free hsurv⟩
      obtain ⟨list, hlist⟩ := Option.isSome_iff_exists.mp hlive
      have hkeep : [e].filter (h.survives now members) = [] := by simp [hsurv]
      have hdrop : [e].filter (!h.survives now members ·) = [e] := by simp [hsurv]
      rw [hkeep, hdrop]
      simp only [Heap.survives, decide_eq_false_iff_not] at hsurv
      simp only [if_neg hsurv, hashMapEntryDtor, ok_bind, Heap.getList_eq_ok.mpr hlist]
      rfl

/-- **A walk over a chain returns** only when its dead entries are the last ones. -/
theorem shrinkChain_last {size : ℕ} {r : Heap × ℕ × List HashMapEntry}
    (hE : EntryLists h members es) (hr : shrinkChain now h size es = .ok r)
    (pre : List HashMapEntry) (e : HashMapEntry) (post : List HashMapEntry)
    (hes : es = pre ++ e :: post) (hdead : h.survives now members e = false) : post = [] := by
  induction es generalizing h size r pre with
  | nil => simp at hes
  | cons d es ih =>
    replace hE : EntryLists h members ([d] ++ es) := hE
    obtain ⟨s, hrd⟩ := hE.rep d List.mem_cons_self
    obtain ⟨h₁, hrun, hs₁, -⟩ := Shrunk.update hE.inv hrd now
    rw [shrinkChain, hrun, ok_bind] at hr
    by_cases hsurv : h.survives now members d = true
    · rcases pre with _ | ⟨c, pre⟩
      · -- the dead entry is not the one that survives
        obtain ⟨rfl, rfl⟩ := List.cons.inj hes
        rw [hdead] at hsurv
        cases hsurv
      · obtain ⟨rfl, rfl⟩ := List.cons.inj hes
        simp only [Heap.survives, decide_eq_true_eq] at hsurv
        simp only [if_pos hsurv] at hr
        obtain ⟨r', hr', -⟩ := bind_eq_ok.mp hr
        refine ih (hE.right hs₁) hr' pre rfl ?_
        rw [hE.survives_eq hs₁ (by simp), hdead]
    · -- the walk would go on at a freed entry
      simp only [Heap.survives, decide_eq_true_eq] at hsurv
      simp only [if_neg hsurv] at hr
      obtain ⟨h₂, -, hr⟩ := bind_eq_ok.mp hr
      cases es with
      | nil =>
        have hlen := congrArg List.length hes
        simp only [List.length_cons, List.length_nil, List.length_append] at hlen
        exact List.length_eq_zero_iff.mp (by omega)
      | cons c es => cases hr

/-! ## The table -/

/-- The hash map with the entries of the buckets `is` that are kept. -/
def HashMap.filterAt (m : HashMap) (keep : HashMapEntry → Bool) (is : List ℕ) : HashMap where
  table i := if i ∈ is then (m.table i).filter keep else m.table i
  size := m.size - ((is.flatMap m.table).filter (!keep ·)).length
  capacity := m.capacity

/-- The hash map with the entries of the bucket `i` that are kept. -/
def HashMap.filterBucket (m : HashMap) (keep : HashMapEntry → Bool) (i : ℕ) : HashMap where
  table := Function.update m.table i ((m.table i).filter keep)
  size := m.size - ((m.table i).filter (!keep ·)).length
  capacity := m.capacity

theorem HashMap.filterBucket_table (m : HashMap) (keep : HashMapEntry → Bool) {i : ℕ} {is : List ℕ}
    (hi : i ∉ is) {j : ℕ} (hj : j ∈ is) : (m.filterBucket keep i).table j = m.table j :=
  Function.update_of_ne (ne_of_mem_of_not_mem hj hi) ..

/-- The first bucket is filtered, and then the others. -/
theorem HashMap.filterAt_cons {keep keep' : HashMapEntry → Bool} {i : ℕ} {is : List ℕ}
    (hi : i ∉ is) (hkeep : ∀ j ∈ is, ∀ e ∈ m.table j, keep' e = keep e) :
    (m.filterBucket keep i).filterAt keep' is = m.filterAt keep (i :: is) := by
  have hm : ∀ j ∈ is, (m.filterBucket keep i).table j = m.table j := fun _ =>
    m.filterBucket_table keep hi
  have hflat : (is.flatMap m.table).filter (!keep' ·) = (is.flatMap m.table).filter (!keep ·) := by
    apply List.filter_congr
    intro e he
    obtain ⟨j, hj, he⟩ := List.mem_flatMap.mp he
    rw [hkeep j hj e he]
  rw [HashMap.filterAt, HashMap.filterAt, HashMap.mk.injEq]
  refine ⟨?_, ?_, rfl⟩
  · funext j
    by_cases hj : j ∈ is
    · rw [if_pos hj, hm j hj, if_pos (List.mem_cons_of_mem _ hj)]
      exact List.filter_congr (hkeep j hj)
    · rw [if_neg hj]
      show Function.update m.table i ((m.table i).filter keep) j = _
      by_cases hji : j = i
      · rw [hji, Function.update_self, if_pos List.mem_cons_self]
      · rw [Function.update_of_ne hji, if_neg (by simp [hji, hj])]
  · rw [List.flatMap_congr hm, hflat, List.flatMap_cons, List.filter_append, List.length_append,
      HashMap.filterBucket, Nat.sub_sub]

/-- **The walks over the buckets** keep the entries that survive. -/
theorem shrinkBuckets_spec {is : List ℕ} (hd : is.Nodup)
    (hE : EntryLists h members (is.flatMap m.table))
    (hlast : ∀ i ∈ is, ∀ pre e post, m.table i = pre ++ e :: post →
      h.survives now members e = false → post = []) :
    ∃ h', is.foldlM (shrinkBucket now) (h, m) = .ok (h', m.filterAt (h.survives now members) is) ∧
      Shrunk now members (is.flatMap m.table) h h' := by
  induction is generalizing h m with
  | nil => exact ⟨h, by simp [HashMap.filterAt], .nil hE.inv⟩
  | cons i is ih =>
    obtain ⟨hi, hd⟩ := List.nodup_cons.mp hd
    rw [List.flatMap_cons] at hE ⊢
    obtain ⟨h₁, hrun, hs₁⟩ := shrinkChain_spec m.size hE.left (hlast i List.mem_cons_self)
    have hm : ∀ j ∈ is, (m.filterBucket (h.survives now members) i).table j = m.table j :=
      fun _ => m.filterBucket_table _ hi
    have hsame : ∀ j ∈ is, ∀ e ∈ m.table j,
        h₁.survives now members e = h.survives now members e := fun j hj e he =>
      hE.survives_eq hs₁ (List.mem_flatMap.mpr ⟨j, hj, he⟩)
    have hE₁ := hE.right hs₁
    -- the other chains are the same in the table without the dead entries of the first
    rw [← List.flatMap_congr hm] at hE₁
    obtain ⟨h', hrest, hs'⟩ := ih hd hE₁ <| by
      intro j hj pre e post hes hdead
      rw [hm j hj] at hes
      refine hlast j (List.mem_cons_of_mem _ hj) pre e post hes ?_
      rw [← hsame j hj e (by simp [hes]), hdead]
    rw [List.flatMap_congr hm] at hs'
    refine ⟨h', ?_, hE.trans hs₁ hs'⟩
    have hstep : shrinkBucket now (h, m) i =
        .ok (h₁, m.filterBucket (h.survives now members) i) := by
      rw [shrinkBucket, hrun]
      rfl
    rw [List.foldlM_cons, hstep, ok_bind, hrest, HashMap.filterAt_cons hi hsame]

/-- **The walks over the buckets return** only when the dead entries are the last ones. -/
theorem shrinkBuckets_last {is : List ℕ} {r : Heap × HashMap} (hd : is.Nodup)
    (hE : EntryLists h members (is.flatMap m.table))
    (hr : is.foldlM (shrinkBucket now) (h, m) = .ok r) :
    ∀ i ∈ is, ∀ pre e post, m.table i = pre ++ e :: post →
      h.survives now members e = false → post = [] := by
  induction is generalizing h m with
  | nil => simp
  | cons i is ih =>
    obtain ⟨hi, hd⟩ := List.nodup_cons.mp hd
    rw [List.flatMap_cons] at hE
    rw [List.foldlM_cons] at hr
    obtain ⟨r₁, hstep, hr⟩ := bind_eq_ok.mp hr
    obtain ⟨r₀, hchain, hr₁⟩ := bind_eq_ok.mp hstep
    have hlast := shrinkChain_last hE.left hchain
    obtain ⟨h₁, hrun, hs₁⟩ := shrinkChain_spec m.size hE.left hlast
    obtain rfl : r₁ = (h₁, m.filterBucket (h.survives now members) i) := by
      rw [hrun] at hchain
      cases hchain
      cases hr₁
      rfl
    have hm : ∀ j ∈ is, (m.filterBucket (h.survives now members) i).table j = m.table j :=
      fun _ => m.filterBucket_table _ hi
    have hE₁ := hE.right hs₁
    rw [← List.flatMap_congr hm] at hE₁
    refine List.forall_mem_cons.mpr ⟨hlast, fun j hj pre e post hes hdead => ?_⟩
    refine ih hd hE₁ hr j hj pre e post ((hm j hj).trans hes) ?_
    rw [hE.survives_eq hs₁ (List.mem_flatMap.mpr ⟨j, hj, by simp [hes]⟩), hdead]

/-! ## The keys -/

/-- The lists of the entries are those of the keys. -/
theorem HashMap.WellFormed.entryLists {nodes : CString → List ℕ} (hw : m.WellFormed)
    (hT : Table m.Has nodes h) : ∃ members, (∀ {k l}, m.Has k l → members l = nodes k) ∧
      EntryLists h members m.entries := by
  obtain ⟨members, hL, hm⟩ := hT.lists
  have hhas : ∀ {e}, e ∈ m.entries → ∃ k, e.Holds k ∧ m.Has k e.value := by
    intro e he
    obtain ⟨i, -, hei⟩ := List.mem_flatMap.mp he
    obtain ⟨k, hk, -⟩ := hw.holds e he
    exact ⟨k, hk, hw.inv.has_of_mem hei hk⟩
  refine ⟨members, hm, hL.inv, ?_, fun e he => ?_⟩
  · -- entries with the same list have the same key
    apply hw.inv.entries_nodup.map_on
    intro e he d hd heq
    obtain ⟨k, hk, hl⟩ := hhas he
    obtain ⟨k', hk', hl'⟩ := hhas hd
    obtain rfl := hT.inj hl (heq ▸ hl')
    exact List.inj_on_of_nodup_map hw.distinct he hd (hk.key.trans hk'.key.symm)
  · obtain ⟨k, -, hl⟩ := hhas he
    exact hL.rep (hT.live hl)

/-- The hash map with the entries that are kept. -/
def HashMap.filter (m : HashMap) (keep : HashMapEntry → Bool) : HashMap :=
  m.filterAt keep (List.range m.capacity)

theorem HashMap.entries_filter (m : HashMap) (keep : HashMapEntry → Bool) :
    (m.filter keep).entries = m.entries.filter keep := by
  rw [HashMap.entries, HashMap.entries, List.filter_flatMap]
  exact List.flatMap_congr fun i hi => if_pos hi

namespace HashMap.WellFormed

variable {keep : HashMapEntry → Bool}

theorem mem_filter (hw : m.WellFormed) {i : ℕ} :
    e ∈ (m.filter keep).table i ↔ e ∈ m.table i ∧ keep e = true := by
  have hfilter : (m.filter keep).table i =
    if i ∈ List.range m.capacity then (m.table i).filter keep else m.table i := rfl
  rw [hfilter]
  split_ifs with hi
  · exact List.mem_filter
  · -- behind the table there is no entry
    exact iff_of_false (fun he => hi (hw.mem_range he)) fun he => hi (hw.mem_range he.1)

/-- **Dropping entries** keeps the hash map well formed. -/
theorem filter (hw : m.WellFormed) (keep : HashMapEntry → Bool) : (m.filter keep).WellFormed := by
  have hentries := m.entries_filter keep
  have hlen := List.length_eq_length_filter_add (l := m.entries) keep
  have hsize : (m.filter keep).size = (m.filter keep).entries.length := by
    have hdrop : (m.filter keep).size = m.size - (m.entries.filter (!keep ·)).length := rfl
    rw [hdrop, hentries, hw.size]
    omega
  refine ⟨fun i e he => hw.bucket i e (hw.mem_filter.mp he).1, fun e he => ?_, ?_, hsize,
    hw.capacity, ?_⟩
  · rw [hentries] at he
    exact hw.holds e (List.mem_filter.mp he).1
  · rw [hentries]
    exact hw.distinct.sublist (List.filter_sublist.map _)
  · have hload := hw.load
    have hcap : (m.filter keep).capacity = m.capacity := rfl
    rw [hsize, hcap, hentries]
    rw [hw.size] at hload
    omega

/-- A key is found afterwards when its entry is kept. -/
theorem filter_has (hw : m.WellFormed) {l : ℕ} :
    (m.filter keep).Has k l ↔
      ∃ i, ∃ e ∈ m.table i, e.Holds k ∧ e.value = l ∧ keep e = true := by
  constructor
  · rintro ⟨e, he, hk, hl⟩
    obtain ⟨he, hkeep⟩ := hw.mem_filter.mp he
    exact ⟨_, e, he, hk, hl, hkeep⟩
  · rintro ⟨i, e, he, hk, rfl, hkeep⟩
    exact (hw.filter keep).inv.has_of_mem (hw.mem_filter.mpr ⟨he, hkeep⟩) hk

end HashMap.WellFormed

/-- **A shrink drops exactly the dead keys**: it returns, so that it never follows an entry that it
freed; the lists of the remaining entries are live; every key is found with its unexpired nodes, and
not at all when there are none; and the size is the number of the entries. -/
def ShrinksExactly (h : Heap) (m : HashMap) (now : ℤ) : Prop :=
  ∃ h' m', hashMapShrink h m now = .ok (h', m') ∧
    (∀ e ∈ m'.entries, (h'.list e.value).isSome) ∧
    (∀ k ids, h.Finds (hashMapFind m k) ids →
      h'.Finds (hashMapFind m' k) (ids.filter (!h.expiredAt now ·))) ∧
    m'.size = m'.entries.length

/-- **Only the last entry of a chain is dead**: an entry whose unexpired nodes number zero, as a
`size_t`, has none, and ends its chain. -/
def DeadLast (h : Heap) (m : HashMap) (now : ℤ) : Prop :=
  ∀ i pre e post s ids, m.table i = pre ++ e :: post → h.Rep e.value s ids →
    UInt64.ofNat (ids.filter (!h.expiredAt now ·)).length = 0 →
      ids.filter (!h.expiredAt now ·) = [] ∧ post = []

/-- What a table finds has one sequence of nodes. -/
theorem Heap.Finds.unique {r : Except Fault (Option ℕ)} {ids' : List ℕ} (hf : h.Finds r ids)
    (hf' : h.Finds r ids') : ids = ids' := by
  rcases hf with ⟨l, s, hr, hrep, -⟩ | ⟨hr, rfl⟩
  · rcases hf' with ⟨l', s', hr', hrep', -⟩ | ⟨hr', -⟩
    · cases hr.symm.trans hr'
      exact (hrep.unique hrep').2
    · cases hr.symm.trans hr'
  · rcases hf' with ⟨l', s', hr', -⟩ | ⟨-, rfl⟩
    · cases hr.symm.trans hr'
    · rfl

theorem HashMap.WellFormed.finds {nodes : CString → List ℕ} (hw : m.WellFormed)
    (hT : Table m.Has nodes h) (k : CString) : h.Finds (hashMapFind m k) (nodes k) := by
  obtain ⟨r, hr, hrl⟩ := hashMapFind_spec hw.inv (hw.comparable k)
  rw [hr]
  exact hT.finds hrl

theorem HashMap.WellFormed.find_none (hw : m.WellFormed) (hn : ∀ l, ¬ m.Has k l) :
    hashMapFind m k = .ok none := by
  obtain ⟨r, hr, hrl⟩ := hashMapFind_spec hw.inv (hw.comparable k)
  rw [hr, Option.eq_none_iff_forall_ne_some.mpr fun l e => hn l ((hrl l).mp e)]

theorem HashMap.WellFormed.find_some (hw : m.WellFormed) (hl : m.Has k l) :
    hashMapFind m k = .ok (some l) := by
  obtain ⟨r, hr, hrl⟩ := hashMapFind_spec hw.inv (hw.comparable k)
  rw [hr, (hrl l).mpr hl]

/-- A key is found after the walks when its entry survives. -/
theorem HashMap.WellFormed.find_filter (hw : m.WellFormed) {i : ℕ} (he : e ∈ m.table i)
    (hk : e.Holds k) : hashMapFind (m.filter (h.survives now members)) k =
      .ok (if h.survives now members e = true then some e.value else none) := by
  have hl := hw.inv.has_of_mem he hk
  split_ifs with hsurv
  · exact (hw.filter _).find_some (hw.filter_has.mpr ⟨i, e, he, hk, rfl, hsurv⟩)
  · -- another entry of the key would have the same list
    apply (hw.filter _).find_none
    intro l hl'
    obtain ⟨j, d, hd, hkd, rfl, hsurv'⟩ := hw.filter_has.mp hl'
    have hvalue := hw.inv.has_unique (hw.inv.has_of_mem hd hkd) hl
    rw [Heap.survives, hvalue] at hsurv'
    exact hsurv hsurv'

theorem Heap.survives_eq_false :
    h.survives now members e = false ↔ UInt64.ofNat (h.kept now members e.value).length = 0 := by
  simp [Heap.survives]

section

variable {nodes : CString → List ℕ}

/-- Where a shrink drops exactly the dead keys, it has met no dead entry in front of another one. -/
theorem ShrinksExactly.deadLast (hs : ShrinksExactly h m now) (hw : m.WellFormed)
    (hT : Table m.Has nodes h) : DeadLast h m now := by
  obtain ⟨members, hm, hE⟩ := hw.entryLists hT
  obtain ⟨h', m', hr, -, hfinds, -⟩ := hs
  have hlast := shrinkBuckets_last List.nodup_range hE hr
  obtain ⟨h₁, hr₁, -⟩ := shrinkBuckets_spec List.nodup_range hE hlast
  cases hr.symm.trans hr₁
  intro i pre e post s ids hes hrep hzero
  have he : e ∈ m.table i := by simp [hes]
  obtain ⟨s', hrep'⟩ := hE.rep e (hw.mem_entries he)
  obtain ⟨-, rfl⟩ := hrep.unique hrep'
  have hdead := Heap.survives_eq_false.mpr hzero
  refine ⟨?_, hlast i (hw.mem_range he) pre e post hes hdead⟩
  -- the key of the entry is not found any more
  obtain ⟨k, hk, -⟩ := hw.holds e (hw.mem_entries he)
  have hfind : hashMapFind (m.filter (h.survives now members)) k = .ok none := by
    rw [hw.find_filter he hk, if_neg (by simp [hdead])]
  have hf := hfinds k _ (hw.finds hT k)
  rw [← hm (hw.inv.has_of_mem he hk)] at hf
  rcases hf with ⟨l, t, hsome, -⟩ | ⟨-, hnil⟩
  · cases hfind.symm.trans hsome
  · exact hnil

/-- Where only the last entries of the chains are dead, a shrink drops exactly the dead keys. -/
theorem DeadLast.shrinksExactly (hD : DeadLast h m now) (hw : m.WellFormed)
    (hT : Table m.Has nodes h) : ShrinksExactly h m now := by
  obtain ⟨members, hm, hE⟩ := hw.entryLists hT
  have hstop : ∀ i pre e post, m.table i = pre ++ e :: post →
      h.survives now members e = false → h.kept now members e.value = [] ∧ post = [] := by
    intro i pre e post hes hdead
    obtain ⟨s, hrep⟩ := hE.rep e (hw.mem_entries (i := i) (by simp [hes]))
    exact hD i pre e post s _ hes hrep (Heap.survives_eq_false.mp hdead)
  obtain ⟨h', hr, hs⟩ := shrinkBuckets_spec List.nodup_range hE fun i _ pre e post hes hdead =>
    (hstop i pre e post hes hdead).2
  refine ⟨h', m.filter (h.survives now members), hr, fun e he => ?_, fun k ids hf => ?_,
    (hw.filter _).size⟩
  · rw [HashMap.entries_filter] at he
    obtain ⟨he, hsurv⟩ := List.mem_filter.mp he
    obtain ⟨s, hrep⟩ := hs.kept e he hsurv
    rw [hrep.cell, Option.isSome_some]
  · obtain rfl := hf.unique (hw.finds hT k)
    by_cases hl : ∃ l, m.Has k l
    · obtain ⟨l, e, he, hk, rfl⟩ := hl
      rw [hw.find_filter he hk, ← hm (hw.inv.has_of_mem he hk)]
      by_cases hsurv : h.survives now members e = true
      · -- an entry that survives has nodes left, for their number is not zero
        obtain ⟨s, hrep⟩ := hs.kept e (hw.mem_entries he) hsurv
        rw [if_pos hsurv]
        refine .inl ⟨e.value, s, rfl, hrep, fun hnil => ?_⟩
        simp only [Heap.survives, decide_eq_true_eq, Heap.kept, hnil] at hsurv
        exact hsurv rfl
      · rw [if_neg hsurv]
        obtain ⟨pre, post, hes⟩ := List.append_of_mem he
        exact .inr ⟨rfl, (hstop _ pre e post hes (by simpa using hsurv)).1⟩
    · -- a key without an entry has no nodes
      have hno : ∀ l, ¬ m.Has k l := fun l h => hl ⟨l, h⟩
      refine .inr ⟨(hw.filter _).find_none fun l hl' => ?_, ?_⟩
      · obtain ⟨i, e, he, hk, rfl, -⟩ := hw.filter_has.mp hl'
        exact hno _ (hw.inv.has_of_mem he hk)
      · rw [hT.absent.mp hno, List.filter_nil]

end

/-- **A shrink drops exactly the dead keys** when only the last entries of the chains are dead:
behind another dead entry, the walk goes on at an entry that it has freed. -/
theorem shrinksExactly_iff (hL : h₀.Lists members) (hrun : HashMap.Run Heap.InNoList h₀ h m)
    (now : ℤ) : ShrinksExactly h m now ↔ DeadLast h m now := by
  obtain ⟨nodes, hT⟩ := hrun.table hL
  constructor
  · intro hs
    exact hs.deadLast hrun.wellFormed hT
  · intro hD
    exact hD.shrinksExactly hrun.wellFormed hT

/-! ## Two keys of one chain -/

/-- Two inserts into one chain. The node of the second key, which stands in front, expires first. -/
def collidingInserts : Except Fault (Heap × HashMap) := do
  let (h, p) := listNodeCtorWithInfo Heap.empty sampleRecord .answer 0 180
  let (h, m) ← hashMapInsert h hashMapCtor firstAddress p
  let (h, p) := listNodeCtorWithInfo h sampleRecord .answer 0 1
  hashMapInsert h m collidingAddress p

theorem HashMap.Run.inNoList (hrun : HashMap.Run Heap.InNoList h₀ h m) (hL : h₀.Lists members)
    (data : DnsResourceRecord) (rrType : RrType) (recordTime ttl : ℤ) :
    (listNodeCtorWithInfo h data rrType recordTime ttl).1.InNoList h.nextNode := by
  obtain ⟨nodes, hT⟩ := hrun.table hL
  exact hT.inNoList_ctor data rrType recordTime ttl

theorem collidingInserts_run : ∃ h m, collidingInserts = .ok (h, m) ∧
    HashMap.Run Heap.InNoList Heap.empty h m ∧ hashMapShrink h m 100 = .error .useAfterFree := by
  have hshrink : (collidingInserts >>= fun r => hashMapShrink r.1 r.2 100) =
    .error .useAfterFree := rfl
  have hsome : collidingInserts.toOption.isSome := rfl
  cases hr : collidingInserts with
  | error e =>
    rw [hr] at hsome
    cases hsome
  | ok r =>
    obtain ⟨h, m⟩ := r
    rw [hr, ok_bind] at hshrink
    obtain ⟨⟨h₁, m₁⟩, hr₁, hr₂⟩ := bind_eq_ok.mp hr
    -- each of the two nodes is fresh when it is inserted
    have hrun₁ := (HashMap.Run.start.nodeCtor sampleRecord .answer 0 180).insert (by decide)
      (HashMap.Run.start.inNoList .empty _ _ _ _) hr₁
    exact ⟨h, m, rfl, (hrun₁.nodeCtor sampleRecord .answer 0 1).insert (by decide)
      (hrun₁.inNoList .empty _ _ _ _) hr₂, hshrink⟩

theorem not_deadLast_colliding :
    ∃ h m, collidingInserts = .ok (h, m) ∧ ¬ DeadLast h m 100 := by
  obtain ⟨h, m, hr, hrun, hshrink⟩ := collidingInserts_run
  refine ⟨h, m, hr, fun hD => ?_⟩
  obtain ⟨h', m', hok, -⟩ := (shrinksExactly_iff .empty hrun 100).mpr hD
  cases hshrink.symm.trans hok

/-- **A dead entry in front of a live one**: the destructor of the first frees the second, and the
walk goes on there. -/
theorem not_shrinksExactly_colliding : ∃ h m, collidingInserts = .ok (h, m) ∧
    HashMap.Run Heap.InNoList Heap.empty h m ∧ ¬ ShrinksExactly h m 100 := by
  obtain ⟨h, m, hr, hrun, hshrink⟩ := collidingInserts_run
  refine ⟨h, m, hr, hrun, ?_⟩
  rintro ⟨h', m', hok, -⟩
  cases hshrink.symm.trans hok

end Adrift
