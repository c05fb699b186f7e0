import Adrift.Ds.ListTable
import Adrift.Ds.Trie

/-!
# Runs of the trie

A trie is a map from keys to sequences of nodes: after any inserts and deletions, a lookup finds
the list of the nodes inserted under its key since the key was last deleted, and nothing when
there are none.

## Main definitions

* `TrieRun h₀ h t m`: the heap and the trie after inserts and deletions, and the nodes of every key

## Main results

* `TrieRun.table`: the lists of a trie represent the nodes of the keys
* `trieRun_find`: what a lookup finds, and the next insert and deletion
-/

namespace Adrift

open Outcome

variable {h₀ h h' : Heap} {t t' : TrieNode} {m : CString → List ℕ} {k : CString} {l p : ℕ}

/-- A key whose octets all have a child. -/
def IsTrieKey (k : CString) : Prop := ∀ c ∈ k.octets, IsTrieOctet c

/-- **A run of a trie** from the heap `h₀`: inserts of nodes that are in no list, and deletions,
with fresh nodes allocated in between. `m` has the nodes inserted under every key since its last
deletion, in order. -/
inductive TrieRun (h₀ : Heap) : Heap → TrieNode → (CString → List ℕ) → Prop
  | start : TrieRun h₀ h₀ trieNodeCtor fun _ => []
  | nodeCtor {h : Heap} {t : TrieNode} {m : CString → List ℕ} (data : DnsResourceRecord)
      (rrType : RrType) (recordTime ttl : ℤ) (hrun : TrieRun h₀ h t m) :
      TrieRun h₀ (listNodeCtorWithInfo h data rrType recordTime ttl).1 t m
  | insert {h h' : Heap} {t t' : TrieNode} {m : CString → List ℕ} {k : CString} {p : ℕ}
      (hrun : TrieRun h₀ h t m) (hk : IsTrieKey k) (hp : h.InNoList p)
      (hr : trieInsert h t k p = .ok (h', t')) :
      TrieRun h₀ h' t' (Function.update m k (m k ++ [p]))
  | delete {h h' : Heap} {t t' : TrieNode} {m : CString → List ℕ} {k : CString}
      (hrun : TrieRun h₀ h t m) (hk : IsTrieKey k)
      (hr : trieDelete h t k = .ok (h', t')) : TrieRun h₀ h' t' (Function.update m k [])

/-- **The lists of a trie represent the nodes of the keys** after a run. -/
theorem TrieRun.table {members : ℕ → List ℕ} (hrun : TrieRun h₀ h t m) (hL : h₀.Lists members) :
    Table t.Has m h := by
  induction hrun with
  | start => exact .empty hL trieNodeCtor_has
  | nodeCtor data rrType recordTime ttl _ ih => exact ih.alloc rfl rfl
  | insert _ _ hp hr ih =>
    obtain ⟨l, hhas, hpush, -⟩ := trieInsert_cases hr
    exact ih.push hp (.of_or hpush) hhas
  | delete _ hk hr ih =>
    -- the deletion goes through, for the list of the key is live
    obtain ⟨h₁, t₁, hr₁, hhas, hdtor⟩ := trieDelete_cases hk fun _ => ih.dtor_ok
    cases hr.symm.trans hr₁
    exact ih.delete hdtor hhas

theorem Table.trieFinds (hT : Table t.Has m h) (hk : IsTrieKey k) :
    h.Finds (trieFind t k) (m k) := by
  obtain ⟨r, hr, hrl⟩ := trieFind_spec t hk
  rw [hr]
  exact hT.finds hrl

/-- Two tries with the same lists under a key find the same. -/
theorem trieFind_congr (hk : IsTrieKey k) (hhas : ∀ l, t'.Has k l ↔ t.Has k l) :
    trieFind t' k = trieFind t k := by
  obtain ⟨r, hr, hrl⟩ := trieFind_spec t hk
  obtain ⟨r', hr', hrl'⟩ := trieFind_spec t' hk
  rw [hr, hr', Except.ok.injEq]
  ext l
  rw [hrl', hrl, hhas]

/-- **A trie is a map with deletion** after any run: a lookup of a key finds the nodes inserted
under it since its last deletion. An insert succeeds, and puts its node behind those of its key; a
deletion succeeds, and leaves no node of its key; and both leave what is found under the other
keys. -/
theorem trieRun_find {members : ℕ → List ℕ} (hL : h₀.Lists members) (hrun : TrieRun h₀ h t m) :
    (∀ k, IsTrieKey k → h.Finds (trieFind t k) (m k)) ∧
      (∀ k p, IsTrieKey k → h.InNoList p → ∃ h' t', trieInsert h t k p = .ok (h', t') ∧
        h'.Finds (trieFind t' k) (m k ++ [p]) ∧ ∀ k', IsTrieKey k' → k' ≠ k →
          trieFind t' k' = trieFind t k' ∧ h'.Finds (trieFind t' k') (m k')) ∧
      ∀ k, IsTrieKey k → ∃ h' t', trieDelete h t k = .ok (h', t') ∧
        h'.Finds (trieFind t' k) [] ∧ ∀ k', IsTrieKey k' → k' ≠ k →
          trieFind t' k' = trieFind t k' ∧ h'.Finds (trieFind t' k') (m k') := by
  have hT := hrun.table hL
  refine ⟨fun k hk => hT.trieFinds hk, fun k p hk hp => ?_, fun k hk => ?_⟩
  · obtain ⟨h', t', hr⟩ := trieInsert_ok hk (fun l hl => hT.push_ok hl hp.1)
      (h.ctorHeap_tailLive.push_ok (Heap.ctorHeap_isSome hp.1))
    -- the run with the insert has the node in its map
    have hT' := (hrun.insert hk hp hr).table hL
    obtain ⟨l, hhas, -⟩ := trieInsert_cases hr
    refine ⟨h', t', hr, ?_, fun k' hk' hne => ⟨trieFind_congr hk' fun l' => ?_, ?_⟩⟩
    · have hfinds := hT'.trieFinds hk
      rwa [Function.update_self] at hfinds
    · rw [hhas]
      simp [hne]
    · have hfinds := hT'.trieFinds hk'
      rwa [Function.update_of_ne hne] at hfinds
  · obtain ⟨h', t', hr, hhas, -⟩ := trieDelete_cases hk fun _ => hT.dtor_ok
    have hT' := (hrun.delete hk hr).table hL
    refine ⟨h', t', hr, ?_, fun k' hk' hne => ⟨trieFind_congr hk' fun l' => ?_, ?_⟩⟩
    · have hfinds := hT'.trieFinds hk
      rwa [Function.update_self] at hfinds
    · rw [hhas]
      simp [hne]
    · have hfinds := hT'.trieFinds hk'
      rwa [Function.update_of_ne hne] at hfinds

/-- A name, as a key. -/
def hostKey : CString := ⟨ascii "a.b.", by decide⟩

/-- A name with the same parent. -/
def siblingKey : CString := ⟨ascii "c.b.", by decide⟩

/-- Two inserts under a name, one under a name with the same suffix, and the deletion of that. -/
def siblingInserts : Except Fault (Heap × TrieNode) := do
  let (h, p) := listNodeCtorWithInfo Heap.empty sampleRecord .answer 0 180
  let (h, t) ← trieInsert h trieNodeCtor hostKey p
  let (h, p) := listNodeCtorWithInfo h sampleRecord .answer 0 180
  let (h, t) ← trieInsert h t siblingKey p
  let (h, p) := listNodeCtorWithInfo h sampleRecord .answer 0 180
  let (h, t) ← trieInsert h t hostKey p
  trieDelete h t siblingKey

theorem siblingInserts_run : ∃ h t m, siblingInserts = .ok (h, t) ∧ TrieRun Heap.empty h t m ∧
    (m hostKey).length = 2 ∧ m siblingKey = [] := by
  have hsome : siblingInserts.toOption.isSome := rfl
  cases hr : siblingInserts with
  | error e =>
    rw [hr] at hsome
    cases hsome
  | ok r =>
    obtain ⟨h, t⟩ := r
    obtain ⟨⟨h₁, t₁⟩, hr₁, hr⟩ := bind_eq_ok.mp hr
    obtain ⟨⟨h₂, t₂⟩, hr₂, hr⟩ := bind_eq_ok.mp hr
    obtain ⟨⟨h₃, t₃⟩, hr₃, hr⟩ := bind_eq_ok.mp hr
    have hhost : IsTrieKey hostKey := by unfold IsTrieKey; decide
    have hsibling : IsTrieKey siblingKey := by unfold IsTrieKey; decide
    -- the nodes are fresh when they are inserted
    have hrun₁ := (TrieRun.start.nodeCtor sampleRecord .answer 0 180).insert hhost
      ((TrieRun.start.table .empty).inNoList_ctor _ _ _ _) hr₁
    have hrun₂ := (hrun₁.nodeCtor sampleRecord .answer 0 180).insert hsibling
      ((hrun₁.table .empty).inNoList_ctor _ _ _ _) hr₂
    have hrun₃ := (hrun₂.nodeCtor sampleRecord .answer 0 180).insert hhost
      ((hrun₂.table .empty).inNoList_ctor _ _ _ _) hr₃
    have hne : hostKey ≠ siblingKey := by decide
    refine ⟨h, t, _, rfl, hrun₃.delete hsibling hr, ?_, Function.update_self ..⟩
    simp [Function.update_of_ne, hne]

theorem trieRun_find_sibling : ∃ h t m, siblingInserts = .ok (h, t) ∧ TrieRun Heap.empty h t m ∧
    ((m hostKey).length = 2 ∧ m siblingKey = []) ∧
      (∀ k, IsTrieKey k → h.Finds (trieFind t k) (m k)) ∧
        (∀ k p, IsTrieKey k → h.InNoList p → ∃ h' t', trieInsert h t k p = .ok (h', t') ∧
          h'.Finds (trieFind t' k) (m k ++ [p]) ∧ ∀ k', IsTrieKey k' → k' ≠ k →
            trieFind t' k' = trieFind t k' ∧ h'.Finds (trieFind t' k') (m k')) ∧
        ∀ k, IsTrieKey k → ∃ h' t', trieDelete h t k = .ok (h', t') ∧
          h'.Finds (trieFind t' k) [] ∧ ∀ k', IsTrieKey k' → k' ≠ k →
            trieFind t' k' = trieFind t k' ∧ h'.Finds (trieFind t' k') (m k') := by
  obtain ⟨h, t, m, hr, hrun, hm⟩ := siblingInserts_run
  exact ⟨h, t, m, hr, hrun, hm, trieRun_find .empty hrun⟩

end Adrift
