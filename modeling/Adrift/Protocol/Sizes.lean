import Adrift.Protocol.Bounds
import Adrift.Protocol.CachedReply
import Adrift.Protocol.OwnerNames
import Adrift.Protocol.ServerRun
import Mathlib.Algebra.GroupWithZero.Nat

/-!
# The sizes of the datagrams sent

The send buffers have the length of the receive buffer. A query is sent upstream with fewer octets
than it came with, but a record with a pointer is sent with its whole name, and a cached reply has
all records of its lists.

## Main definitions

* `nameSize`, `recordSize`, `questionSize`: the octets the writers write
* `responseSize`, `Cache.ReplyFits`: the octets of a relayed response, and of a cached reply
* `OutputFits s now p`: the condition under which what is sent for a datagram fits
* `Cache.HasAnswer c now question`: the cache has unexpired records for a question
* `HasRoom s now datagram`, `StaysInside s now datagram`: the datagram finds room in the buffers and
  in the convert table, and stays inside all objects of the program

## Main results

* `dumpName_length`, `dumpResourceRecord_length`: the writers write these octets
* `nameBuffer_sizes`: what is measured, copied and sent again of a name
* `questionSize_le`: a question is never longer than the octets it was read from
* `sent_fits_iff`: what is sent fits into the send buffers exactly under the condition
* `StaysInside.processed`: a datagram that stays inside is processed, and what is sent for it fits
-/

namespace Adrift

open Outcome

/-! ## Sizes -/

/-- The labels of a name: its parts between separators, the empty one after the last left out. -/
def labelsOf (s : List UInt8) : List (List UInt8) :=
  if (s.splitOn dot).getLast? = some [] then (s.splitOn dot).dropLast else s.splitOn dot

/-- The octets that `dump_name` writes: a length octet for each label and as many octets as it
counts, and the final zero. -/
def nameSize (name : CString) : ℕ :=
  ((labelsOf name.octets).map fun l => 1 + l.length % 256).sum + 1

/-- The octets that `dump_question` writes. -/
def questionSize (question : DnsQuestion) : ℕ := nameSize question.qname + 4

/-- The octets that `dump_resource_record` writes. -/
def recordSize (rr : DnsResourceRecord) : ℕ := nameSize rr.name + 10 + rr.rdlength.toNat

/-- The octets of a header. -/
def headerSize : ℕ := 12

theorem labelsOf_nil : labelsOf [] = [] := by
  simp [labelsOf]

theorem labelsOf_append_cons {l : List UInt8} (hl : dot ∉ l) (s : List UInt8) :
    labelsOf (l ++ dot :: s) = l :: labelsOf s := by
  have hs : (l ++ dot :: s).splitOn dot = l :: s.splitOn dot := by
    rw [List.splitOn_append_cons_self, List.splitOn_eq_singleton hl, List.singleton_append]
  have hne : s.splitOn dot ≠ [] := List.splitOn_ne_nil dot s
  rw [labelsOf, labelsOf, hs, List.getLast?_cons_of_ne_nil hne, List.dropLast_cons_of_ne_nil hne]
  split_ifs <;> rfl

theorem labelsOf_eq_singleton {l : List UInt8} (hl : dot ∉ l) (hne : l ≠ []) :
    labelsOf l = [l] := by
  rw [labelsOf, List.splitOn_eq_singleton hl]
  simp [hne]

/-- The label loop writes the octets of the label it has started on and of the labels to come.
The start `q` may lie behind the label, but never leaves too few octets to copy. -/
theorem dumpLabels_length (qname l q : List UInt8) (hl : dot ∉ l) (hne : l ++ qname ≠ [])
    (hq : l.length + qname.length ≤ q.length) : (dumpLabels qname (.ofNat l.length) q).length =
      ((labelsOf (l ++ qname)).map fun l => 1 + l.length % 256).sum + 1 := by
  have hlen : (UInt8.ofNat l.length).toNat = l.length % 256 := UInt8.toNat_ofNat'
  have hmod := Nat.mod_le l.length 256
  induction qname generalizing l q with
  | nil =>
    rw [List.append_nil] at hne ⊢
    rw [labelsOf_eq_singleton hl hne, dumpLabels, hlen]
    simp only [List.length_cons, List.length_append, List.length_take, List.length_nil,
      List.map_cons, List.map_nil, List.sum_cons, List.sum_nil] at hq ⊢
    omega
  | cons c qname ih =>
    rw [List.length_cons] at hq
    rw [dumpLabels]
    split_ifs with hc hnil
    · -- the separator at the end of the text: the label, and the final zero
      subst hc hnil
      rw [labelsOf_append_cons hl, labelsOf_nil, hlen]
      simp only [List.length_cons, List.length_append, List.length_take, List.length_nil,
        List.map_cons, List.map_nil, List.sum_cons, List.sum_nil]
      omega
    · -- a separator ends the label, and the next one starts behind it
      subst hc
      have ih := ih [] (q.drop ((UInt8.ofNat l.length).toNat + 1)) (by simp) (by simpa using hnil)
        (by simp only [List.length_drop, List.length_nil, hlen]; omega) rfl (Nat.mod_le ..)
      rw [labelsOf_append_cons hl, List.length_append]
      simp only [List.length_nil, List.nil_append] at ih
      rw [show (0 : UInt8) = UInt8.ofNat 0 from rfl, ih, hlen]
      simp only [List.length_cons, List.length_take, List.map_cons, List.sum_cons]
      omega
    · -- the label goes on
      have ih := ih (l ++ [c]) q (by simpa [hl] using Ne.symm hc) (by simp)
        (by simp only [List.length_append, List.length_singleton]; omega) UInt8.toNat_ofNat'
        (Nat.mod_le ..)
      rw [List.append_assoc, List.singleton_append, List.length_append, List.length_singleton] at ih
      rw [← ih]
      congr 2
      simp

/-- **`dump_name` writes `nameSize` octets**. -/
theorem dumpName_length (name : CString) : (dumpName name).length = nameSize name := by
  rw [dumpName, nameSize]
  split_ifs with h
  · rw [h, labelsOf_nil]
    rfl
  · exact dumpLabels_length name.octets [] name.octets (by simp) (by simpa using h) (by simp)

theorem dumpHeader_length (h : DnsHeader) : (dumpHeader h).length = headerSize := by
  simp [dumpHeader, headerSize]

theorem dumpQuestion_length (question : DnsQuestion) :
    (dumpQuestion question).length = questionSize question := by
  simp [dumpQuestion, questionSize, dumpName_length]

/-- **`dump_resource_record` writes `recordSize` octets**. -/
theorem dumpResourceRecord_length (rr : DnsResourceRecord) :
    (dumpResourceRecord rr).length = recordSize rr := by
  simp only [dumpResourceRecord, recordSize, dumpName_length, List.length_append,
    BigEndian.octets16_length, BigEndian.octets32_length, rr.rdata_length]

/-- The label loop writes at most two octets more than it reads, and one more when the text ends
with a separator. -/
theorem dumpLabels_length_le (qname q : List UInt8) (len : UInt8) :
    (dumpLabels qname len q).length ≤
      len.toNat + qname.length + if qname.getLast? = some dot then 1 else 2 := by
  induction qname generalizing len q with
  | nil =>
    simp only [dumpLabels, List.length_cons, List.length_append, List.length_take,
      List.length_nil, List.getLast?_nil, reduceCtorEq, if_false]
    omega
  | cons c qname ih =>
    have htake : (q.take len.toNat).length ≤ len.toNat := List.length_take_le ..
    -- the counter of the label wraps, so it never runs ahead
    have hinc : (len + 1).toNat ≤ len.toNat + 1 := by
      rw [UInt8.toNat_add]
      exact Nat.mod_le ..
    rw [dumpLabels, List.length_cons]
    by_cases hnil : qname = []
    · -- the last octet: only a text that ends without a separator costs one octet more
      subst hnil
      by_cases hc : c = dot
      · simp only [hc, if_true, List.getLast?_singleton, List.length_append, List.length_cons,
          List.length_nil]
        omega
      · have ih := ih q (len + 1)
        simp only [if_neg hc, List.getLast?_singleton, Option.some.injEq, List.getLast?_nil,
          reduceCtorEq, if_false, List.length_nil] at ih ⊢
        omega
    · rw [List.getLast?_cons_of_ne_nil hnil]
      by_cases hc : c = dot
      · have ih := ih (q.drop (len.toNat + 1)) 0
        simp only [if_pos hc, if_neg hnil, List.length_append, List.length_cons,
          UInt8.toNat_zero] at ih ⊢
        omega
      · have ih := ih q (len + 1)
        rw [if_neg hc]
        omega

/-- The copy loop writes as many octets as it reads, but for the final zero, and the separator
last. -/
theorem copyLabels_length {buf out rest : List UInt8} {left : ℕ}
    (h : copyLabels buf left = .ok (out, rest)) :
    out.length + rest.length + (if left = 0 then 1 else 0) = buf.length ∧
      (out.getLast? = some dot ∨ left = 0 ∧ out = []) := by
  induction buf generalizing left out with
  | nil => cases h
  | cons c buf ih =>
    -- `left` octets of the label are to come: none before a length octet, one before a separator
    match left with
    | 0 =>
      rw [copyLabels] at h
      split_ifs at h with hc
      · cases h
        exact ⟨by simp, .inr ⟨rfl, rfl⟩⟩
      · have hl : c.toNat ≠ 0 := fun h => hc (UInt8.toNat_inj.mp h)
        obtain ⟨hlen, hlast⟩ := ih h
        rw [if_neg hl] at hlen
        exact ⟨by simp [← hlen], .inl (hlast.resolve_right fun h => hl h.1)⟩
    | 1 =>
      obtain ⟨⟨out', rest'⟩, h, hx⟩ := map_eq_ok.mp h
      cases hx
      obtain ⟨hlen, hlast⟩ := ih h
      refine ⟨?_, .inl ?_⟩
      · rw [if_pos rfl] at hlen
        simp only [List.length_cons, if_neg (show (1 : ℕ) ≠ 0 by decide)]
        omega
      · rcases hlast with hlast | ⟨-, rfl⟩
        · cases out' with
          | nil => cases hlast
          | cons d out' => exact hlast
        · rfl
    | n + 2 =>
      obtain ⟨⟨out', rest'⟩, h, hx⟩ := map_eq_ok.mp h
      cases hx
      obtain ⟨hlen, hlast⟩ := ih h
      have hlast := hlast.resolve_right fun h => absurd h.1 (Nat.succ_ne_zero n)
      refine ⟨?_, .inl ?_⟩
      · rw [if_neg (Nat.succ_ne_zero n)] at hlen
        simp only [List.length_cons, if_neg (Nat.succ_ne_zero (n + 1))]
        omega
      · cases out' with
        | nil => cases hlast
        | cons d out' => exact hlast

/-- What stands before the first zero of a text that ends with a separator is the text, or is at
least two octets shorter. -/
theorem ofBlock_length {out : List UInt8} (h : out.getLast? = some dot ∨ out = []) :
    (CString.ofBlock out).octets = out ∨ (CString.ofBlock out).octets.length + 2 ≤ out.length := by
  have hsplit : out.takeWhile (· ≠ 0) ++ out.dropWhile (· ≠ 0) = out :=
    List.takeWhile_append_dropWhile
  have hlen := congrArg List.length hsplit
  simp only [CString.ofBlock]
  cases hd : out.dropWhile (· ≠ 0) with
  | nil =>
    rw [hd, List.append_nil] at hsplit
    exact .inl hsplit
  | cons c d =>
    refine .inr ?_
    have hne : out.dropWhile (· ≠ 0) ≠ [] := hd ▸ List.cons_ne_nil c d
    have hc : c = 0 := by
      have := List.head_dropWhile_not (fun x : UInt8 => decide (x ≠ 0)) hne
      simpa only [hd, List.head_cons, decide_eq_false_iff_not, ne_eq, not_not] using this
    rw [hd, List.length_append, List.length_cons] at hlen
    cases d with
    | nil =>
      -- the last octet would be the zero
      rw [hd, hc] at hsplit
      rw [← hsplit] at h
      simp [dot] at h
    | cons e d =>
      rw [List.length_cons] at hlen
      omega

/-- A name read from a buffer is sent with at most the octets it was read from. -/
theorem nameSize_parseQname_le {buf out rest : List UInt8}
    (h : parseQname buf = .ok (out, rest)) :
    nameSize (.ofBlock out) + rest.length ≤ buf.length := by
  obtain ⟨n, -, h⟩ := bind_eq_ok.mp h
  obtain ⟨hlen, hlast⟩ := copyLabels_length h
  have hlast := hlast.imp_right And.right
  rw [if_pos rfl] at hlen
  rw [← dumpName_length, dumpName]
  split_ifs with hnil
  · rw [List.length_singleton]
    omega
  · have hle := dumpLabels_length_le (CString.ofBlock out).octets (CString.ofBlock out).octets 0
    rw [UInt8.toNat_zero] at hle
    rcases ofBlock_length hlast with heq | hshort
    · rw [heq] at hnil hle ⊢
      rw [if_pos (hlast.resolve_right hnil)] at hle
      omega
    · split_ifs at hle <;> omega

theorem text_length (ls : List DomainName.Label) :
    (DomainName.text ls).length + 1 = (DomainName.wire ls).length := by
  induction ls with
  | nil => rfl
  | cons l ls ih =>
    simp only [DomainName.text_cons, DomainName.wire_cons, List.length_append, List.length_cons]
    omega

/-- The measure of a name is one more than the octets from its first length octet up to its zero
octet. -/
theorem getQnameLength_rawAt {buf : List UInt8} {off e : ℕ} {ls : List DomainName.Label}
    (h : DomainName.RawAt buf off ls e) :
    getQnameLength (buf.drop off) = .ok ((DomainName.wire ls).length + 1) := by
  obtain ⟨hls, ⟨t, ht⟩, rfl⟩ := h
  rw [← ht, getQnameLength_wire hls]

/-- The octet before the end of a name is its zero octet. -/
theorem NameEnds.last {buf : List UInt8} {off e : ℕ} (h : NameEnds buf off e) :
    0 < e ∧ buf[e - 1]? = some 0 := by
  induction h with
  | zero h => exact ⟨Nat.succ_pos _, h⟩
  | label _ _ _ ih => exact ih

/-- **The buffer of a name**: where the length octets lead to a zero octet, the copy takes one octet
less than the measure, its terminator included, the cursor moves as far, to the octet after the
zero, and what is written for the text is no longer. -/
theorem nameBuffer_sizes {buf : List UInt8} {off e : ℕ} (h : NameEnds buf off e) : ∃ n block,
    getQnameLength (buf.drop off) = .ok n ∧ parseQname (buf.drop off) = .ok (block, buf.drop e) ∧
      (block ++ [0]).length + 1 = n ∧ e + 1 = off + n ∧ buf[e - 1]? = some 0 ∧
        (dumpName (.ofBlock block)).length + 1 ≤ n := by
  obtain ⟨ls, hls⟩ := h.rawAt
  have hparse := parseQname_rawAt hls
  have hsize := nameSize_parseQname_le hparse
  have htext := text_length ls
  obtain ⟨-, ⟨t, ht⟩, he⟩ := id hls
  have hlen := congrArg List.length ht
  refine ⟨_, _, getQnameLength_rawAt hls, hparse, ?_, ?_, h.last.2, ?_⟩
  · rw [List.length_append, List.length_singleton, htext]
  · omega
  · rw [dumpName_length]
    simp only [List.length_append, List.length_drop] at hlen hsize
    omega

theorem nameBuffer_sizes_dotted : ∃ n block,
    getQnameLength (List.drop 0 [2, 46, 0, 1, 97, 0]) = .ok n ∧
      parseQname (List.drop 0 [2, 46, 0, 1, 97, 0]) =
          .ok (block, List.drop 6 [2, 46, 0, 1, 97, 0]) ∧
        (block ++ [0]).length + 1 = n ∧ 6 + 1 = 0 + n ∧
          ([2, 46, 0, 1, 97, 0] : List UInt8)[6 - 1]? = some 0 ∧
            (dumpName (.ofBlock block)).length + 1 ≤ n := by
  -- the first label is a separator and a terminator
  have hzero : NameEnds [2, 46, 0, 1, 97, 0] 5 6 := .zero rfl
  have hname : NameEnds [2, 46, 0, 1, 97, 0] 3 6 := .label rfl (by decide) hzero
  exact nameBuffer_sizes (.label rfl (by decide) hname)

/-- **A question is sent with at most the octets it was read from**. -/
theorem questionSize_le {buf rest : List UInt8} {question : DnsQuestion}
    (h : parseQuestion buf = .ok (question, rest)) : questionSize question ≤ buf.length := by
  obtain ⟨⟨qname, buf₁⟩, hname, h⟩ := bind_eq_ok.mp h
  obtain ⟨⟨qtype, buf₂⟩, htype, h⟩ := bind_eq_ok.mp h
  obtain ⟨⟨qclass, buf₃⟩, hclass, h⟩ := bind_eq_ok.mp h
  cases h
  have hle := nameSize_parseQname_le hname
  obtain ⟨h₁, rfl⟩ := exists_parse16.mp ⟨_, (List.drop_zero (l := buf₁)).symm ▸ htype⟩
  obtain ⟨h₂, -⟩ := exists_parse16.mp ⟨_, hclass⟩
  simp only [questionSize]
  omega

/-! ## What is sent -/

/-- The datagram that is sent. -/
def Sent.datagram : Sent → List UInt8
  | .reply _ datagram => datagram
  | .relay datagram => datagram

/-- The octets of a relayed response: the header, the question and all records, with their names
written out. -/
def responseSize (r : Response) : ℕ :=
  headerSize + questionSize r.question +
    ((r.answer ++ r.authority ++ r.additional).map recordSize).sum

/-- The octets of the record of a node. -/
def nodeSize (n : ListNode) : ℕ := n.data.elim 0 recordSize

/-- **A cached reply fits**: where the list of a question has unexpired records, none of them a zero
address, the header, the question, the records of the CNAME list that an A query reads and these
records fit into the send buffer. -/
def Cache.ReplyFits (c : Cache) (now : ℤ) (question : DnsQuestion) : Prop :=
  ∀ t l ids cids, cacheTypeOf question.qtype = some t →
    cacheFind c t question.qname = .ok (some l) → c.heap.Chain l ids →
      c.CnameIds question cids →
        (∃ rrType,
          sectionCount rrType (c.heap.infosAt (ids.filter (!c.heap.expiredAt now ·))) % 2 ^ 16 ≠
            0) →
        (∀ n ∈ c.heap.infosAt (ids.filter (!c.heap.expiredAt now ·)), ¬ n.isZero) →
          headerSize + questionSize question + ((c.heap.infosAt cids).map nodeSize).sum +
            ((c.heap.infosAt (ids.filter (!c.heap.expiredAt now ·))).map nodeSize).sum ≤ bufferLen

/-- **What is sent for a parsed datagram fits**: a cached reply to a query does, and so does the
response that a valid slot lets pass. -/
def OutputFits (s : Server) (now : ℤ) : DnsHeader × Parsed → Prop
  | (_, .uncounted) => True
  | (_, .query question) => s.cache.ReplyFits now question
  | (_, .response r) =>
    (s.convertTable r.header.id.toNat).valid ≠ 0 → responseSize r ≤ bufferLen

variable {S : Set ℕ} {c c' : Cache} {s s' : Server} {now : ℤ} {header : DnsHeader}
  {question : DnsQuestion} {client : SockAddr} {sent : List Sent}

theorem flatMap_length {α : Type} {f : α → List UInt8} {size : α → ℕ}
    (h : ∀ x, (f x).length = size x) (xs : List α) :
    (xs.flatMap f).length = (xs.map size).sum := by
  rw [List.length_flatMap, List.map_congr_left fun x _ => h x]

theorem handleSendResponse_length (s : Server) (reqId : UInt16) (r : Response) :
    (handleSendResponse s reqId r).datagram.length = responseSize r := by
  simp only [handleSendResponse, Sent.datagram, responseSize, List.length_append, List.map_append,
    List.sum_append, dumpHeader_length, dumpQuestion_length,
    flatMap_length dumpResourceRecord_length]
  omega

theorem handleSendQuery_length (s : Server) (client : SockAddr) (header : DnsHeader)
    (question : DnsQuestion) :
    (handleSendQuery s client header question).2.length = headerSize + questionSize question := by
  show (dumpHeader _ ++ dumpQuestion question).length = _
  rw [List.length_append, dumpHeader_length, dumpQuestion_length]

theorem dumpNode_length (now : ℤ) (n : ListNode) : (dumpNode now n).length = nodeSize n := by
  rw [dumpNode, nodeSize]
  cases n.data with
  | none => rfl
  | some rr => exact dumpResourceRecord_length _

/-- A cached reply has the octets of the two lists it is written from. -/
theorem CachedFrom.length {hd : DnsHeader} {cname list : List (ℕ × ListNode)}
    {datagram : List UInt8} {t : CacheType} {l : ℕ} {ids cids : List ℕ}
    (hF : CachedFrom S c now header question hd cname list datagram t l ids cids c') :
    datagram.length = headerSize + questionSize question +
      ((c.heap.infosAt cids).map nodeSize).sum +
        ((c.heap.infosAt (ids.filter (!c.heap.expiredAt now ·))).map nodeSize).sum := by
  have hdata : ∀ ns : List ListNode,
      ((ns.filter (·.data.isSome)).map nodeSize).sum = (ns.map nodeSize).sum := by
    intro ns
    induction ns with
    | nil => rfl
    | cons n ns ih =>
      cases hn : n.data with
      | none => rw [List.filter_cons_of_neg (by simp [hn]), ih]; simp [nodeSize, hn]
      | some rr => rw [List.filter_cons_of_pos (by simp [hn]), List.map_cons, List.map_cons,
          List.sum_cons, List.sum_cons, ih]
  rw [hF.datagram, List.length_append, List.length_append, dumpHeader_length,
    dumpQuestion_length, flatMap_length (dumpNode_length now), writtenNodes, hdata, List.map_append,
    hF.cnameInfos, hF.listInfos, List.map_append, List.sum_append]
  omega

/-- The reply to a blocked name fits: a name with a list has fewer than 46 octets. -/
theorem nameErrorReply_length_le {t : CacheType} {l : ℕ} (hI : c.IndexInv)
    (hf : cacheFind c t question.qname = .ok (some l)) :
    (nameErrorReply header question).length ≤ bufferLen := by
  obtain ⟨⟨hv, -⟩, hk⟩ := cacheFind_eq_some hI hf
  have hlen : question.qname.octets.length < 46 := by
    simp only [KeySafe, hv, Bool.false_eq_true, false_or] at hk
    split_ifs at hk with hshort
    · exact hshort.trans_lt (by decide)
    · exact hk
  have hname : nameSize question.qname ≤ question.qname.octets.length + 2 := by
    rw [← dumpName_length, dumpName]
    split_ifs
    · simp
    · refine (dumpLabels_length_le ..).trans ?_
      rw [UInt8.toNat_zero]
      split_ifs <;> omega
  have herr : dumpErrorAuthority.length = 75 := rfl
  rw [nameErrorReply, List.length_append, List.length_append, dumpHeader_length,
    dumpQuestion_length, herr, headerSize, questionSize, bufferLen]
  omega

/-- A reply is a cached one when the list of the question has unexpired records, none of them a
zero address. -/
theorem handleReadCache_isCached (hG : c.Good S) {r : ReadCache} {t : CacheType} {l : ℕ}
    {ids : List ℕ} (hr : handleReadCache c now header question = .ok (c', r))
    (ht : cacheTypeOf question.qtype = some t)
    (hf : cacheFind c t question.qname = .ok (some l)) (hc : c.heap.Chain l ids)
    (hrec : ∃ rrType,
      sectionCount rrType (c.heap.infosAt (ids.filter (!c.heap.expiredAt now ·))) % 2 ^ 16 ≠ 0)
    (hz : ∀ n ∈ c.heap.infosAt (ids.filter (!c.heap.expiredAt now ·)), ¬ n.isZero) :
    ∃ hd cname list datagram, r = .cached hd cname list datagram := by
  obtain ⟨ids', hL, hreply⟩ := handleReadCache_found hG.inv ht hf hr
  obtain rfl := hc.unique hL.chain
  rw [replyFrom, foldl_countNode_nodesAt, any_isZero_nodesAt, hL.infosAt] at hreply
  have hrec' := (hasRecords_foldl_countNode _ header).mpr hrec
  split_ifs at hreply with hzero
  · obtain ⟨n, hn, hzn⟩ := List.any_eq_true.mp hzero.2
    exact absurd hzn (hz n hn)
  · obtain ⟨cname, -, hreply⟩ := bind_eq_ok.mp hreply
    cases hreply
    exact ⟨_, _, _, _, rfl⟩

/-- **A reply from the cache fits** exactly when the lists it is written from do. -/
theorem handleReadCache_fits_iff (hG : c.Good S) {r : ReadCache}
    (hr : handleReadCache c now header question = .ok (c', r)) : c.ReplyFits now question ↔
      ∀ datagram, (r = .nameError datagram ∨ ∃ hd cname list, r = .cached hd cname list datagram) →
        datagram.length ≤ bufferLen := by
  constructor
  · rintro hfits datagram (rfl | ⟨hd, cname, list, rfl⟩)
    · rcases handleReadCache_lookup hG.inv hr with ⟨-, h⟩ | ⟨t, l, ids, hL, hreply⟩
      · cases h
      · have hf := (cacheFind_eq_some_iff hG.inv.index).mpr ⟨hL.has, hL.safe⟩
        rw [replyFrom] at hreply
        split_ifs at hreply
        · cases hreply
          exact nameErrorReply_length_le hG.inv.index hf
        · obtain ⟨cname, -, hreply⟩ := bind_eq_ok.mp hreply
          cases hreply
        · cases hreply
    · obtain ⟨t, l, ids, cids, hF⟩ := handleReadCache_cached hG hr
      have hL := hF.lookup
      have hrec := hF.hasRecords
      rw [hF.counts, hasRecords_foldl_countNode] at hrec
      rw [hF.length]
      exact hfits t l ids cids hL.type
        ((cacheFind_eq_some_iff hG.inv.index).mpr ⟨hL.has, hL.safe⟩) hL.chain hF.cnameIds hrec
        hF.notZero
  · intro hlen t l ids cids ht hf hc hcids hrec hz
    -- the lists of the condition are those that the reply is written from
    obtain ⟨hd, cname, list, datagram, rfl⟩ := handleReadCache_isCached hG hr ht hf hc hrec hz
    obtain ⟨t', l', ids', cids', hF⟩ := handleReadCache_cached hG hr
    obtain ⟨rfl, rfl, rfl⟩ :=
      hF.lookup.unique hG.inv.index ht (cacheFind_eq_some hG.inv.index hf).1 hc
    obtain rfl := hcids.unique hG.inv.index hF.cnameIds
    rw [← hF.length]
    exact hlen datagram (.inr ⟨hd, cname, list, rfl⟩)

/-- A cached reply that fits is the one that is asked for. -/
theorem replyFits_of_cached (hG : c.Good S) {hd : DnsHeader} {cname list : List (ℕ × ListNode)}
    {datagram : List UInt8}
    (hr : handleReadCache c now header question = .ok (c', .cached hd cname list datagram))
    (hle : datagram.length ≤ bufferLen) : c.ReplyFits now question := by
  refine (handleReadCache_fits_iff hG hr).mpr ?_
  rintro datagram' (h | ⟨hd', cname', list', h⟩)
  · cases h
  · cases h
    exact hle

/-- What `handle_stream` sends for a query fits exactly when a reply from the cache does. -/
theorem answerQuery_fits_iff (hG : s.cache.Good S)
    (hq : headerSize + questionSize question ≤ bufferLen)
    (hr : answerQuery s now client header question = .ok (s', sent)) :
    (∀ x ∈ sent, x.datagram.length ≤ bufferLen) ↔ s.cache.ReplyFits now question := by
  obtain ⟨⟨c, r⟩, hread, hr⟩ := bind_eq_ok.mp hr
  rw [handleReadCache_fits_iff hG hread]
  cases r with
  | miss =>
    cases hr
    refine iff_of_true ?_ (by simp)
    intro x hx
    obtain rfl := List.mem_singleton.mp hx
    exact (handleSendQuery_length _ client header question).trans_le hq
  | nameError datagram =>
    cases hr
    simp [Sent.datagram]
  | cached hd cname list datagram =>
    cases hr
    simp [Sent.datagram]

theorem parseStream_query {datagram : List UInt8}
    (hp : parseStream datagram = .ok (header, .query question)) : ∃ buf rest,
      receiveBuffer datagram = dumpHeader header ++ buf ∧
        parseQuestion buf = .ok (question, rest) := by
  obtain ⟨⟨h, buf⟩, hheader, hp⟩ := bind_eq_ok.mp hp
  dsimp only at hp
  split_ifs at hp
  · cases hp
  · obtain ⟨⟨q, rest⟩, hq, hp⟩ := bind_eq_ok.mp hp
    cases hp
    exact ⟨buf, rest, dumpHeader_parseHeader hheader, hq⟩
  · obtain ⟨r, -, hp⟩ := bind_eq_ok.mp hp
    cases hp

/-- A question is sent with its header in as many octets as the receive buffer has. -/
theorem parseStream_query_size {datagram : List UInt8} (hd : datagram.length ≤ bufferLen)
    (hp : parseStream datagram = .ok (header, .query question)) :
    headerSize + questionSize question ≤ bufferLen := by
  obtain ⟨buf, rest, hbuf, hq⟩ := parseStream_query hp
  have hlen := congrArg List.length hbuf
  rw [receiveBuffer_length hd, List.length_append, dumpHeader_length] at hlen
  have := questionSize_le hq
  omega

/-- What is sent for a response fits exactly when the response does, or its slot is not valid. -/
theorem relayResponse_fits_iff {r : Response} {nodes : SectionNodes}
    (hr : relayResponse s now r = .ok (s', sent, nodes)) :
    (∀ x ∈ sent, x.datagram.length ≤ bufferLen) ↔
      ((s.convertTable r.header.id.toNat).valid ≠ 0 → responseSize r ≤ bufferLen) := by
  obtain ⟨⟨c, nodes'⟩, -, hr⟩ := bind_eq_ok.mp hr
  dsimp only at hr
  split_ifs at hr with hvalid
  · cases hr
    exact iff_of_true (by simp) fun h => absurd hvalid h
  · cases hr
    simp only [List.mem_singleton, forall_eq, handleSendResponse_length]
    exact ⟨fun h _ => h, fun h => h hvalid⟩

/-- What is sent for a datagram fits exactly under the condition. -/
theorem handleStream_fits_iff (hG : s.cache.Good S) {datagram : List UInt8}
    (hd : datagram.length ≤ bufferLen)
    (hr : handleStream s now client datagram = .ok (s', sent)) :
    (∀ x ∈ sent, x.datagram.length ≤ bufferLen) ↔
      ∀ p, parseStream datagram = .ok p → OutputFits s now p := by
  rw [handleStream_eq] at hr
  obtain ⟨p, hp, hr⟩ := bind_eq_ok.mp hr
  simp only [hp, Except.ok.injEq, forall_eq']
  match p with
  | (header, .uncounted) =>
    cases hr
    refine iff_of_true ?_ trivial
    simp [Sent.datagram, dumpHeader_length, headerSize, bufferLen]
  | (header, .query question) =>
    -- the question came in the same buffer, behind the header
    exact answerQuery_fits_iff hG (parseStream_query_size hd hp) hr
  | (header, .response r) =>
    obtain ⟨⟨s₁, sent₁, nodes⟩, hrelay, hr⟩ := bind_eq_ok.mp hr
    cases hr
    exact relayResponse_fits_iff hrelay

/-- **What is sent fits** into the send buffers exactly under the condition, for every datagram a
server receives in any run after the load. -/
theorem sent_fits_iff {file : List UInt8} {c₀ : Cache}
    (hload : readHostsFile Cache.init file = .ok c₀) {admits : Server → ℤ → List UInt8 → Prop}
    (hrun : Server.Run admits (.init c₀) s) {datagram : List UInt8}
    (hd : datagram.length ≤ bufferLen)
    (hr : handleStream s now client datagram = .ok (s', sent)) :
    (∀ x ∈ sent, x.datagram.length ≤ bufferLen) ↔
      ∀ p, parseStream datagram = .ok p → OutputFits s now p := by
  obtain ⟨S, hG₀⟩ := readHostsFile_good hload
  obtain ⟨log, hcache⟩ := hrun.cache
  exact handleStream_fits_iff (hcache.good hG₀) hd hr

/-- A name of 204 octets. -/
def longName : List UInt8 := (List.replicate 4 (50 :: List.replicate 50 97)).flatten ++ [0]

/-- A query for the texts of the name. -/
def longQuery : List UInt8 :=
  [0, 7, 1, 0, 0, 1, 0, 0, 0, 0, 0, 0] ++ longName ++ [0, 16, 0, 1]

/-- A response with twelve empty records, their owners pointers to the name of the question. -/
def pointerResponse : List UInt8 :=
  [0, 1, 129, 128, 0, 1, 0, 12, 0, 0, 0, 0] ++ longName ++ [0, 16, 0, 1] ++
    (List.replicate 12 [192, 12, 0, 16, 0, 1, 0, 0, 0, 60, 0, 0]).flatten

/-- Some datagram sent is longer than the send buffer. -/
def overflows : Except Fault (Server × List Sent) → Bool
  | .ok (_, sent) => sent.any fun x => bufferLen < x.datagram.length
  | .error _ => false

theorem sent_fits_longQuery : ∃ s' sent,
    handleStream (.init .init) 0 ⟨0x7f000001, 5353⟩ longQuery = .ok (s', sent) ∧
      ((∀ x ∈ sent, x.datagram.length ≤ bufferLen) ↔
        ∀ p, parseStream longQuery = .ok p → OutputFits (.init .init) 0 p) := by
  have hload : readHostsFile Cache.init [] = .ok Cache.init := rfl
  have hok : (handleStream (.init .init) 0 ⟨0x7f000001, 5353⟩ longQuery).isOk := by decide +kernel
  cases hr : handleStream (.init .init) 0 ⟨0x7f000001, 5353⟩ longQuery with
  | error e =>
    rw [hr] at hok
    cases hok
  | ok x =>
    have hrun : Server.Run (fun _ _ _ => True) (.init .init) (.init .init) := .start
    exact ⟨x.1, x.2, rfl, sent_fits_iff hload hrun (by decide +kernel) hr⟩

theorem not_sent_fits_pointerResponse : ¬ ∀ file c₀ s s' now client datagram sent,
    readHostsFile Cache.init file = .ok c₀ →
      Server.Run (fun _ _ d => d.length ≤ bufferLen) (.init c₀) s → datagram.length ≤ bufferLen →
        handleStream s now client datagram = .ok (s', sent) →
          ∀ x ∈ sent, x.datagram.length ≤ bufferLen := by
  intro hall
  -- the query is forwarded, and its response is then relayed in too many octets
  have hover : overflows (do
      let (s, _) ← handleStream (.init .init) 0 ⟨0x7f000001, 5353⟩ longQuery
      handleStream s 1 ⟨0x08080808, 53⟩ pointerResponse) = true := by decide +kernel
  cases h₁ : handleStream (.init .init) 0 ⟨0x7f000001, 5353⟩ longQuery with
  | error e =>
    rw [h₁] at hover
    cases hover
  | ok x =>
    obtain ⟨s, sent⟩ := x
    rw [h₁, ok_bind] at hover
    dsimp only at hover
    cases h₂ : handleStream s 1 ⟨0x08080808, 53⟩ pointerResponse with
    | error e =>
      rw [h₂] at hover
      cases hover
    | ok y =>
      rw [h₂] at hover
      obtain ⟨d, hd, hlt⟩ := List.any_eq_true.mp hover
      have hrun : Server.Run (fun _ _ d => d.length ≤ bufferLen) (.init .init) s :=
        .stream .start (by decide +kernel) h₁
      have hle := hall [] _ _ _ _ _ _ _ rfl hrun (by decide +kernel) h₂ d hd
      exact absurd (of_decide_eq_true hlt) (not_lt.mpr hle)

/-! ## Datagrams that stay inside -/

/-- **The cache has an answer**: the list of its type has unexpired records, and those of some
section are not a multiple of 65536. -/
def Cache.HasAnswer (c : Cache) (now : ℤ) (question : DnsQuestion) : Prop :=
  ∃ t l ids, cacheTypeOf question.qtype = some t ∧
    cacheFind c t question.qname = .ok (some l) ∧ c.heap.Chain l ids ∧ ∃ rrType,
      sectionCount rrType (c.heap.infosAt (ids.filter (!c.heap.expiredAt now ·))) % 2 ^ 16 ≠ 0

/-- A lookup misses exactly when the cache does not answer. -/
theorem handleReadCache_miss_iff (hG : c.Good S) {r : ReadCache}
    (hr : handleReadCache c now header question = .ok (c', r)) :
    r = .miss ↔ ¬ c.HasAnswer now question := by
  constructor
  · rintro rfl ⟨t, l, ids, ht, hf, hc, hrec⟩
    obtain ⟨ids', hL, hreply⟩ := handleReadCache_found hG.inv ht hf hr
    obtain rfl := hc.unique hL.chain
    rw [replyFrom, foldl_countNode_nodesAt, hL.infosAt] at hreply
    have hrec' := (hasRecords_foldl_countNode _ header).mpr hrec
    split_ifs at hreply
    · cases hreply
    · obtain ⟨cname, -, hreply⟩ := bind_eq_ok.mp hreply
      cases hreply
  · intro hno
    rcases handleReadCache_lookup hG.inv hr with ⟨-, h⟩ | ⟨t, l, ids, hL, hreply⟩
    · exact h
    · have hf := (cacheFind_eq_some_iff hG.inv.index).mpr ⟨hL.has, hL.safe⟩
      have hrec := mt (hasRecords_foldl_countNode _ header).mp fun hrec =>
        hno ⟨t, l, ids, hL.type, hf, hL.chain, hrec⟩
      rw [replyFrom, foldl_countNode_nodesAt, hL.infosAt] at hreply
      split_ifs at hreply with hzero
      · exact absurd hzero.1 hrec
      · cases hreply
        rfl

/-- **A datagram finds room**: in the receive buffer, in the send buffer with what is sent for it,
and in the convert table when it is a query that the cache does not answer. -/
structure HasRoom (s : Server) (now : ℤ) (datagram : List UInt8) : Prop where
  received : datagram.length ≤ bufferLen
  fits : ∀ p, parseStream datagram = .ok p → OutputFits s now p
  slot : ∀ header question, parseStream datagram = .ok (header, .query question) →
    ¬ s.cache.HasAnswer now question → s.buf1Len < mapLen

/-- **A datagram stays inside** the objects of the program: it is handled inside the receive buffer
and inside the cache, and finds room. -/
structure StaysInside (s : Server) (now : ℤ) (datagram : List UInt8) : Prop extends
    HasRoom s now datagram where
  safe : DatagramSafe s datagram

/-- A reply is made for a type that is cached only. -/
theorem Cache.replyFits_of_uncached (c : Cache) (now : ℤ) (ht : cacheTypeOf question.qtype = none) :
    c.ReplyFits now question := by
  intro t l ids cids ht'
  cases ht.symm.trans ht'

theorem hasRoom_query {datagram : List UInt8} (hlen : datagram.length ≤ bufferLen)
    (hp : parseStream datagram = .ok (header, .query question))
    (hfits : s.cache.ReplyFits now question) (hslot : s.buf1Len < mapLen) :
    HasRoom s now datagram where
  received := hlen
  fits p hp' := by
    obtain rfl := Except.ok.inj (hp.symm.trans hp')
    exact hfits
  slot _ _ _ _ := hslot

theorem hasRoom_response {datagram : List UInt8} {r : Response}
    (hlen : datagram.length ≤ bufferLen) (hp : parseStream datagram = .ok (header, .response r))
    (hsize : responseSize r ≤ bufferLen) : HasRoom s now datagram where
  received := hlen
  fits p hp' := by
    obtain rfl := Except.ok.inj (hp.symm.trans hp')
    exact fun _ => hsize
  slot header question hp' := by cases hp.symm.trans hp'

theorem datagramSafe_query {datagram : List UInt8}
    (hp : parseStream datagram = .ok (header, .query question))
    (hq : QuerySafe s.cache question) : DatagramSafe s datagram := by
  obtain ⟨⟨h, buf⟩, hheader, hp⟩ := bind_eq_ok.mp hp
  refine ⟨h, buf, hheader, ?_⟩
  dsimp only at hp
  split_ifs at hp ⊢ with hqr hqd
  · cases hp
  · obtain ⟨⟨q, rest⟩, hquestion, hp⟩ := bind_eq_ok.mp hp
    cases hp
    exact fun _ => ⟨_, rest, hquestion, hq⟩
  · obtain ⟨r, -, hp⟩ := bind_eq_ok.mp hp
    cases hp

theorem datagramSafe_response {datagram : List UInt8} {r : Response}
    (hp : parseStream datagram = .ok (header, .response r)) (hr : ResponseSafe s.cache r) :
    DatagramSafe s datagram := by
  obtain ⟨⟨h, buf⟩, hheader, hp⟩ := bind_eq_ok.mp hp
  refine ⟨h, buf, hheader, ?_⟩
  dsimp only at hp
  split_ifs at hp ⊢ with hqr hqd
  · cases hp
  · obtain ⟨⟨q, rest⟩, -, hp⟩ := bind_eq_ok.mp hp
    cases hp
  · obtain ⟨r', hresponse, hp⟩ := bind_eq_ok.mp hp
    cases hp
    exact ⟨_, hresponse, hr⟩

theorem datagramSafe_uncounted {datagram : List UInt8}
    (hp : parseStream datagram = .ok (header, .uncounted)) : DatagramSafe s datagram := by
  obtain ⟨⟨h, buf⟩, hheader, hp⟩ := bind_eq_ok.mp hp
  refine ⟨h, buf, hheader, ?_⟩
  dsimp only at hp
  split_ifs at hp ⊢ with hqr hqd
  · exact fun h => absurd h hqd
  · obtain ⟨⟨q, rest⟩, -, hp⟩ := bind_eq_ok.mp hp
    cases hp
  · obtain ⟨r, -, hp⟩ := bind_eq_ok.mp hp
    cases hp

/-- What is sent for a datagram that finds room fits. -/
theorem HasRoom.sent_le {datagram : List UInt8} (hroom : HasRoom s now datagram)
    (hG : s.cache.Good S) (hr : handleStream s now client datagram = .ok (s', sent)) :
    ∀ x ∈ sent, x.datagram.length ≤ bufferLen :=
  (handleStream_fits_iff hG hroom.received hr).mpr hroom.fits

/-- A query is forwarded from a slot of the table, when it finds room. -/
theorem HasRoom.slot_lt {datagram up : List UInt8} (hroom : HasRoom s now datagram)
    (hG : s.cache.Good S) (hr : handleStream s now client datagram = .ok (s', sent))
    (hup : .relay up ∈ sent) : s.buf1Len < mapLen := by
  rw [handleStream_eq] at hr
  obtain ⟨p, hp, hr⟩ := bind_eq_ok.mp hr
  match p with
  | (header, .uncounted) =>
    cases hr
    simp at hup
  | (header, .query question) =>
    obtain ⟨⟨c, r⟩, hread, hr⟩ := bind_eq_ok.mp hr
    cases r with
    | miss => exact hroom.slot header question hp ((handleReadCache_miss_iff hG hread).mp rfl)
    | nameError datagram =>
      cases hr
      simp at hup
    | cached hd cname list datagram =>
      cases hr
      simp at hup
  | (header, .response r) =>
    obtain ⟨⟨s₁, sent₁, nodes⟩, hrelay, hr⟩ := bind_eq_ok.mp hr
    cases hr
    -- what is sent for a response goes to a client
    obtain ⟨⟨c, nodes'⟩, -, hrelay⟩ := bind_eq_ok.mp hrelay
    dsimp only at hrelay
    split_ifs at hrelay
    · cases hrelay
      cases hup
    · cases hrelay
      cases List.mem_singleton.mp hup

/-- **A datagram that stays inside is processed**: what is sent for it fits, and a query that is
forwarded has a slot in the table. -/
theorem StaysInside.processed {datagram : List UInt8} (hd : StaysInside s now datagram)
    (hG : s.cache.Good S) (client : SockAddr) :
    ∃ s' sent, handleStream s now client datagram = .ok (s', sent) ∧
      (∀ x ∈ sent, x.datagram.length ≤ bufferLen) ∧
        ∀ up, .relay up ∈ sent → s.buf1Len < mapLen := by
  obtain ⟨s', sent, hr⟩ := handleStream_ok hG.inv hd.safe client
  exact ⟨s', sent, hr, hd.sent_le hG hr, fun _ hup => hd.slot_lt hG hr hup⟩

end Adrift
