import Adrift.Protocol.CacheRun
import Adrift.Protocol.QueryRelay

/-!
# Local replies

`handle_receive_query` and `handle_read_cache` answer some queries themselves. The replies from
the cache are built on the id and the question of the query; the format-error reply is built on a
template alone, and has the id zero.

## Main definitions

* `EchoesQuery header q reply`: the reply has the id of the query, and its questions

## Main results

* `answerQuery_echoes`: what is sent for a question that was read echoes the query
* `localReplies_echo_iff`: the replies to a query echo it, unless the query is rejected for its
  number of questions and has an id other than zero
-/

namespace Adrift

open DnsMessage DomainName Outcome

variable {s s' : Server} {c c' : Cache} {now : ℤ} {client : SockAddr} {header : DnsHeader}
  {question : DnsQuestion} {q : Question} {datagram rest : List UInt8} {sent : List Sent}

/-- **A reply echoes a query**: it is a response with the id of the query, and its body starts with
as many copies of the question `q` as its header declares. -/
def EchoesQuery (header : DnsHeader) (q : Question) (reply : List UInt8) : Prop :=
  ∃ hd body, parseHeader reply = .ok (hd, body) ∧ hd.qr = 1 ∧ hd.id = header.id ∧
    (List.replicate hd.qdcount.toNat (questionOctets q)).flatten <+: body

/-- Everything sent goes to the client, and echoes its query, or goes upstream. -/
def RepliesEcho (client : SockAddr) (header : DnsHeader) (q : Question) (sent : List Sent) :
    Prop :=
  ∀ addr reply, .reply addr reply ∈ sent → addr = client ∧ EchoesQuery header q reply

theorem repliesEcho_reply {reply : List UInt8} :
    RepliesEcho client header q [.reply client reply] ↔ EchoesQuery header q reply := by
  simp [RepliesEcho]

theorem repliesEcho_relay : RepliesEcho client header q [.relay datagram] := by
  intro addr reply h
  simp at h

/-- A reply of one question. -/
theorem echoesQuery_one {hd : DnsHeader} (hqr : hd.qr = 1) (hid : hd.id = header.id)
    (hqd : hd.qdcount = 1) (t : List UInt8) :
    EchoesQuery header q (dumpHeader hd ++ (questionOctets q ++ t)) := by
  refine ⟨hd, questionOctets q ++ t, parseHeader_dumpHeader hd _, hqr, hid, t, ?_⟩
  rw [hqd]
  simp

/-- Counting the records of a list changes neither the id, nor the kind, nor the questions. -/
theorem foldl_countNode_fields (nodes : List ListNode) (header : DnsHeader) :
    (nodes.foldl countNode header).id = header.id ∧ (nodes.foldl countNode header).qr = header.qr ∧
      (nodes.foldl countNode header).qdcount = header.qdcount := by
  induction nodes generalizing header with
  | nil => exact ⟨rfl, rfl, rfl⟩
  | cons node nodes ih =>
    obtain ⟨hid, hqr, hqd⟩ := ih (countNode header node)
    rw [List.foldl_cons, hid, hqr, hqd]
    unfold countNode
    rcases node.type with _ | _ | _ | _ <;> exact ⟨rfl, rfl, rfl⟩

/-- **What a list is answered with**: nothing, or a reply of one question under the id of the
query. -/
theorem replyFrom_cases {nodes : List (ℕ × ListNode)} {r : ReadCache}
    (hr : replyFrom c now header question nodes = .ok r) :
    r = .miss ∨ ∃ hd t, hd.qr = 1 ∧ hd.id = header.id ∧ hd.qdcount = 1 ∧
      (r = .nameError (dumpHeader hd ++ (dumpQuestion question ++ t)) ∨ ∃ cname list,
        r = .cached hd cname list (dumpHeader hd ++ (dumpQuestion question ++ t))) := by
  unfold replyFrom at hr
  dsimp only at hr
  split_ifs at hr
  · cases hr
    refine .inr ⟨{ getErrorHeader .nameError with id := header.id }, dumpErrorAuthority, rfl, rfl,
      rfl, .inl ?_⟩
    rw [nameErrorReply, List.append_assoc]
  · obtain ⟨cname, -, hr⟩ := bind_eq_ok.mp hr
    cases hr
    obtain ⟨hid, hqr, hqd⟩ := foldl_countNode_fields (nodes.map Prod.snd) (cachedHeader header)
    refine .inr ⟨_, cname.flatMap (dumpNode now ·.2) ++ nodes.flatMap (dumpNode now ·.2), hqr, hid,
      hqd, .inr ⟨cname, nodes, ?_⟩⟩
    simp only [List.append_assoc]
  · cases hr
    exact .inl rfl

/-- **A question that was read** is answered with replies that echo the query. -/
theorem answerQuery_echoes (hls : ∀ l ∈ q.qname, IsPlainLabel l)
    (hr : answerQuery s now client header (questionOf q) = .ok (s', sent)) :
    RepliesEcho client header q sent := by
  have hecho : ∀ {hd : DnsHeader} {t : List UInt8}, hd.qr = 1 → hd.id = header.id →
      hd.qdcount = 1 → RepliesEcho client header q
        [.reply client (dumpHeader hd ++ (dumpQuestion (questionOf q) ++ t))] := by
    intro hd t hqr hid hqd
    rw [repliesEcho_reply, dumpQuestion_questionOf hls]
    exact echoesQuery_one hqr hid hqd t
  obtain ⟨⟨c, r⟩, hread, hr⟩ := bind_eq_ok.mp hr
  have hcases : r = .miss ∨ ∃ hd t, hd.qr = 1 ∧ hd.id = header.id ∧ hd.qdcount = 1 ∧
      (r = .nameError (dumpHeader hd ++ (dumpQuestion (questionOf q) ++ t)) ∨ ∃ cname list,
        r = .cached hd cname list (dumpHeader hd ++ (dumpQuestion (questionOf q) ++ t))) := by
    rcases handleReadCache_cases hread with ⟨-, hmiss⟩ |
      ⟨t, l, heap, size, nodes, -, -, -, -, -, hreply⟩
    · exact .inl hmiss
    · exact replyFrom_cases hreply
  rcases hcases with rfl | ⟨hd, t, hqr, hid, hqd, rfl | ⟨cname, list, rfl⟩⟩
  · -- a miss is forwarded
    cases hr
    exact repliesEcho_relay
  · cases hr
    exact hecho hqr hid hqd
  · cases hr
    exact hecho hqr hid hqd

/-- **The replies to a query echo it** exactly when it has one question, or the id zero of the
format-error reply. -/
theorem localReplies_echo_iff
    (hheader : parseHeader (receiveBuffer datagram) = .ok (header, rest)) (hqr : header.qr = 0)
    (hq : header.qdcount = 1 → (∀ l ∈ q.qname, IsPlainLabel l) ∧ questionOctets q <+: rest)
    (hr : handleStream s now client datagram = .ok (s', sent)) :
    RepliesEcho client header q sent ↔ header.qdcount = 1 ∨ header.id = 0 := by
  rw [handleStream, hheader, ok_bind] at hr
  dsimp only at hr
  rw [if_pos hqr, handleReceiveQuery] at hr
  by_cases hone : header.qdcount = 1
  · obtain ⟨hls, t, rfl⟩ := hq hone
    rw [if_neg (not_not.mpr hone), parseQuestion_octets fun l hl => (hls l hl).1, ok_bind] at hr
    exact iff_of_true (answerQuery_echoes hls hr) (.inl hone)
  · rw [if_pos hone] at hr
    cases hr
    rw [repliesEcho_reply]
    constructor
    · rintro ⟨hd, body, hread, -, hid, -⟩
      rw [← List.append_nil (dumpHeader _), parseHeader_dumpHeader] at hread
      cases hread
      exact .inr hid.symm
    · intro h
      have hid := h.resolve_left hone
      refine ⟨getErrorHeader .formatError, [], ?_, rfl, hid.symm, List.nil_prefix⟩
      rw [← List.append_nil (dumpHeader _), parseHeader_dumpHeader]

/-- A query that declares two questions, under the id 7. -/
def twoQuestions : List UInt8 := [0, 7, 1, 0, 0, 2, 0, 0, 0, 0, 0, 0]

theorem localReplies_echo_twoQuestions : ∃ header rest s' sent,
    parseHeader (receiveBuffer twoQuestions) = .ok (header, rest) ∧
      handleStream (.init .init) 0 ⟨0x7f000001, 5353⟩ twoQuestions = .ok (s', sent) ∧
        (RepliesEcho ⟨0x7f000001, 5353⟩ header ⟨[], 1, 1⟩ sent ↔
          header.qdcount = 1 ∨ header.id = 0) := by
  have hr : handleStream (.init .init) 0 ⟨0x7f000001, 5353⟩ twoQuestions = .ok (.init .init,
      [.reply ⟨0x7f000001, 5353⟩ (dumpHeader (getErrorHeader .formatError))]) := rfl
  refine ⟨_, _, _, _, rfl, hr, localReplies_echo_iff rfl rfl ?_ hr⟩
  intro h
  exact absurd h (by decide)

/-- Two questions under the id 7 are rejected under the id 0. -/
theorem not_repliesEcho_twoQuestions : ¬ ∀ s s' now client datagram header rest q sent,
    parseHeader (receiveBuffer datagram) = .ok (header, rest) → header.qr = 0 →
      (header.qdcount = 1 → (∀ l ∈ q.qname, IsPlainLabel l) ∧ questionOctets q <+: rest) →
        handleStream s now client datagram = .ok (s', sent) →
          RepliesEcho client header q sent := by
  intro h
  have hecho := h (.init .init) _ 0 ⟨0x7f000001, 5353⟩ twoQuestions _ _ ⟨[], 1, 1⟩ _ rfl rfl
    (fun h => absurd h (by decide)) rfl
  obtain ⟨hd, body, hread, -, hid, -⟩ := repliesEcho_reply.mp hecho
  rw [← List.append_nil (dumpHeader _), parseHeader_dumpHeader] at hread
  cases hread
  exact absurd hid (by decide)

end Adrift
