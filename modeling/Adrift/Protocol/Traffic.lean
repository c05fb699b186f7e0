import Adrift.Protocol.Override

/-!
# Plain traffic

Whether the program stays inside its objects depends on the datagram and on the cache it meets.
For most datagrams the reading and the caching do not depend on the cache: what the parsers read of
them fits into the index, and the lists they touch are lists of their own, which always end in a
live node. Only the lists of a blocked domain may end in a freed one, when records of a response
were put behind the node they share. What is written for a datagram still has to find room.

## Main definitions

* `PlainMessage file p`: what was parsed fits into the index, and is no answer for a domain that
  `file` blocks
* `PlainDatagram file datagram`: the datagram is parsed, as a plain message

## Main results

* `PlainDatagram.safe`: plain datagrams are safe in every state after the load
* `plainTraffic_processed`: plain datagrams that find room are processed, whatever the server has
  found room for before
-/

namespace Adrift

open Outcome

variable {file : List UInt8} {c₀ c : Cache} {log : List Logged} {r : Response}
  {question : DnsQuestion}

/-- **A plain message**: the key of each lookup and of each insert that it leads to fits into the
index, and it inserts nothing under a domain that the hosts file blocks. -/
def PlainMessage (file : List UInt8) : Parsed → Prop
  | .uncounted => True
  | .query question => (cacheTypeOf question.qtype).isSome → KeySafe question.qname
  | .response r => r.header.rcode = ReplyCode.noError.toBits →
      (∃ rr ∈ r.answer ++ r.authority ++ r.additional, (cacheTypeOf rr.type).isSome) →
        KeySafe r.question.qname ∧ ¬ IsBlocked file r.question.qname

/-- **A plain datagram** ends inside the receive buffer, and is a plain message. -/
def PlainDatagram (file datagram : List UInt8) : Prop :=
  ∃ header p, parseStream datagram = .ok (header, p) ∧ PlainMessage file p

/-- The lookups of a plain query find their way. -/
theorem PlainMessage.querySafe (hp : PlainMessage file (.query question)) (c : Cache) :
    QuerySafe c question := by
  intro t ht
  have hk : KeySafe question.qname := hp (by rw [ht, Option.isSome_some])
  exact ⟨hk.lookupSafe c t, fun _ => hk.lookupSafe c .cname⟩

/-- The records of a plain response can be pushed. -/
theorem PlainMessage.responseSafe (hp : PlainMessage file (.response r)) (hrun : c₀.Run log c)
    (hload : readHostsFile Cache.init file = .ok c₀) : ResponseSafe c r := by
  intro hcode rr hrr t ht
  obtain ⟨hk, hb⟩ := hp hcode ⟨rr, hrr, by rw [ht, Option.isSome_some]⟩
  exact ⟨hk, fun l hl => (hrun.tailLast hload hb hl).tailLive⟩

/-- **Plain datagrams are safe** in every state after the load. -/
theorem PlainDatagram.safe {datagram : List UInt8} (hd : PlainDatagram file datagram) {s : Server}
    (hrun : c₀.Run log s.cache) (hload : readHostsFile Cache.init file = .ok c₀) :
    DatagramSafe s datagram := by
  obtain ⟨header, p, hparse, hp⟩ := hd
  cases p with
  | uncounted => exact datagramSafe_uncounted hparse
  | query question => exact datagramSafe_query hparse (hp.querySafe s.cache)
  | response r => exact datagramSafe_response hparse (hp.responseSafe hrun hload)

/-- **Plain datagrams are processed**: when the index has room for the domains of the hosts file,
the file is loaded, and then every plain datagram that finds room is processed without a fault,
what is sent for it fits, and it is forwarded from a slot of the table, whatever the server has
found room for and waited for since. -/
theorem plainTraffic_processed (hk : ∀ e ∈ hostsEntries file, KeySafe e.2) :
    ∃ c₀, readHostsFile Cache.init file = .ok c₀ ∧ ∀ s₀ s : Server, s₀.cache = c₀ →
      s₀.Run HasRoom s → ∀ now client datagram, PlainDatagram file datagram →
        HasRoom s now datagram → ∃ s' sent, handleStream s now client datagram = .ok (s', sent) ∧
          (∀ x ∈ sent, x.datagram.length ≤ bufferLen) ∧
            ∀ up, .relay up ∈ sent → s.buf1Len < mapLen := by
  obtain ⟨c₀, hload⟩ := readHostsFile_ok hk
  obtain ⟨S, hG₀⟩ := readHostsFile_good hload
  refine ⟨c₀, hload, ?_⟩
  rintro s₀ s rfl hrun now client datagram hplain hroom
  obtain ⟨log, hrun⟩ := hrun.cache
  have hinside : StaysInside s now datagram := ⟨hroom, hplain.safe hrun hload⟩
  exact hinside.processed (hrun.good hG₀) client

/-- A query for texts that is forwarded, and then one for the address of the hosts file. -/
theorem plainTraffic_processed_local : ∃ c₀ s, readHostsFile Cache.init addressFile = .ok c₀ ∧
    (Server.init c₀).Run HasRoom s ∧ s.buf1Len = 2 ∧
      ∃ s' sent, handleStream s 0 localClient (localDatagram 1) = .ok (s', sent) ∧
        (∀ x ∈ sent, x.datagram.length ≤ bufferLen) ∧
          ∀ up, .relay up ∈ sent → s.buf1Len < mapLen := by
  obtain ⟨c₀, hload, hrun⟩ := @plainTraffic_processed addressFile (by decide)
  obtain ⟨header, hparse, -⟩ := localDatagram_addressQuery
  obtain ⟨header₁, question₁, s₁, sent₁, hparse₁, htype, hr, hcache, hlen⟩ :
      ∃ header question s sent, parseStream (localDatagram 16) = .ok (header, .query question) ∧
        cacheTypeOf question.qtype = none ∧
        processStream (.init c₀) 0 localClient (header, .query question) = .ok (s, sent) ∧
        s.cache = c₀ ∧ s.buf1Len = 2 := by
    obtain ⟨zs, hzs⟩ : ∃ zs, receiveBuffer (localDatagram 16) = localDatagram 16 ++ zs := ⟨_, rfl⟩
    rw [parseStream, hzs]
    exact ⟨_, _, _, _, rfl, rfl, rfl, rfl, rfl⟩
  have hone : 1 < mapLen := by decide
  have hroom₁ : HasRoom (.init c₀) 0 (localDatagram 16) :=
    hasRoom_query (by decide) hparse₁ (Cache.replyFits_of_uncached _ 0 htype) hone
  have hrun₁ : (Server.init c₀).Run HasRoom s₁ :=
    .stream .start hroom₁ ((handleStream_of_parse hparse₁).trans hr)
  have hplain : PlainDatagram addressFile (localDatagram 1) :=
    ⟨header, .query localQuestion, hparse, fun _ => by decide⟩
  have hfits : s₁.cache.ReplyFits 0 localQuestion := hcache ▸ addressFile_replyFits hload
  have hroom : HasRoom s₁ 0 (localDatagram 1) :=
    hasRoom_query (by decide) hparse hfits (hlen ▸ by decide)
  exact ⟨c₀, s₁, hload, hrun₁, hlen, hrun _ _ rfl hrun₁ 0 localClient _ hplain hroom⟩

end Adrift
