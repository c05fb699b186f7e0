import Adrift.Protocol.Cache

/-!
# The handlers

`protocol/handle.c`: a client query is answered from the cache or forwarded under an id of the
convert table, and an upstream response is cached and sent back to the client of its id. All
readings of the clock of one handler are one time. A query waits for its response or its timer
between `handleSendQuery` and `wakeSendQuery`.

## Main definitions

* `Server`: the globals of the handlers
* `handleReadCache`, `handleSendQuery`, `handleReceiveQuery`: the path of a query
* `timerHandler`, `wakeSendQuery`: the timer, and the end of the wait
* `cacheResponse`, `handleSendResponse`, `handleReceiveResponse`: the path of a response
* `handleStream`: a received datagram
-/

namespace Adrift

open Outcome

/-- `MAP_LEN`. -/
def mapLen : ℕ := 0xffff + 2

/-- The address of a client. -/
structure SockAddr where
  addr : UInt32
  port : UInt16
  deriving DecidableEq

/-- `Convert`: what a wire id stands for, with the count of its semaphore. -/
structure Convert where
  bufReqId : UInt16
  bufSock : SockAddr
  sem : ℕ
  valid : UInt8

/-- The globals of the handlers. The indices of `convertTable` from `mapLen` on stand for the
memory behind the table. -/
structure Server where
  cache : Cache
  convertTable : ℕ → Convert
  buf1Len : ℕ

/-- The globals before the first datagram. -/
def Server.init (cache : Cache) : Server where
  cache
  convertTable _ := { bufReqId := 0, bufSock := ⟨0, 0⟩, sem := 0, valid := 0 }
  buf1Len := 1

/-- A datagram sent to a client or to the upstream server. -/
inductive Sent
  | reply (client : SockAddr) (datagram : List UInt8)
  | relay (datagram : List UInt8)

/-- The cache type of a query or record type. -/
def cacheTypeOf (type : UInt16) : Option CacheType :=
  if type = 1 then some .ipv4
  else if type = 28 then some .ipv6
  else if type = 5 then some .cname
  else none

/-! ## Queries -/

/-- One iteration of the counting loop of `handle_read_cache`. -/
def countNode (header : DnsHeader) (node : ListNode) : DnsHeader :=
  match node.type with
  | some .answer => { header with ancount := header.ancount + 1 }
  | some .authority => { header with nscount := header.nscount + 1 }
  | some .additional => { header with arcount := header.arcount + 1 }
  | none => header

/-- The record of a node is four zero octets long. -/
def ListNode.isZero (node : ListNode) : Bool :=
  match node.data with
  | none => false
  | some rr => rr.rdlength = 4 ∧ rr.rdata = [0, 0, 0, 0]

/-- A zero node has a record. -/
theorem ListNode.isSome_of_isZero {n : ListNode} (h : n.isZero = true) : n.data.isSome := by
  rw [isZero] at h
  cases hd : n.data with
  | none => simp [hd] at h
  | some rr => rfl

/-- Some section count is not zero. -/
def DnsHeader.hasRecords (header : DnsHeader) : Bool :=
  header.ancount ≠ 0 ∨ header.nscount ≠ 0 ∨ header.arcount ≠ 0

/-- The record of a node with the time to live it has left. -/
def agedRecord (now : ℤ) (node : ListNode) (rr : DnsResourceRecord) : DnsResourceRecord :=
  { rr with ttl := .ofInt (node.ttl - (now - node.recordTime)) }

/-- One iteration of a writing loop of `handle_read_cache`. -/
def dumpNode (now : ℤ) (node : ListNode) : List UInt8 :=
  match node.data with
  | none => []
  | some rr => dumpResourceRecord (agedRecord now node rr)

/-- The header of a cached reply before the counting loop. -/
def cachedHeader (header : DnsHeader) : DnsHeader :=
  { getDefaultHeader with id := header.id, qr := 1, qdcount := 1 }

/-- The reply to a blocked name. -/
def nameErrorReply (header : DnsHeader) (question : DnsQuestion) : List UInt8 :=
  dumpHeader { getErrorHeader .nameError with id := header.id } ++ dumpQuestion question ++
    dumpErrorAuthority

/-- What `handle_read_cache` does: nothing, an error reply, or a cached reply. The cached reply
is given with its header and the nodes its two writing loops meet. -/
inductive ReadCache
  | miss
  | nameError (datagram : List UInt8)
  | cached (header : DnsHeader) (cname list : List (ℕ × ListNode)) (datagram : List UInt8)

/-- The nodes of the CNAME list that an A query reads. -/
def cnameNodes (c : Cache) (question : DnsQuestion) : Except Fault (List (ℕ × ListNode)) := do
  if question.qtype = 1 then
    match ← cacheFind c .cname question.qname with
    | none => return []
    | some l => listNodes c.heap l
  else return []

/-- The lookup of `handle_read_cache`. -/
def questionList (c : Cache) (question : DnsQuestion) : Except Fault (Option ℕ) :=
  match cacheTypeOf question.qtype with
  | none => .ok none
  | some t => cacheFind c t question.qname

/-- `handle_read_cache` once the list is updated: the counting loop over its nodes, the test for
a zero address, and the reply, with a send buffer of any size. -/
def replyFrom (c : Cache) (now : ℤ) (header : DnsHeader) (question : DnsQuestion)
    (nodes : List (ℕ × ListNode)) : Except Fault ReadCache := do
  -- the header counts this list, and not the CNAME list written before it
  let headerDownstream := (nodes.map Prod.snd).foldl countNode (cachedHeader header)
  if headerDownstream.hasRecords ∧ nodes.any (·.2.isZero) then
    return .nameError (nameErrorReply header question)
  if ¬ headerDownstream.hasRecords then return .miss
  let cname ← cnameNodes c question
  return .cached headerDownstream cname nodes
    (dumpHeader headerDownstream ++ dumpQuestion question ++
      cname.flatMap (dumpNode now ·.2) ++ nodes.flatMap (dumpNode now ·.2))

/-- `handle_read_cache`. -/
def handleReadCache (c : Cache) (now : ℤ) (header : DnsHeader) (question : DnsQuestion) :
    Except Fault (Cache × ReadCache) := do
  match ← questionList c question with
  | none => return (c, .miss)
  | some l =>
    let (heap, _) ← listUpdate c.heap l now
    let c := { c with heap }
    let nodes ← listNodes c.heap l
    let r ← replyFrom c now header question nodes
    return (c, r)

/-- `handle_send_query` up to its wait: the server, and the datagram sent upstream. -/
def handleSendQuery (s : Server) (client : SockAddr) (header : DnsHeader)
    (question : DnsQuestion) : Server × List UInt8 :=
  -- the entry is written before the counter is reset, once behind the table
  let entry := s.convertTable s.buf1Len
  let table := Function.update s.convertTable s.buf1Len
    { entry with bufReqId := header.id, bufSock := client }
  let buf1Len := if mapLen ≤ s.buf1Len then 1 else s.buf1Len
  -- the wire id is the counter cut to 16 bits, and names the slot that becomes valid
  let id : UInt16 := .ofNat buf1Len
  let table := Function.update table id.toNat { table id.toNat with valid := 1 }
  ({ s with convertTable := table, buf1Len := buf1Len + 1 },
    dumpHeader { header with id } ++ dumpQuestion question)

/-- `timer_handler`. -/
def timerHandler (s : Server) (bufId : UInt16) : Server :=
  let entry := s.convertTable bufId.toNat
  { s with convertTable :=
      Function.update s.convertTable bufId.toNat { entry with sem := entry.sem + 1 } }

/-- `handle_send_query` from its wait on, once the semaphore of the wire id `id` lets it pass. -/
def wakeSendQuery (s : Server) (id : UInt16) : Option Server :=
  let entry := s.convertTable id.toNat
  if entry.sem = 0 then none
  else some { s with convertTable :=
      Function.update s.convertTable id.toNat { entry with sem := entry.sem - 1, valid := 0 } }

/-- `handle_receive_query` once the question is parsed. -/
def answerQuery (s : Server) (now : ℤ) (client : SockAddr) (header : DnsHeader)
    (question : DnsQuestion) : Except Fault (Server × List Sent) := do
  let (cache, r) ← handleReadCache s.cache now header question
  let s := { s with cache }
  match r with
  | .nameError datagram => return (s, [.reply client datagram])
  | .cached _ _ _ datagram => return (s, [.reply client datagram])
  | .miss =>
    let (s, datagram) := handleSendQuery s client header question
    return (s, [.relay datagram])

/-- `handle_receive_query`. -/
def handleReceiveQuery (s : Server) (now : ℤ) (client : SockAddr) (buf : List UInt8)
    (header : DnsHeader) : Except Fault (Server × List Sent) := do
  if header.qdcount ≠ 1 then
    -- the header has the id 0, not that of the query
    return (s, [.reply client (dumpHeader (getErrorHeader .formatError))])
  let (question, _) ← parseQuestion buf
  answerQuery s now client header question

/-! ## Responses -/

/-- A parsed response: as many records in each section as its header counts. -/
structure Response where
  header : DnsHeader
  question : DnsQuestion
  answer : List DnsResourceRecord
  authority : List DnsResourceRecord
  additional : List DnsResourceRecord
  answer_length : answer.length = header.ancount.toNat
  authority_length : authority.length = header.nscount.toNat
  additional_length : additional.length = header.arcount.toNat

/-- A parsing loop over `n` records. -/
def parseRecords (nameBuf : List UInt8) : (n : ℕ) → (buf : List UInt8) →
    Except Fault ({rrs : List DnsResourceRecord // rrs.length = n} × List UInt8)
  | 0, buf => .ok (⟨[], rfl⟩, buf)
  | n + 1, buf => do
    let (rr, buf) ← parseResourceRecord buf nameBuf
    let (⟨rrs, h⟩, buf) ← parseRecords nameBuf n buf
    return (⟨rr :: rrs, by rw [List.length_cons, h]⟩, buf)

/-- The parsing part of `handle_receive_response`. -/
def parseResponse (buf nameBuf : List UInt8) (header : DnsHeader) : Except Fault Response := do
  let (question, buf) ← parseQuestion buf
  let (⟨answer, answer_length⟩, buf) ← parseRecords nameBuf header.ancount.toNat buf
  let (⟨authority, authority_length⟩, buf) ← parseRecords nameBuf header.nscount.toNat buf
  let (⟨additional, additional_length⟩, _) ← parseRecords nameBuf header.arcount.toNat buf
  return { header, question, answer, authority, additional,
           answer_length, authority_length, additional_length }

/-- One iteration of a caching loop of `handle_receive_response`: the cache, and the node
allocated for the record. -/
def cacheRecord (now : ℤ) (qname : CString) (rrType : RrType) (c : Cache)
    (rr : DnsResourceRecord) : Except Fault (Cache × ℕ) := do
  let (heap, node) := listNodeCtorWithInfo c.heap rr rrType now (minU32 180 rr.ttl).toNat
  let c := { c with heap }
  match cacheTypeOf rr.type with
  -- a record of another type leaves its node outside all lists
  | none => return (c, node)
  | some t => return (← cacheInsert c t qname node, node)

/-- A caching loop of `handle_receive_response`: the cache, and the nodes allocated. -/
def cacheSection (now : ℤ) (qname : CString) (rrType : RrType) :
    Cache → List DnsResourceRecord → Except Fault (Cache × List ℕ)
  | c, [] => .ok (c, [])
  | c, rr :: rrs => do
    let (c, node) ← cacheRecord now qname rrType c rr
    let (c, nodes) ← cacheSection now qname rrType c rrs
    return (c, node :: nodes)

/-- The nodes allocated for the sections of a response. -/
structure SectionNodes where
  answer : List ℕ
  authority : List ℕ
  additional : List ℕ

/-- The caching part of `handle_receive_response`. -/
def cacheResponse (c : Cache) (now : ℤ) (r : Response) :
    Except Fault (Cache × SectionNodes) := do
  if r.header.rcode = ReplyCode.noError.toBits then
    let (c, answer) ← cacheSection now r.question.qname .answer c r.answer
    let (c, authority) ← cacheSection now r.question.qname .authority c r.authority
    let (c, additional) ← cacheSection now r.question.qname .additional c r.additional
    return (c, ⟨answer, authority, additional⟩)
  else return (c, ⟨[], [], []⟩)

/-- `handle_send_response`, with a send buffer of any size. -/
def handleSendResponse (s : Server) (reqId : UInt16) (r : Response) : Sent :=
  let entry := s.convertTable reqId.toNat
  .reply entry.bufSock (dumpHeader { r.header with id := entry.bufReqId } ++
    dumpQuestion r.question ++ r.answer.flatMap dumpResourceRecord ++
    r.authority.flatMap dumpResourceRecord ++ r.additional.flatMap dumpResourceRecord)

/-- `handle_receive_response` once the response is parsed: the server, what is sent, and the
nodes allocated for the records. -/
def relayResponse (s : Server) (now : ℤ) (r : Response) :
    Except Fault (Server × List Sent × SectionNodes) := do
  -- the records are cached before the id is checked
  let (cache, nodes) ← cacheResponse s.cache now r
  let s := { s with cache }
  let reqId := r.header.id
  let entry := s.convertTable reqId.toNat
  if entry.valid = 0 then return (s, [], nodes)
  let sent := handleSendResponse s reqId r
  -- the flag stays set until the waiting query wakes up
  let table := Function.update s.convertTable reqId.toNat { entry with sem := entry.sem + 1 }
  return ({ s with convertTable := table }, [sent], nodes)

/-- `handle_receive_response`. -/
def handleReceiveResponse (s : Server) (now : ℤ) (buf nameBuf : List UInt8)
    (header : DnsHeader) : Except Fault (Server × List Sent) := do
  let r ← parseResponse buf nameBuf header
  let (s, sent, _) ← relayResponse s now r
  return (s, sent)

/-! ## Received datagrams -/

/-- The receive buffer of a datagram, allocated with zeros. -/
def receiveBuffer (datagram : List UInt8) : List UInt8 :=
  datagram ++ List.replicate (bufferLen - datagram.length) 0

/-- `handle_stream` on the receive buffer of a datagram from `client`. -/
def handleStream (s : Server) (now : ℤ) (client : SockAddr) (datagram : List UInt8) :
    Except Fault (Server × List Sent) := do
  -- a pointer is resolved from the start of the whole buffer
  let nameBuf := receiveBuffer datagram
  let (header, buf) ← parseHeader nameBuf
  if header.qr = 0 then handleReceiveQuery s now client buf header
  else handleReceiveResponse s now buf nameBuf header

end Adrift
