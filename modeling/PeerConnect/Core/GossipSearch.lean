import PeerConnect.Core.PeerObjects
import PeerConnect.Core.Posting
import PeerConnect.Core.SearchIterator
import PeerConnect.Transfers.Dissemination
import PeerConnect.Transfers.ToldOnce

/-! Searching for peers by a part of their names: what a node does to ask, and what it does with the
gossip that reaches it. -/
namespace PeerConnect.Core
open Library Wire Kademlia Transfers

namespace GossipHeaders
def message : Value := .str ['\x00']
def searchReq : Value := .str ['\x01']
def searchReply : Value := .str ['\x02']
end GossipHeaders

/-- `bool(value)` -/
def truth : Value → Bool
  | .nil => false
  | .bool b => b
  | .int n => n ≠ 0
  | .float (.finite q) => q ≠ 0
  | .float _ => true
  | .str s => !s.isEmpty
  | .bin b => !b.isEmpty
  | .array xs => !xs.isEmpty
  | .map kvs => !kvs.isEmpty
  | .ext _ _ => true
  | .timestamp _ _ => true

/-- What an iterator hands out: a peer, or a message that is as good as none. -/
inductive SearchResponse
  | peer (p : PeerObject)
  | nothing (message : Value)

/-- The gossip part of a node. What it sends while it handles one event is collected in `sent` of the
protocol, by the ids of peers, and in `replies`, by address. -/
structure GossipNode (ι : Type) where
  globalGossip : RumorMongerProtocol GossipMessage ι (List Char) := {}
  messageStateDict : AList fun _ : ι => SearchIterator SearchResponse := ∅
  replies : List (Address × Bytes) := []
  aborted : Bool := false

/-- What a call finds: the peers of `Dock.peer_list` with the clocks and the random numbers, where the peers
are, and whether the task that has entered the task groups of the dispatchers is over, in which case an
exception in them is only reported. -/
structure Circumstances extends Surroundings (List Char) where
  reqUri : List Char → Address
  initiated : Bool

namespace GossipSearch

/-- `GossipMessage()` -/
def blank : GossipMessage := ⟨⟨.nil,.nil,.float (.finite 1),[],.nil⟩⟩

def prepareReply (replyId : Value) (serialized : Bytes) (time : ℚ) : GossipMessage :=
  (((blank.setHeader GossipHeaders.searchReply).setId replyId).setMessage (.bin serialized)).setCreated
    (.float (.finite time))

def prepareSearchMessage (findStr uniqueId : List Char) (time : ℚ) : GossipMessage :=
  (((blank.setHeader GossipHeaders.searchReq).setMessage (.str findStr)).setId (.str uniqueId)).setCreated
    (.float (.finite time))

/-- A message as the protocol looks at it, in the datagram that carries it. -/
def rumor {ι : Type} (u : Umsgpack) (key : Value → Except Exn ι) : Rumor GossipMessage ι :=
  { gossipRumor u key with toBytes := fun m => datagramOf u GossipTransport.new m.actualData }

/-- `RemotePeer.is_relevant`: only a text can be looked for in a text. -/
def isRelevant (p : RemotePeer) : Value → Except Exn Bool
  | .str matchString => .ok (decide (matchString <:+: p.username))
  | _ => .error .typeError

section Handlers
variable {ι : Type} [DecidableEq ι]
variable (u : Umsgpack) (printer : Printer) (key : Value → Except Exn ι) (me : RemotePeer)

/-- Something done to the protocol. -/
def gossiper {α : Type} (x : Coro Exn (RumorMongerProtocol GossipMessage ι (List Char)) α) :
    Coro Exn (GossipNode ι) α :=
  Coro.zoom (fun s => s.globalGossip) (fun g s => { s with globalGossip := g }) id x

def searchFor (findStr uniqueId : List Char) (c : Circumstances) : Coro Exn (GossipNode ι) Unit := do
  let m := prepareSearchMessage findStr uniqueId c.time
  gossiper (RumorMongerProtocol.gossipMessage (rumor u key) c.toSurroundings m)
  let id ← Coro.ofExcept (key m.id)
  Coro.modify fun s => { s with messageStateDict := s.messageStateDict.insert id {} }

/-- The handler of `GlobalGossipMessageHandler`, which prints the message first. -/
def globalGossipMessageHandler (m : GossipMessage) (c : Circumstances) :
    Coro Exn (GossipNode ι) Unit := do
  Coro.ofExcept m.repr
  gossiper (RumorMongerProtocol.messageArrived (rumor u key) c.toSurroundings m)

def requestArrived (m : GossipMessage) (c : Circumstances) : Coro Exn (GossipNode ι) (Option Bytes) := do
  let relevant ← Coro.ofExcept (isRelevant me m.message)
  if relevant then
    match (PeerObject.ofRemotePeer me).toBytes u with
    | none => Coro.raise .packException
    | some serialized => do
      let reply ← Coro.ofExcept
        (datagramOf u GossipTransport.new (prepareReply m.id serialized c.time).actualData)
      pure (some reply)
  else pure none

/-- A request that has not been seen is treated as any other message. -/
def passUnseen (m : GossipMessage) (c : Circumstances) : Coro Exn (GossipNode ι) Unit := do
  let id ← Coro.ofExcept (key m.id)
  let isSeen ← Coro.get fun s => decide (id ∈ s.globalGossip.messageList)
  if isSeen then pure () else globalGossipMessageHandler u key m c

/-- The answer of `request_arrived` goes to where the request has come from. -/
def answer (m : GossipMessage) (fromAddr : Address) (c : Circumstances) :
    Coro Exn (GossipNode ι) Unit := do
  let reply ← requestArrived u me m c
  match reply with
  | none => pure ()
  | some data => Coro.modify fun s => { s with replies := s.replies ++ [(fromAddr,data)] }

/-- The handler of `GossipSearchReqHandler`. -/
def searchReqHandler (m : GossipMessage) (fromAddr : Address) (c : Circumstances) :
    Coro Exn (GossipNode ι) Unit := do
  passUnseen u key m c
  answer u me m fromAddr c

/-- What a reply says: only bytes can be loaded. -/
def response (message : Value) : Except Exn SearchResponse :=
  if truth message then
    match message with
    | .bin data => (PeerObject.loadFrom u printer data).map .peer
    | _ => .error .typeError
  else .ok (.nothing message)

def replyArrived (m : GossipMessage) (c : Circumstances) : Coro Exn (GossipNode ι) Unit := do
  gossiper (RumorMongerProtocol.messageArrived (rumor u key) c.toSurroundings m)
  let id ← Coro.ofExcept (key m.id)
  let resultIter ← Coro.get fun s => s.messageStateDict.lookup id
  match resultIter with
  | none => pure ()
  | some it => do
    let r ← Coro.ofExcept (response u printer m.message)
    Coro.modify fun s => { s with messageStateDict := s.messageStateDict.insert id (it.addPeer r) }

/-- The handler of `GossipSearchReplyHandler`, which prints the message first. -/
def searchReplyHandler (m : GossipMessage) (c : Circumstances) : Coro Exn (GossipNode ι) Unit := do
  Coro.ofExcept m.repr
  replyArrived u printer key m c

/-- `GossipDispatcher.submit`, with the handlers that `initiate_gossip` registers. -/
def submit (m : GossipMessage) (fromAddr : Address) (c : Circumstances) :
    Coro Exn (GossipNode ι) Unit :=
  match m.header with
  | .str ['\x00'] => globalGossipMessageHandler u key m c
  | .str ['\x01'] => searchReqHandler u key me m fromAddr c
  | .str ['\x02'] => searchReplyHandler u printer key m c
  | header => if header.hashable then Coro.raise .keyError else Coro.raise .typeError

end Handlers

/-- What somebody at a node can do: search, gossip a message, or read the answers to a search. -/
inductive Input (ι : Type)
  | searchFor (findStr uniqueId : List Char) (c : Circumstances)
  | gossipMessage (message : GossipMessage) (c : Circumstances)
  | aiter (id : ι) (now : ℚ)
  | anext (id : ι) (now : ℚ)
  | wake (id : ι)
  | expire (id : ι) (now : ℚ)

variable {ι : Type} [DecidableEq ι]

/-- The reader of an iterator goes on. -/
def read (id : ι) (f : SearchIterator SearchResponse → SearchIterator SearchResponse) (s : GossipNode ι) :
    GossipNode ι :=
  match s.messageStateDict.lookup id with
  | none => s
  | some it => { s with messageStateDict := s.messageStateDict.insert id (f it) }

/-- The node as it begins with an event, nothing sent yet. -/
def fresh (s : GossipNode ι) : GossipNode ι :=
  { s with globalGossip := { s.globalGossip with sent := [] }, replies := [] }

variable (u : Umsgpack) (printer : Printer) (key : Value → Except Exn ι) (me : Address → RemotePeer)

/-- The datagrams of an event at the node of that address. -/
def posts (n : Address) (c : Circumstances) (s : GossipNode ι) : List (Posted Address) :=
  (s.globalGossip.sent.filterMap fun x =>
    match datagramOf u GossipTransport.new x.1.actualData with
    | .ok data => some ⟨n,c.reqUri x.2,data⟩
    | .error _ => none) ++
  s.replies.map fun r => ⟨n,r.1,r.2⟩

/-- Run something that the program itself has called, whoever gets its exception. -/
def call (n : Address) (c : Circumstances) (x : Coro Exn (GossipNode ι) Unit) (s : GossipNode ι) :
    Reaction (GossipNode ι) (Posted Address) :=
  let s' := (x (fresh s)).state
  ⟨s',posts u n c s'⟩

/-- Run a handler as a task of the dispatcher, which its exception may abort. -/
def task (n : Address) (c : Circumstances) (x : Coro Exn (GossipNode ι) Unit) (s : GossipNode ι) :
    Reaction (GossipNode ι) (Posted Address) :=
  match x (fresh s) with
  | .raised _ s' => ⟨{ s' with aborted := !c.initiated },posts u n c s'⟩
  | r => ⟨r.state,posts u n c r.state⟩

def onInput (n : Address) (s : GossipNode ι) : Input ι → Reaction (GossipNode ι) (Posted Address)
  | .searchFor findStr uniqueId c => call u n c (searchFor u key findStr uniqueId c) s
  | .gossipMessage message c => call u n c (gossiper
      (RumorMongerProtocol.gossipMessage (rumor u key) c.toSurroundings message)) s
  | .aiter id now => ⟨read id (SearchIterator.aiter now) s,[]⟩
  | .anext id now => ⟨read id (SearchIterator.anext now) s,[]⟩
  | .wake id => ⟨read id SearchIterator.wake s,[]⟩
  | .expire id now => ⟨read id (SearchIterator.expire now) s,[]⟩

/-- A datagram goes through the endpoint and the requests dispatcher, in which an id without a hash raises, to
the gossip dispatcher if it is for that. A dispatcher that has been aborted takes nothing more. -/
def onDatagram (n : Address) (d : Posted Address) (c : Circumstances) (s : GossipNode ι) :
    Reaction (GossipNode ι) (Posted Address) :=
  match d.event? u with
  | none => ⟨s,[]⟩
  | some event =>
    if s.aborted then ⟨s,[]⟩
    else if event.request.id.hashable = false then ⟨{ s with aborted := !c.initiated },[]⟩
    else if event.rootCode = RequestsHeaders.gossip then
      task u n c (submit u printer key (me n) ⟨event.request⟩ event.fromAddr c) s
    else ⟨s,[]⟩

/-- The nodes by their addresses, each with its own peer object. -/
def parties : Parties Address (Input ι) Circumstances (GossipNode ι) (Posted Address) where
  react n x s :=
    match x with
    | .input i => onInput u key n s i
    | .datagram d c => onDatagram u printer key me n d c s
  reaches d n := d.destination = n

end GossipSearch
end PeerConnect.Core
