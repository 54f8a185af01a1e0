import PeerConnect.Core.DiscoveryRequests
import PeerConnect.Core.Posting
import PeerConnect.Kademlia.PeerLists

/-! Discovery: how a node asks for peers, what it answers to those that ask, and which addresses it tries to
bootstrap from. -/
namespace PeerConnect.Core
open Library Wire Kademlia Transfers
open RemotePeer (reqUri)

namespace Discovery
def networkFind : Value := .bin [0]
def networkFindReply : Value := .bin [1]

/-- An address as the tuple that it is. -/
def tupleOf (a : Address) : List Value := [.str a.1,.int a.2]

/-- `value[0]` -/
def first : Value → Except Exn Value
  | .array [] | .str [] | .bin [] => .error .indexError
  | .array (v::_) => .ok v
  | .str (c::_) => .ok (.str [c])
  | .bin (b::_) => .ok (.int b.toNat)
  | .map kvs =>
    match kvs.find? fun kv => kv.1.isZero with
    | some kv => .ok kv.2
    | none => .error .keyError
  | _ => .error .typeError

/-- `value == text` -/
def isText (text : List Char) : Value → Bool
  | .str s => s = text
  | _ => false

/-- `packet[key]` -/
def item (w : WireData) (key : List Char) : Except Exn Value :=
  match w.body.lookup key with
  | some v => .ok v
  | none => .error .keyError

/-- `tuple(value)` -/
def toTuple (v : Value) : Except Exn (List Value) :=
  match v.elements with
  | some xs => .ok xs
  | none => .error .typeError

/-- What `send_discovery_requests` asks. -/
def pingData (me : RemotePeer) : WireData :=
  ⟨networkFind,.str me.peerId,.float (.finite 1),[("reply_addr".toList,.array (tupleOf (reqUri me)))],.nil⟩

/-- What is answered to it. -/
def dataPayload (me : RemotePeer) : WireData :=
  ⟨networkFindReply,.str me.peerId,.float (.finite 1),[("connect_uri".toList,.array (tupleOf (reqUri me)))],.nil⟩

/-- `DiscoveryRequestHandler`: the reply and where it goes. The echo of a request is ignored, and so is
any other from this machine. -/
def discoveryRequestHandler (u : Umsgpack) (me : RemotePeer) (event : RequestEvent) :
    Except Exn (Option (List Value × Bytes)) := do
  let ip ← first (← item event.request "reply_addr".toList)
  if isText me.ip ip then return none
  match (dataPayload me).toBytes u with
  | none => throw .packException
  | some data => do
    let address ← toTuple (← item event.request "reply_addr".toList)
    match DiscoveryTransport.new.sendto data with
    | none => throw .structError
    | some datagram => return some (address,datagram)

/-- `DiscoveryReplyHandler` up to the call of `bootstrap`: the address that it is called with. -/
def discoveryReplyHandler (me : RemotePeer) (event : RequestEvent) : Except Exn (Option (List Value)) := do
  if event.fromAddr.1 = me.ip then return none
  return some (← toTuple (← item event.request "connect_uri".toList))

end Discovery

/-- The part of a node that discovers others: its coroutine with the packet that this sends, the calls of
`bootstrap` that have not returned, and the addresses of all that have been made. -/
structure DiscoveryNode where
  registered : Bool := false
  requests : Option (DiscoveryRequests × Bytes) := none
  bootstrapping : List (List Value) := []
  tried : List (List Value) := []
  aborted : Bool := false

namespace Discovery

/-- What happens at a node apart from its datagrams: `discovery_initiate`, a wake-up of its coroutine, the
user names a host with some addresses, a call of `bootstrap` returns or raises, or another part of the program
sends something. -/
inductive Input
  | initiate (now : ℚ)
  | wake (e : DiscoveryRequests.WakeUp)
  | hostNamed (now : ℚ) (addresses : List (List Value))
  | returned (i : ℕ) (ending : Except Exn Unit)
  | other (destination : List Value) (data : Bytes)

/-- An exception in a task of the dispatcher. All but a `RuntimeError` abort its task group, together with
the task that has entered it: the coroutine, of which the passive mode goes on if the user is being asked.
If that task is over they are only reported. -/
def failed (e : Exn) (s : DiscoveryNode) : DiscoveryNode :=
  match s.requests with
  | none => s
  | some (requests,ping) =>
    if e = .runtimeError ∨ requests.waiting = none ∧ requests.asked = false then s
    else { s with
      aborted := true, bootstrapping := []
      requests := if requests.asked then some ({ requests with asked := false },ping) else none }

variable (u : Umsgpack) (multicastAddr : List Value) (me : Address → RemotePeer)

/-- Send the packet of the coroutine to some addresses. A packet that is too long for the transport ends the
coroutine instead. -/
def sendPing (n : Address) (requests : DiscoveryRequests) (ping : Bytes) (addresses : List (List Value))
    (s : DiscoveryNode) : Reaction DiscoveryNode (Posted (List Value)) :=
  match DiscoveryTransport.new.sendto ping with
  | none => ⟨{ s with requests := none },[]⟩
  | some data => ⟨{ s with requests := some (requests,ping) },addresses.map fun a => ⟨n,a,data⟩⟩

def onInput (n : Address) (s : DiscoveryNode) : Input → Reaction DiscoveryNode (Posted (List Value))
  | .initiate now =>
    match (pingData (me n)).toBytes u with
    | none => ⟨{ s with registered := true, requests := none },[]⟩
    | some ping => ⟨{ s with registered := true, requests := some (.start now,ping) },[]⟩
  | .wake e =>
    match s.requests with
    | none => ⟨s,[]⟩
    | some (requests,ping) =>
      let requests' := requests.wake e
      if requests'.packets = requests.packets then ⟨{ s with requests := some (requests',ping) },[]⟩
      else sendPing n requests' ping [multicastAddr] s
  | .hostNamed now addresses =>
    match s.requests with
    | none => ⟨s,[]⟩
    | some (requests,ping) =>
      if requests.asked then sendPing n (requests.hostNamed now addresses.length) ping addresses s else ⟨s,[]⟩
  | .returned i ending =>
    match s.bootstrapping[i]?, ending with
    | none,_ => ⟨s,[]⟩
    | some _,.ok _ => ⟨{ s with bootstrapping := s.bootstrapping.eraseIdx i },[]⟩
    | some _,.error e => ⟨failed e { s with bootstrapping := s.bootstrapping.eraseIdx i },[]⟩
  | .other destination data => ⟨s,[⟨n,destination,data⟩]⟩

/-- `DiscoveryDispatcher.submit`, with the handlers that `discovery_initiate` registers. -/
def submit (n : Address) (event : RequestEvent) (s : DiscoveryNode) :
    Reaction DiscoveryNode (Posted (List Value)) :=
  match event.request.header with
  | .bin [0] =>
    match discoveryRequestHandler u (me n) event with
    | .error e => ⟨failed e s,[]⟩
    | .ok none => ⟨s,[]⟩
    | .ok (some (address,datagram)) => ⟨s,[⟨n,address,datagram⟩]⟩
  | .bin [1] =>
    match discoveryReplyHandler (me n) event with
    | .error e => ⟨failed e s,[]⟩
    | .ok none => ⟨s,[]⟩
    | .ok (some address) =>
      ⟨{ s with bootstrapping := s.bootstrapping ++ [address], tried := s.tried ++ [address] },[]⟩
  | header => ⟨failed (if header.hashable then .keyError else .typeError) s,[]⟩

/-- A datagram goes through the endpoint and the requests dispatcher, in which an id without a hash raises, to
the discovery dispatcher if it is for that. The requests dispatcher is aborted only while the task that has
entered it is not over. -/
def onDatagram (n : Address) (d : Posted (List Value)) (initiated : Bool) (s : DiscoveryNode) :
    Reaction DiscoveryNode (Posted (List Value)) :=
  match d.event? u with
  | none => ⟨s,[]⟩
  | some event =>
    if s.aborted then ⟨s,[]⟩
    else if event.request.id.hashable = false then ⟨{ s with aborted := !initiated },[]⟩
    else if event.rootCode = RequestsHeaders.discovery ∧ s.registered then submit u me n event s
    else ⟨s,[]⟩

/-- The nodes by the addresses of their requests endpoints. Which of them a datagram reaches depends on what
it is addressed to: one of them, the multicast group, or whatever host a user has named. -/
def parties (reaches : List Value → Address → Bool) :
    Parties Address Input Bool DiscoveryNode (Posted (List Value)) where
  react n x s :=
    match x with
    | .input i => onInput u multicastAddr me n s i
    | .datagram d initiated => onDatagram u me n d initiated s
  reaches d n := reaches d.destination n

end Discovery
end PeerConnect.Core
