import PeerConnect.PalmTree.Relay

/-! Relays that send each other datagrams and connect streams. Every datagram that has ever been sent
may be delivered at any time, any number of times or never. -/
namespace PeerConnect.PalmTree
open Library

/-- A stream connection, from the relay that has made it. -/
structure Stream (ι : Type) where
  source : ι
  target : ι
  phase : StreamPhase
  deriving DecidableEq, Repr

structure Network (ι : Type) where
  relay : ι → Relay ι
  datagrams : List (Datagram ι) := []
  tasks : List (ι × Task ι) := []
  streams : List (Stream ι) := []

/-- What can happen next. An event that is not possible does nothing. -/
inductive Event (ι : Type)
  /-- a relay is told its neighbours -/
  | updateState (relay : ι) (addresses : List ι)
  /-- the root's future is resolved -/
  | startRoot
  /-- the root, its future resolved, forwards the first tree check -/
  | triggerSpanningFormation
  /-- a datagram is delivered, to a relay that knows the peer it names or does not -/
  | deliver (datagram : ℕ) (known : Bool)
  /-- a handler goes on, or what it waits for fails -/
  | resume (task : ℕ) (ok : Bool)
  /-- a relay gets a stream that has been connected to it -/
  | accept (stream : ℕ)
  /-- the answer to a stream's handshake arrives -/
  | linkOk (stream : ℕ)
  /-- somebody asks a relay to give up its link to a peer -/
  | requestDowngrade (relay peer : ι)
  /-- a child turns out to be slow -/
  | lag (relay peer : ι)
  /-- somebody who waits for a relay's parent link is cancelled -/
  | cancel (relay : ι)

namespace Network

variable {ι : Type} [DecidableEq ι]

/-- The relays as they are made. -/
def init (fanout : ι → ℤ) : Network ι := { relay := fun x => { fanout := fanout x } }

/-- A handler of a relay has done something. -/
def apply (x : ι) (e : Effect ι) (n : Network ι) : Network ι :=
  { n with
    relay := Function.update n.relay x e.relay
    datagrams := n.datagrams ++ e.send
    tasks := n.tasks ++ e.tasks.map (x,·) }

theorem apply_relay_self (x : ι) (e : Effect ι) (n : Network ι) :
    (n.apply x e).relay x = e.relay := Function.update_self _ _ _

theorem apply_relay_ne {x y : ι} (h : y ≠ x) (e : Effect ι) (n : Network ι) :
    (n.apply x e).relay y = n.relay y := Function.update_of_ne h _ _

/-- The relays whose future is done. -/
def settled (n : Network ι) : Set ι := {x | (n.relay x).parentLinkFut.done = true}

def setPhase (k : ℕ) (phase : StreamPhase) (n : Network ι) : Network ι :=
  { n with streams := n.streams.modify k fun s => { s with phase := phase } }

def phaseOf (k : ℕ) (n : Network ι) : Option StreamPhase := (n.streams[k]?).map (·.phase)

/-- The answer to a stream that is being answered has been sent. -/
def confirm (k : ℕ) (n : Network ι) : Network ι :=
  if n.phaseOf k = some .answering then n.setPhase k .confirmed else n

/-- A handler goes on, no longer waiting. The sending of an answer does not fail once the answer has
arrived; where it fails, the stream is not answered. -/
def resumeTask (x : ι) (ok : Bool) (n : Network ι) : Task ι → Network ι
  | .awaitParent senderId rounds =>
    n.apply x ((n.relay x).resumeAwaitParent x senderId rounds)
  | .connect peerId =>
    if ok then
      { n with
        streams := n.streams ++ [⟨x,peerId,.offered⟩]
        tasks := n.tasks ++ [(x,.handshake peerId n.streams.length)] }
    else n
  | .handshake peerId stream =>
    if ok ∧ n.phaseOf stream = some .confirmed then
      n.apply x { relay := (n.relay x).setLink peerId fun _ => ⟨.online,.outgoing⟩ }
    else n
  | .confirm peerId stream =>
    if ok ∨ n.phaseOf stream = some .confirmed then
      (n.apply x { relay := (n.relay x).setResult (some peerId) }).confirm stream
    else n.setPhase stream .closed

def step (root : ι) (n : Network ι) : Event ι → Network ι
  | .updateState x addresses => n.apply x { relay := (n.relay x).gossipUpdateState addresses }
  | .startRoot => n.apply root { relay := (n.relay root).setResult none }
  | .triggerSpanningFormation =>
    if (n.relay root).parentLinkFut.done then
      n.apply root ((n.relay root).forwardTreeCheckPacket root root)
    else n
  | .deliver k known =>
    match n.datagrams[k]? with
    | none => n
    | some d => n.apply d.target ((n.relay d.target).datagramReceived d known)
  | .resume k ok =>
    match n.tasks[k]? with
    | none => n
    | some (x,t) => resumeTask x ok { n with tasks := n.tasks.eraseIdx k } t
  | .accept k =>
    match n.streams[k]? with
    | some ⟨source,target,.offered⟩ =>
      let (e,phase) := (n.relay target).gossipAddStreamLink source k
      (n.apply target e).setPhase k phase
    | _ => n
  | .linkOk k => n.confirm k
  | .requestDowngrade x p =>
    { n with datagrams := n.datagrams ++ [⟨p,x,.gossipDowngradeConn,p⟩] }
  | .lag x p => n.apply x { relay := (n.relay x).setLink p fun l => { l with status := .lagging } }
  | .cancel x => n.apply x { relay := (n.relay x).cancelParent }

def run (root : ι) (n : Network ι) (events : List (Event ι)) : Network ι :=
  events.foldl (step root) n

/-- The relay has resolved its future with its link to the parent. -/
def parentOf (n : Network ι) (x p : ι) : Prop :=
  (n.relay x).parentLinkFut = .resolved (some p)

end Network
end PeerConnect.PalmTree
