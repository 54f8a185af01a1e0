import PeerConnect.Wire.Value
import Mathlib.Data.List.AList
import Mathlib.Data.Nat.Size
import Mathlib.Data.Nat.Log

/-! The center of a palm tree: it lays the peers out as a hypercube, asks who takes part, and tells
everybody who takes part its neighbours. -/
namespace PeerConnect.PalmTree
open Library Wire

/-- What the dictionaries know a peer by: the bytes of its id, or a text. -/
inductive PeerKey
  | bytes (id : Bytes)
  | text (s : List Char)
  deriving DecidableEq, Repr

structure RemotePeer where
  id : Bytes
  deriving DecidableEq, Repr

namespace RemotePeer

/-- The attribute `id`, as a key. -/
def idKey (p : RemotePeer) : PeerKey := .bytes p.id

/-- The property `peer_id`, `str(self.long_id)`. -/
def peerId (p : RemotePeer) : PeerKey := .text (Nat.toDigits 10 (ofNetworkOrder p.id))

end RemotePeer

abbrev Address := List Char × ℕ

structure InformResponse where
  peerId : PeerKey
  passiveAddr : Address
  activeAddr : Address
  deriving DecidableEq, Repr

/-- A `defaultdict` of lists. -/
abbrev AdjacencyList := AList fun _ : PeerKey => List PeerKey

namespace AdjacencyList

def neighbours (a : AdjacencyList) (k : PeerKey) : List PeerKey := (a.lookup k).getD []

/-- Reading a key that is missing sets it to an empty list. -/
def read (a : AdjacencyList) (k : PeerKey) : AdjacencyList := a.insert k (a.neighbours k)

def append (a : AdjacencyList) (k x : PeerKey) : AdjacencyList := a.insert k (a.neighbours k ++ [x])

/-- `self.adjacency_list[k].remove(x)` -/
def remove (a : AdjacencyList) (k x : PeerKey) : Except Exn AdjacencyList :=
  if x ∈ a.neighbours k then .ok (a.insert k ((a.neighbours k).erase x)) else .error .valueError

end AdjacencyList

/-- `(2 ** math.ceil(math.log2(n))).bit_length() - 1` -/
def dimensions (n : ℕ) : ℕ := Nat.size (2^Nat.clog 2 n)-1

/-- The pairs of a peer and its neighbour, as the loops over positions and dimensions meet them. -/
def hypercubePairs (nodes : List RemotePeer) : List (RemotePeer × RemotePeer) :=
  nodes.zipIdx.flatMap fun (peer,i) =>
    (List.range (dimensions nodes.length)).filterMap fun j =>
      nodes[i ^^^ (1 <<< j)]?.map fun neigh => (peer,neigh)

def createHypercube (nodes : List RemotePeer) : AdjacencyList :=
  (hypercubePairs nodes).foldl (fun a e => a.append e.1.idKey e.2.idKey) ∅

abbrev ConfirmedPeers := AList fun _ : PeerKey => InformResponse

/-- The protocol object, with the dictionaries it fills. -/
structure PalmTreeProtocol where
  centerPeer : RemotePeer
  adjacencyList : AdjacencyList
  confirmedPeers : ConfirmedPeers

abbrev AddressesMapping := List (PeerKey × Address × Address)

/-- What `update_states` leaves: the dictionary, what the center's relay is told, and the datagrams. -/
structure Updated where
  adjacencyList : AdjacencyList
  relay : AddressesMapping
  sent : List (Address × AddressesMapping) := []

namespace PalmTreeProtocol

/-- The constructor reads the center's own neighbours once. -/
def init (centerPeer : RemotePeer) (peerList : List RemotePeer) : PalmTreeProtocol where
  centerPeer := centerPeer
  adjacencyList := (createHypercube (centerPeer::peerList)).read centerPeer.idKey
  confirmedPeers := ∅

/-- A peer has not answered. -/
def discard (p : PalmTreeProtocol) (peer : RemotePeer) : Except Exn PalmTreeProtocol := do
  let a := p.adjacencyList.read peer.peerId
  let a ← (a.neighbours peer.peerId).foldlM (fun a k => a.remove k peer.peerId) a
  pure { p with adjacencyList := a.erase peer.peerId }

/-- One of the tasks asking the peers has completed. -/
def settle (p : PalmTreeProtocol) : RemotePeer × Option InformResponse → Except Exn PalmTreeProtocol
  | (_,some conformation) =>
    .ok { p with confirmedPeers := p.confirmedPeers.insert conformation.peerId conformation }
  | (peer,none) => p.discard peer

/-- `inform_peers`, with what the tasks return in the order they complete. -/
def informPeers (p : PalmTreeProtocol) (passive active : Address)
    (completed : List (RemotePeer × Option InformResponse)) : Except Exn PalmTreeProtocol :=
  let center := p.centerPeer.idKey
  let confirmed := p.confirmedPeers.insert center ⟨center,passive,active⟩
  completed.foldlM settle { p with confirmedPeers := confirmed }

def addressesMapping (confirmed : ConfirmedPeers) (peerIds : List PeerKey) : AddressesMapping :=
  peerIds.filterMap fun k => (confirmed.lookup k).map fun r => (k,r.passiveAddr,r.activeAddr)

/-- One confirmed peer is told its neighbours. -/
def updatePeer (confirmed : ConfirmedPeers) (s : Updated) (k : PeerKey) : Updated :=
  match confirmed.lookup k with
  | none => s
  | some response =>
    { s with
      adjacencyList := s.adjacencyList.read k
      sent := s.sent ++
        [(response.passiveAddr,addressesMapping confirmed (s.adjacencyList.neighbours k))] }

def updateStates (p : PalmTreeProtocol) : Updated :=
  let center := p.centerPeer.idKey
  let told := addressesMapping p.confirmedPeers (p.adjacencyList.neighbours center)
  (p.confirmedPeers.keys.filter (· ≠ center)).foldl (updatePeer p.confirmedPeers)
    { adjacencyList := p.adjacencyList.read center, relay := told }

end PalmTreeProtocol
end PeerConnect.PalmTree
