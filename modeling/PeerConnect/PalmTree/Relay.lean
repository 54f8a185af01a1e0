import PeerConnect.Library.Slices
import Mathlib.Data.Finset.Basic
import Mathlib.Data.Finset.Card

/-! A relay of a palm tree: its links, and its handlers up to where they wait. Relays are known by
their peer ids, and a link by the peer on its other side. -/
namespace PeerConnect.PalmTree
open Library

inductive RelayState
  | initial
  | sessionInit
  | linksInitialized
  | treeCheckDone
  deriving DecidableEq, Repr

def RelayState.value : RelayState → ℕ
  | initial => 1
  | sessionInit => 2
  | linksInitialized => 3
  | treeCheckDone => 4

inductive LinkStatus
  | offline
  | online
  | lagging
  deriving DecidableEq, Repr

inductive Direction
  | outgoing
  | incoming
  deriving DecidableEq, Repr

/-- An active link, to a stream. -/
structure TreeLink where
  status : LinkStatus := .offline
  direction : Direction := .outgoing
  deriving DecidableEq, Repr

def TreeLink.isOnline (l : TreeLink) : Bool := l.status = .online
def TreeLink.isLagging (l : TreeLink) : Bool := l.status = .lagging
def TreeLink.isOutgoing (l : TreeLink) : Bool := l.direction = .outgoing

/-- `_parent_link_fut`. The root resolves it without a link. -/
inductive ParentFuture (ι : Type)
  | pending
  | resolved (link : Option ι)
  | cancelled
  deriving DecidableEq, Repr

def ParentFuture.done {ι : Type} : ParentFuture ι → Bool
  | pending => false
  | resolved _ => true
  | cancelled => true

inductive Header
  | gossipTreeCheck
  | gossipTreeReject
  | gossipUpgradeConn
  | gossipDowngradeConn
  deriving DecidableEq, Repr

/-- A datagram between the passive endpoints of two relays. -/
structure Datagram (ι : Type) where
  addr : ι
  target : ι
  header : Header
  id : ι
  deriving DecidableEq, Repr

structure Relay (ι : Type) where
  state : RelayState := .sessionInit
  fanout : ℤ
  allLinks : List ι := []
  link : ι → TreeLink := fun _ => {}
  activeLinks : Finset ι := ∅
  passiveLinks : Finset ι := ∅
  treeCheckWindowIndex : ℤ := 0
  expectedParentPeers : Finset ι := ∅
  parentLinkFut : ParentFuture ι := .pending

/-- A handler that waits. -/
inductive Task (ι : Type)
  /-- `gossip_tree_check`, for the parent link, with the rounds it may still make -/
  | awaitParent (senderId : ι) (rounds : ℕ)
  /-- `_activate_link`, for the stream to be connected -/
  | connect (peerId : ι)
  /-- `_activate_link`, for the answer to its handshake -/
  | handshake (peerId : ι) (stream : ℕ)
  /-- `gossip_add_stream_link`, for its answer to be sent -/
  | confirm (peerId : ι) (stream : ℕ)
  deriving DecidableEq, Repr

/-- What a handler does until it ends or waits. -/
structure Effect (ι : Type) where
  relay : Relay ι
  send : List (Datagram ι) := []
  tasks : List (Task ι) := []

/-- What becomes of an incoming stream connection. -/
inductive StreamPhase
  | offered
  | answering
  | confirmed
  | kept
  | closed
  deriving DecidableEq, Repr

namespace Relay

variable {ι : Type}

/-- `Future.set_result`, which raises on a future that is done. -/
def setResult (link : Option ι) (r : Relay ι) : Relay ι :=
  match r.parentLinkFut with
  | .pending => { r with parentLinkFut := .resolved link }
  | _ => r

/-- `Future.cancel` -/
def cancelParent (r : Relay ι) : Relay ι :=
  match r.parentLinkFut with
  | .pending => { r with parentLinkFut := .cancelled }
  | _ => r

variable [DecidableEq ι]

/-- The keys of a dictionary once others have been set. -/
def insertKeys (keys more : List ι) : List ι :=
  more.foldl (fun ks p => if p ∈ ks then ks else ks ++ [p]) keys

def gossipUpdateState (addresses : List ι) (r : Relay ι) : Relay ι :=
  if RelayState.linksInitialized.value ≤ r.state.value then r
  else
    let allLinks := insertKeys r.allLinks addresses
    { r with
      allLinks := allLinks
      link := fun p => if p ∈ addresses then {} else r.link p
      fanout := min allLinks.length r.fanout
      state := .linksInitialized }

def setLink (p : ι) (f : TreeLink → TreeLink) (r : Relay ι) : Relay ι :=
  { r with link := Function.update r.link p (f (r.link p)) }

/-- The reasons to reject a tree check. -/
def rejectReason (id : ι) (r : Relay ι) : List String :=
  (if id ∉ r.allLinks then ["peer not found in all_links "] else []) ++
  (if r.fanout < r.activeLinks.card then ["fully available active links "] else []) ++
  (if r.parentLinkFut.done then ["parent link available "] else []) ++
  (if RelayState.treeCheckDone.value ≤ r.state.value then ["tree check done"] else [])

/-- A tree check is only taken from a neighbour, and before one has been completed. -/
theorem rejectReason_nil {r : Relay ι} {id : ι} (h : r.rejectReason id = []) :
    id ∈ r.allLinks ∧ r.parentLinkFut.done = false ∧ r.state ≠ .treeCheckDone := by
  unfold rejectReason at h
  simp only [List.append_eq_nil_iff, ite_eq_right_iff, List.cons_ne_nil, imp_false, not_not] at h
  obtain ⟨⟨⟨hid,-⟩,hparent⟩,hstate⟩ := h
  refine ⟨hid,Bool.eq_false_iff.mpr hparent,?_⟩
  intro hdone
  rw [hdone] at hstate
  exact hstate le_rfl

/-- Send a tree check to the peers of the next window that have no active link. -/
def forwardTreeCheckPacket (this senderId : ι) (r : Relay ι) : Effect ι :=
  let windowStart := r.treeCheckWindowIndex
  let windowEnd := min (r.allLinks.length : ℤ) (windowStart+r.fanout) -
    (r.activeLinks.filter fun p => (r.link p).isOnline ∧ (r.link p).isOutgoing).card
  let peerIds := sliceInt r.allLinks windowStart (windowEnd+1)
  let sampledPeerIds := peerIds.filter fun p => p ≠ senderId ∧ p ∉ r.activeLinks
  { relay := { r with
      treeCheckWindowIndex := windowEnd
      activeLinks := r.activeLinks ∪ sampledPeerIds.toFinset }
    send := sampledPeerIds.map fun p => ⟨this,p,.gossipTreeCheck,this⟩ }

/-- The end of `gossip_tree_check`, once there is a parent link. -/
def finishTreeCheck (this senderId : ι) (r : Relay ι) : Effect ι :=
  let e := r.forwardTreeCheckPacket this senderId
  { e with relay := { e.relay with
      passiveLinks := e.relay.passiveLinks ∪ (e.relay.allLinks.toFinset \ e.relay.activeLinks)
      state := .treeCheckDone } }

/-- The rounds of the loop of `_send_upgrade_packet` that are left. Without any left it raises, and the
tree check ends. -/
def sendUpgradePacket (this senderId : ι) : ℕ → Relay ι → Effect ι
  | 0,r => { relay := r }
  | rounds+1,r =>
    if r.parentLinkFut.done then r.finishTreeCheck this senderId
    else
      { relay := r
        send := [⟨this,senderId,.gossipUpgradeConn,this⟩]
        tasks := [.awaitParent senderId rounds] }

/-- `max_retries` of `_send_upgrade_packet` -/
def maxRetries : ℕ := 3

/-- `gossip_tree_check`. A peer that is not known ends it. -/
def gossipTreeCheck (this id addr : ι) (known : Bool) (r : Relay ι) : Effect ι :=
  if known = false then { relay := r }
  else if r.rejectReason id ≠ [] then
    { relay := r, send := [⟨this,addr,.gossipTreeReject,this⟩] }
  else
    sendUpgradePacket this id maxRetries { r with
      expectedParentPeers := insert id r.expectedParentPeers
      activeLinks := insert id r.activeLinks }

/-- `gossip_tree_check` after waiting for the parent link. On a timeout `wait_for` cancels the future,
so that the next round finds it done. -/
def resumeAwaitParent (this senderId : ι) (rounds : ℕ) (r : Relay ι) : Effect ι :=
  match r.parentLinkFut with
  | .resolved _ =>
    finishTreeCheck this senderId (r.setLink senderId fun l => { l with direction := .incoming })
  | .cancelled => { relay := r }
  | .pending => sendUpgradePacket this senderId rounds r.cancelParent

def gossipTreeReject (this id : ι) (r : Relay ι) : Effect ι :=
  if (r.allLinks.length : ℤ) ≤ r.treeCheckWindowIndex then { relay := r }
  else if r.fanout ≤ r.activeLinks.card then { relay := r }
  else r.forwardTreeCheckPacket this id

def gossipUpgradeConnection (id : ι) (r : Relay ι) : Effect ι :=
  if id ∈ r.activeLinks ∧ (r.link id).isOnline then { relay := r }
  else if id ∉ r.activeLinks then { relay := r }
  else { relay := r, tasks := [.connect id] }

def gossipDowngradeConnection (id : ι) (r : Relay ι) : Relay ι :=
  if id ∈ r.activeLinks then
    { r.setLink id fun l => { l with status := .offline } with
      activeLinks := r.activeLinks.erase id
      passiveLinks := insert id r.passiveLinks }
  else r

/-- `gossip_add_stream_link`, up to its answer, with what becomes of the stream. -/
def gossipAddStreamLink (id : ι) (stream : ℕ) (r : Relay ι) : Effect ι × StreamPhase :=
  if id ∉ r.activeLinks then ({ relay := r },.closed)
  else if (r.link id).isOnline ∨ (r.link id).isLagging then
    ({ relay := r.setLink id fun l => { l with status := .online } },.kept)
  else if r.parentLinkFut.done then ({ relay := r },.closed)
  else if id ∈ r.expectedParentPeers then
    ({ relay := r.setLink id fun l => { l with status := .online }, tasks := [.confirm id stream] },
      .answering)
  else ({ relay := r },.kept)

/-- The handler a datagram is for. -/
def datagramReceived (d : Datagram ι) (known : Bool) (r : Relay ι) : Effect ι :=
  match d.header with
  | .gossipTreeCheck => r.gossipTreeCheck d.target d.id d.addr known
  | .gossipTreeReject => r.gossipTreeReject d.target d.id
  | .gossipUpgradeConn => r.gossipUpgradeConnection d.id
  | .gossipDowngradeConn => { relay := r.gossipDowngradeConnection d.id }

end Relay
end PeerConnect.PalmTree
