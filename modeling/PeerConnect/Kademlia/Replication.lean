import PeerConnect.Kademlia.PeerLists
import PeerConnect.Library.Datagrams

/-! The peer lists in the network: how the nodes enter themselves, hand lists over to nodes that are new to
them, and copy lists that they have found. -/
namespace PeerConnect.Kademlia
open Library Wire

/-- `distance_to` -/
def distance (p : RemotePeer) (listKey : NodeId) : ℕ := p.id.longId ^^^ listKey.longId

/-- A remote call. Of those that have nothing to do with lists it counts only that their caller is
welcomed. -/
inductive Call
  | storePeersInList (listKey : NodeId) (peerList : List Packed)
  | findListOfPeers (listKey : NodeId)
  | other

/-- What is in a datagram: a call with the peer object of its caller, or a response, which has a list in it
if a node that has the list was asked for it. -/
inductive Message
  | request (caller : RemotePeer) (call : Call)
  | response (value : Option (NodeId × List RemotePeer))

structure Mail where
  source : List Char × ℕ
  destination : List Char × ℕ
  message : Message

/-- What a datagram finds: the routing table, and the peer whose response it is, if it is one. -/
structure Routing where
  isNewNode : RemotePeer → Bool
  findNeighbors : NodeId → List RemotePeer
  asked : RemotePeer

/-- A server with the lists that it has been sent and those that `get_list_of_nodes` has returned. -/
structure PeerServer where
  storage : Storage := ∅
  values : List (NodeId × List RemotePeer) := []
  returned : List (NodeId × List RemotePeer) := []

namespace PeerServer

/-- What happens at a node of its own accord: it enters itself into its list, with what the crawl for this
has found; it asks a peer for a list; or a crawl for a list ends with some of the lists that have been sent
and the nearest peer without one. -/
inductive Input
  | addThisPeerToLists (nearest relevantPeers : List RemotePeer)
  | callFindPeerList (peerToAsk : RemotePeer) (listKey : NodeId)
  | handleFoundValues (listKey : NodeId) (which : List ℕ) (nearestWithoutValue : Option RemotePeer)

section Definitions
variable (me : RemotePeer)

def post (p : RemotePeer) (call : Call) : Mail := ⟨me.reqUri,p.reqUri,.request me call⟩

/-- Whether a list is handed over: no neighbours are known, or the new node is nearer to the list than the
last of them and this node nearer than the first. -/
def handsOver (peer : RemotePeer) (listKey : NodeId) (neighbors : List RemotePeer) : Bool :=
  match neighbors.head?, neighbors.getLast? with
  | some first,some last =>
    distance peer listKey < distance last listKey ∧ distance me listKey < distance first listKey
  | _,_ => true

/-- `_send_peer_lists`: the peers of a list are sent one by one. -/
def sendPeerLists (peer : RemotePeer) (r : Routing) (s : Storage) : List Mail :=
  s.entries.flatMap fun entry =>
    if handsOver me peer entry.1 (r.findNeighbors entry.1) then
      entry.2.map fun i => post me peer (.storePeersInList entry.1 [.peer i])
    else []

/-- `welcome_if_new` -/
def welcomeIfNew (peer : RemotePeer) (r : Routing) (s : Storage) : List Mail :=
  if r.isNewNode peer then sendPeerLists me peer r s else []

/-- `store_nodes_in_list` -/
def storeNodesInList (listKey : NodeId) (peerObjs : List Packed) (nearest relevantPeers : List RemotePeer)
    (s : PeerServer) : Reaction PeerServer Mail :=
  let calls := relevantPeers.map fun n => post me n (.storePeersInList listKey peerObjs)
  match nearest, (relevantPeers.map fun n => distance n listKey).max? with
  | [],_ | _,none => ⟨s,[]⟩
  | _::_,some biggest =>
    if distance me listKey < biggest then
      match s.storage.storePeersInList nodeListIds listKey peerObjs with
      | .error _ => ⟨s,[]⟩
      | .ok (_,storage) => ⟨{ s with storage := storage },calls⟩
    else ⟨s,calls⟩

/-- The lists that a crawl for this one has got. -/
def foundValues (listKey : NodeId) (which : List ℕ) (s : PeerServer) : List (List RemotePeer) :=
  which.filterMap fun i =>
    match s.values[i]? with
    | some (key,peers) => if key = listKey then some peers else none
    | none => none

def onInput (s : PeerServer) : Input → Reaction PeerServer Mail
  | .addThisPeerToLists nearest relevantPeers =>
    match getClosestListId me.id nodeListIds with
    | none => ⟨s,[]⟩
    | some listKey => storeNodesInList me listKey [.peer me] nearest relevantPeers s
  | .callFindPeerList peerToAsk listKey => ⟨s,[post me peerToAsk (.findListOfPeers listKey)]⟩
  | .handleFoundValues listKey which nearestWithoutValue =>
    let found := foundValues listKey which s
    if found = [] then ⟨s,[]⟩
    else ⟨{ s with returned := s.returned ++ [(listKey,found.flatten)] },
      nearestWithoutValue.toList.map fun p => post me p (.storePeersInList listKey (found.map .list))⟩

/-- The call itself, once its caller is welcomed. One that raises has no response. -/
def answer (source : List Char × ℕ) (s : PeerServer) : Call → Reaction PeerServer Mail
  | .storePeersInList listKey peerList =>
    match s.storage.storePeersInList nodeListIds listKey peerList with
    | .error _ => ⟨s,[]⟩
    | .ok (_,storage) => ⟨{ s with storage := storage },[⟨me.reqUri,source,.response none⟩]⟩
  | .findListOfPeers listKey =>
    ⟨s,[⟨me.reqUri,source,.response ((s.storage.getListOfPeers listKey).map fun peers => (listKey,peers))⟩]⟩
  | .other => ⟨s,[⟨me.reqUri,source,.response none⟩]⟩

/-- The peer that a datagram is welcomed for: its caller, or the one that responds. -/
def welcomed (d : Mail) (r : Routing) : RemotePeer :=
  match d.message with
  | .request caller _ => caller
  | .response _ => r.asked

def onDatagram (d : Mail) (r : Routing) (s : PeerServer) : Reaction PeerServer Mail :=
  let reaction : Reaction PeerServer Mail :=
    match d.message with
    | .request _ call => answer me d.source s call
    | .response value => ⟨{ s with values := s.values ++ value.toList },[]⟩
  ⟨reaction.state,welcomeIfNew me (welcomed d r) r s.storage ++ reaction.sends⟩

end Definitions

/-- The nodes, each with its own peer object. -/
def parties {ν : Type} (me : ν → RemotePeer) : Parties ν Input Routing PeerServer Mail where
  react n x s :=
    match x with
    | .input i => onInput (me n) s i
    | .datagram d r => onDatagram (me n) d r s
  reaches d n := d.destination = (me n).reqUri

/-! What is in the lists. -/

/-- The peers of an item that is sent to be stored. -/
def packedPeers : Packed → List RemotePeer
  | .peer p => [p]
  | .list ps => ps

theorem mem_packedPeers {x : Packed} {p : RemotePeer} (h : x.first = .ok p) : p ∈ packedPeers x := by
  cases x with
  | peer q =>
    cases h
    exact List.mem_singleton_self _
  | list ps =>
    cases ps with
    | nil => cases h
    | cons q ps =>
      cases h
      exact List.mem_cons_self

theorem mem_of_mapM_first {xs : List Packed} {ps : List RemotePeer} {p : RemotePeer}
    (h : xs.mapM Packed.first = .ok ps) (hp : p ∈ ps) : ∃ x ∈ xs, x.first = .ok p := by
  induction xs generalizing ps with
  | nil =>
    cases h
    cases hp
  | cons x xs ih =>
    rw [List.mapM_cons] at h
    cases hx : x.first with
    | error e =>
      rw [hx] at h
      cases h
    | ok q =>
      cases hxs : xs.mapM Packed.first with
      | error e =>
        rw [hx, hxs] at h
        cases h
      | ok qs =>
        rw [hx, hxs] at h
        cases h
        rcases List.mem_cons.mp hp with rfl | hp
        · exact ⟨x,List.mem_cons_self,hx⟩
        · obtain ⟨y,hy,hyp⟩ := ih hxs hp
          exact ⟨y,List.mem_cons_of_mem _ hy,hyp⟩

/-- What a list has after a request to store has been in it before, or is the first of an item of the
request. -/
theorem storePeersInList_cases {ids : List NodeId} {st st' : Storage} {listKey key : NodeId}
    {listOfPeers : List Packed} {stored : Bool} {p : RemotePeer}
    (h : st.storePeersInList ids listKey listOfPeers = .ok (stored,st')) (hp : st'.Holds key p) :
    st.Holds key p ∨ key = listKey ∧ listKey ∈ ids ∧ ∃ x ∈ listOfPeers, x.first = .ok p := by
  unfold Storage.storePeersInList at h
  split at h
  · cases h
    exact .inl hp
  next hmem =>
    cases hm : listOfPeers.mapM Packed.first with
    | error e =>
      rw [hm] at h
      cases h
    | ok filtered =>
      rw [hm] at h
      cases h
      obtain ⟨peers,hl,hp⟩ := hp
      by_cases hk : key = listKey
      · subst hk
        obtain rfl := Option.some.inj ((AList.lookup_insert _).symm.trans hl)
        rcases List.mem_union_iff.mp hp with hp | hp
        · left
          cases hold : st.lookup key with
          | none =>
            rw [hold] at hp
            cases hp
          | some old =>
            rw [hold] at hp
            exact ⟨old,hold,hp⟩
        · exact .inr ⟨rfl,not_not.mp hmem,mem_of_mapM_first hm hp⟩
      · exact .inl ⟨peers,(AList.lookup_insert_ne hk).symm.trans hl,hp⟩

variable {G : NodeId → RemotePeer → Prop}

/-- All that a server has of a list is fit for it. -/
structure Kept (G : NodeId → RemotePeer → Prop) (s : PeerServer) : Prop where
  storage : ∀ key p, s.storage.Holds key p → key ∈ nodeListIds ∧ G key p
  values : ∀ v ∈ s.values, ∀ p ∈ v.2, G v.1 p
  returned : ∀ v ∈ s.returned, ∀ p ∈ v.2, G v.1 p

/-- All that a message has of a list is fit for it. -/
def Fit (G : NodeId → RemotePeer → Prop) : Message → Prop
  | .request _ (.storePeersInList key peerList) => ∀ x ∈ peerList, ∀ p ∈ packedPeers x, G key p
  | .response (some v) => ∀ p ∈ v.2, G v.1 p
  | _ => True

theorem Kept.store {s : PeerServer} {listKey : NodeId} {peerList : List Packed} {stored : Bool} {st : Storage}
    (hs : Kept G s) (hfit : ∀ x ∈ peerList, ∀ p ∈ packedPeers x, G listKey p)
    (h : s.storage.storePeersInList nodeListIds listKey peerList = .ok (stored,st)) :
    Kept G { s with storage := st } := by
  refine ⟨fun key p hp => ?_,hs.values,hs.returned⟩
  rcases storePeersInList_cases h hp with hp | ⟨rfl,hkey,x,hx,hp⟩
  · exact hs.storage key p hp
  · exact ⟨hkey,hfit x hx p (mem_packedPeers hp)⟩

variable {me : RemotePeer} {s : PeerServer} {d : Mail}

/-- What is handed over to a new node is in the lists. -/
theorem mem_sendPeerLists {peer : RemotePeer} {r : Routing} {st : Storage} :
    d ∈ sendPeerLists me peer r st ↔ ∃ key p, st.Holds key p ∧
      handsOver me peer key (r.findNeighbors key) = true ∧
      d = post me peer (.storePeersInList key [.peer p]) := by
  simp only [sendPeerLists, List.mem_flatMap]
  constructor
  · rintro ⟨⟨key,peers⟩,he,hd⟩
    split at hd
    next hh =>
      obtain ⟨p,hp,rfl⟩ := List.mem_map.mp hd
      exact ⟨key,p,⟨peers,AList.mem_lookup_iff.mpr he,hp⟩,hh,rfl⟩
    · cases hd
  · rintro ⟨key,p,⟨peers,hl,hp⟩,hh,rfl⟩
    refine ⟨⟨key,peers⟩,AList.mem_lookup_iff.mp hl,?_⟩
    rw [if_pos hh]
    exact List.mem_map.mpr ⟨p,hp,rfl⟩

/-- What a node does with a datagram that is fit is fit. -/
theorem fit_welcomeIfNew (hs : Kept G s) {peer : RemotePeer} {r : Routing}
    (h : d ∈ welcomeIfNew me peer r s.storage) : Fit G d.message := by
  unfold welcomeIfNew at h
  split at h
  · obtain ⟨key,p,hp,-,rfl⟩ := mem_sendPeerLists.mp h
    intro x hx q hq
    rw [List.mem_singleton.mp hx] at hq
    rw [List.mem_singleton.mp hq]
    exact (hs.storage key p hp).2
  · cases h

theorem Kept.answer (hs : Kept G s) (me : RemotePeer) {call : Call} {caller : RemotePeer}
    (source : List Char × ℕ) (hd : Fit G (.request caller call)) : Kept G (answer me source s call).state ∧
      ∀ d ∈ (PeerServer.answer me source s call).sends, Fit G d.message := by
  cases call with
  | storePeersInList listKey peerList =>
    unfold PeerServer.answer
    dsimp only
    split
    · exact ⟨hs,fun d hd => absurd hd List.not_mem_nil⟩
    next stored st hst =>
      refine ⟨hs.store hd hst,fun d hd => ?_⟩
      rw [List.mem_singleton.mp hd]
      trivial
  | findListOfPeers listKey =>
    refine ⟨hs,fun d hd => ?_⟩
    rw [List.mem_singleton.mp hd]
    cases hl : s.storage.getListOfPeers listKey with
    | none => trivial
    | some peers => exact fun p hp => (hs.storage listKey p ⟨peers,hl,hp⟩).2
  | other =>
    refine ⟨hs,fun d hd => ?_⟩
    rw [List.mem_singleton.mp hd]
    trivial

theorem Kept.onDatagram (hs : Kept G s) (r : Routing) (hd : Fit G d.message) :
    Kept G (onDatagram me d r s).state ∧
      ∀ d' ∈ (PeerServer.onDatagram me d r s).sends, Fit G d'.message := by
  obtain ⟨source,destination,message⟩ := d
  cases message with
  | request caller call =>
    obtain ⟨hstate,hsends⟩ := hs.answer me source hd
    refine ⟨hstate,fun d' hd' => ?_⟩
    rcases List.mem_append.mp hd' with hd' | hd'
    · exact fit_welcomeIfNew hs hd'
    · exact hsends d' hd'
  | response value =>
    refine ⟨⟨hs.storage,fun v hv => ?_,hs.returned⟩,fun d' hd' => ?_⟩
    · rcases List.mem_append.mp hv with hv | hv
      · exact hs.values v hv
      · rw [Option.mem_toList.mp hv] at hd
        exact hd
    · rcases List.mem_append.mp hd' with hd' | hd'
      · exact fit_welcomeIfNew hs hd'
      · cases hd'

theorem Kept.storeNodesInList (hs : Kept G s) {listKey : NodeId} {p : RemotePeer} (hp : G listKey p)
    (nearest relevantPeers : List RemotePeer) :
    Kept G (storeNodesInList me listKey [.peer p] nearest relevantPeers s).state ∧
      ∀ d ∈ (PeerServer.storeNodesInList me listKey [.peer p] nearest relevantPeers s).sends,
        Fit G d.message := by
  have hfit : ∀ x ∈ [Packed.peer p], ∀ q ∈ packedPeers x, G listKey q := by
    intro x hx q hq
    rw [List.mem_singleton.mp hx] at hq
    rwa [List.mem_singleton.mp hq]
  have hcalls : ∀ d ∈ relevantPeers.map fun n => post me n (.storePeersInList listKey [.peer p]),
      Fit G d.message := by
    intro d hd
    obtain ⟨n,-,rfl⟩ := List.mem_map.mp hd
    exact hfit
  have hnone : ∀ d ∈ ([] : List Mail), Fit G d.message := fun d hd => absurd hd List.not_mem_nil
  unfold PeerServer.storeNodesInList
  dsimp only
  split
  · exact ⟨hs,hnone⟩
  · exact ⟨hs,hnone⟩
  · split
    · split
      · exact ⟨hs,hnone⟩
      next stored st hst => exact ⟨hs.store hfit hst,hcalls⟩
    · exact ⟨hs,hcalls⟩

theorem mem_foundValues {listKey : NodeId} {which : List ℕ} {peers : List RemotePeer}
    (h : peers ∈ foundValues listKey which s) : (listKey,peers) ∈ s.values := by
  obtain ⟨i,-,hi⟩ := List.mem_filterMap.mp h
  split at hi
  next key peers' hv =>
    split at hi
    next hk =>
      cases hi
      rw [← hk]
      exact List.mem_of_getElem? hv
    · cases hi
  · cases hi

theorem Kept.onInput (hs : Kept G s) {i : Input}
    (hi : ∀ nearest relevantPeers, i = .addThisPeerToLists nearest relevantPeers →
      ∀ key, getClosestListId me.id nodeListIds = some key → G key me) :
    Kept G (onInput me s i).state ∧ ∀ d ∈ (PeerServer.onInput me s i).sends, Fit G d.message := by
  cases i with
  | addThisPeerToLists nearest relevantPeers =>
    unfold PeerServer.onInput
    dsimp only
    split
    · exact ⟨hs,fun d hd => absurd hd List.not_mem_nil⟩
    next listKey hkey => exact hs.storeNodesInList (hi _ _ rfl listKey hkey) nearest relevantPeers
  | callFindPeerList peerToAsk listKey =>
    refine ⟨hs,fun d hd => ?_⟩
    rw [List.mem_singleton.mp hd]
    trivial
  | handleFoundValues listKey which nearestWithoutValue =>
    unfold PeerServer.onInput
    dsimp only
    split
    · exact ⟨hs,fun d hd => absurd hd List.not_mem_nil⟩
    · have hfound : ∀ peers ∈ foundValues listKey which s, ∀ p ∈ peers, G listKey p := fun peers hpeers =>
        hs.values _ (mem_foundValues hpeers)
      refine ⟨⟨hs.storage,hs.values,fun v hv => ?_⟩,fun d hd => ?_⟩
      · rcases List.mem_append.mp hv with hv | hv
        · exact hs.returned v hv
        · rw [List.mem_singleton.mp hv]
          intro p hp
          obtain ⟨peers,hpeers,hp⟩ := List.mem_flatten.mp hp
          exact hfound peers hpeers p hp
      · obtain ⟨q,-,rfl⟩ := List.mem_map.mp hd
        intro x hx p hp
        obtain ⟨peers,hpeers,rfl⟩ := List.mem_map.mp hx
        exact hfound peers hpeers p hp

/-! The network. -/

section Network
variable {ν : Type} [DecidableEq ν]

abbrev Event (ν : Type) : Type := Datagrams.Event ν Input Routing

def start : Datagrams ν PeerServer Mail := ⟨fun _ => {},[]⟩

def run (me : ν → RemotePeer) (es : List (Event ν)) : Datagrams ν PeerServer Mail :=
  Datagrams.run (parties me) start es

/-- The peer has entered itself into the list, which is the one nearest to it. -/
def Entered (me : ν → RemotePeer) (es : List (Event ν)) (listKey : NodeId) (p : RemotePeer) : Prop :=
  ∃ m nearest relevantPeers, .act m (.addThisPeerToLists nearest relevantPeers) ∈ es ∧ p = me m ∧
    getClosestListId p.id nodeListIds = some listKey

theorem kept_run (me : ν → RemotePeer) (es : List (Event ν)) :
    (∀ n, Kept (Entered me es) ((run me es).node n)) ∧
      ∀ d ∈ (run me es).sent, Fit (Entered me es) d.message := by
  refine @Datagrams.run_invariant _ _ _ _ _ _ (parties me) start es (fun _ s => Kept (Entered me es) s)
    (fun d => Fit (Entered me es) d.message) (fun n i => .act n i ∈ es) ?_ ?_ ?_ ?_ ?_
  · intro n i s hi hs
    change Kept _ (onInput (me n) s i).state ∧ ∀ d ∈ (onInput (me n) s i).sends, _
    refine hs.onInput ?_
    rintro nearest relevantPeers rfl key hkey
    exact ⟨n,nearest,relevantPeers,hi,rfl,hkey⟩
  · intro n d r s _ hd hs
    change Kept _ (onDatagram (me n) d r s).state ∧ ∀ d' ∈ (onDatagram (me n) d r s).sends, _
    exact hs.onDatagram r hd
  · intro n
    refine ⟨fun key p hp => ?_,fun v hv => absurd hv List.not_mem_nil,fun v hv => absurd hv List.not_mem_nil⟩
    obtain ⟨peers,hl,-⟩ := hp
    cases hl
  · exact fun d hd => absurd hd List.not_mem_nil
  · exact fun n i hi => hi

/-- In every run, whatever the routing tables and the crawls say, a list at any node, and a list that any
node has found, has only peers that have entered themselves into it, and it is the list nearest to each of
them. -/
theorem lists_sound (me : ν → RemotePeer) (es : List (Event ν)) (n : ν) :
    (∀ listKey p, ((run me es).node n).storage.Holds listKey p →
      listKey ∈ nodeListIds ∧ Entered me es listKey p) ∧
    ∀ v ∈ ((run me es).node n).returned, ∀ p ∈ v.2, Entered me es v.1 p :=
  ⟨((kept_run me es).1 n).storage,((kept_run me es).1 n).returned⟩

end Network

/-- What a list has it keeps, whatever comes in. -/
theorem holds_onDatagram {key : NodeId} {p : RemotePeer} (h : s.storage.Holds key p) (d : Mail) (r : Routing) :
    (onDatagram me d r s).state.storage.Holds key p := by
  obtain ⟨source,destination,message⟩ := d
  cases message with
  | request caller call =>
    change (answer me source s call).state.storage.Holds key p
    cases call with
    | storePeersInList listKey peerList =>
      unfold answer
      dsimp only
      split
      · exact h
      next stored st hst => exact Storage.Stores.holds ⟨listKey,peerList,stored,hst⟩ h
    | findListOfPeers listKey => exact h
    | other => exact h
  | response value => exact h

theorem holds_onInput {key : NodeId} {p : RemotePeer} (h : s.storage.Holds key p) (i : Input) :
    (onInput me s i).state.storage.Holds key p := by
  cases i with
  | addThisPeerToLists nearest relevantPeers =>
    unfold onInput
    dsimp only
    split
    · exact h
    next listKey hkey =>
      unfold storeNodesInList
      dsimp only
      split
      · exact h
      · exact h
      · split
        · split
          · exact h
          next stored st hst => exact Storage.Stores.holds ⟨_,_,stored,hst⟩ h
        · exact h
  | callFindPeerList peerToAsk listKey => exact h
  | handleFoundValues listKey which nearestWithoutValue =>
    unfold onInput
    dsimp only
    split <;> exact h

section Network
variable {ν : Type} [DecidableEq ν]

theorem holds_run {me : ν → RemotePeer} {net : Datagrams ν PeerServer Mail} {n : ν} {key : NodeId}
    {p : RemotePeer} (h : (net.node n).storage.Holds key p) (es : List (Event ν)) :
    ((Datagrams.run (parties me) net es).node n).storage.Holds key p := by
  refine (@Datagrams.run_invariant _ _ _ _ _ _ (parties me) net es
    (fun m s => m = n → s.storage.Holds key p) (fun _ => True) (fun _ _ => True) ?_ ?_ ?_
    (fun _ _ => trivial) (fun _ _ _ => trivial)).1 n rfl
  · intro m i s _ hs
    refine ⟨fun hm => ?_,fun _ _ => trivial⟩
    change (onInput (me m) s i).state.storage.Holds key p
    exact holds_onInput (hs hm) i
  · intro m d r s _ _ hs
    refine ⟨fun hm => ?_,fun _ _ => trivial⟩
    change (onDatagram (me m) d r s).state.storage.Holds key p
    exact holds_onDatagram (hs hm) d r
  · rintro m rfl
    exact h

/-- A request to store one peer does so, if there is such a list. -/
theorem holds_of_request {caller p : RemotePeer} {key : NodeId} (hkey : key ∈ nodeListIds)
    (hd : d.message = .request caller (.storePeersInList key [.peer p])) (r : Routing) (s : PeerServer) :
    (onDatagram me d r s).state.storage.Holds key p := by
  obtain ⟨source,destination,message⟩ := d
  subst hd
  change (answer me source s (.storePeersInList key [.peer p])).state.storage.Holds key p
  have hst : s.storage.storePeersInList nodeListIds key [.peer p] =
      .ok (true,s.storage.insert key ((s.storage.lookup key).getD [] ∪ [p])) := by
    rw [Storage.storePeersInList, if_neg (not_not.mpr hkey)]
    rfl
  unfold answer
  dsimp only
  rw [hst]
  exact Storage.storePeersInList_holds hst

/-- A call itself sends nothing but its response. -/
theorem answer_sends {source : List Char × ℕ} {call : Call} (h : d ∈ (answer me source s call).sends) :
    ∃ value, d.message = .response value := by
  cases call with
  | storePeersInList listKey peerList =>
    unfold answer at h
    dsimp only at h
    split at h
    · cases h
    · rw [List.mem_singleton.mp h]
      exact ⟨_,rfl⟩
  | findListOfPeers listKey =>
    rw [List.mem_singleton.mp h]
    exact ⟨_,rfl⟩
  | other =>
    rw [List.mem_singleton.mp h]
    exact ⟨_,rfl⟩

/-- The requests that a datagram makes a node send are those that welcome the peer that it is from. -/
theorem request_mem_onDatagram {p : RemotePeer} {call : Call} {r : Routing} :
    post me p call ∈ (onDatagram me d r s).sends ↔ post me p call ∈ welcomeIfNew me (welcomed d r) r s.storage := by
  refine ⟨fun h => ?_,fun h => List.mem_append_left _ h⟩
  rcases List.mem_append.mp h with h | h
  · exact h
  · obtain ⟨source,destination,message⟩ := d
    cases message with
    | request caller call' =>
      obtain ⟨value,hv⟩ := answer_sends h
      cases hv
    | response value => cases h

theorem entry_mem_sends {key : NodeId} {p : RemotePeer} {r : Routing}
    (hnew : r.isNewNode (welcomed d r) = true) :
    post me (welcomed d r) (.storePeersInList key [.peer p]) ∈ (onDatagram me d r s).sends ↔
      s.storage.Holds key p ∧ handsOver me (welcomed d r) key (r.findNeighbors key) = true := by
  rw [request_mem_onDatagram, welcomeIfNew, if_pos hnew, mem_sendPeerLists]
  constructor
  · rintro ⟨key',p',hp,hh,he⟩
    injection he with _ _ he
    injection he with _ he
    injection he with hk he
    injection he with he
    injection he with he
    subst hk he
    exact ⟨hp,hh⟩
  · rintro ⟨hp,hh⟩
    exact ⟨key,p,hp,hh,rfl⟩

/-- When a node gets a datagram from a peer that is new to it, it sends to that peer the entries of exactly the
lists that it is to hand over; and whenever such an entry arrives, whatever has happened in between, the
list of the peer has it from then on. -/
theorem lists_handed_over (me : ν → RemotePeer) (es : List (Event ν)) (n : ν) (k : ℕ) (r : Routing) (d : Mail)
    (hk : (run me es).sent[k]? = some d) (hd : d.destination = (me n).reqUri)
    (hnew : r.isNewNode (welcomed d r) = true) (listKey : NodeId) (p : RemotePeer) :
    (post (me n) (welcomed d r) (.storePeersInList listKey [.peer p]) ∈
        (onDatagram (me n) d r ((run me es).node n)).sends ↔
      ((run me es).node n).storage.Holds listKey p ∧
        handsOver (me n) (welcomed d r) listKey (r.findNeighbors listKey) = true) ∧
    (((run me es).node n).storage.Holds listKey p →
      handsOver (me n) (welcomed d r) listKey (r.findNeighbors listKey) = true →
      ∃ j, ∀ es' m r' es'', (me m).reqUri = (welcomed d r).reqUri →
        ((run me (es ++ .deliver n k r::es' ++ .deliver m j r'::es'')).node m).storage.Holds listKey p) := by
  refine ⟨entry_mem_sends hnew,fun hp hh => ?_⟩
  have hkey := ((kept_run me es).1 n).storage listKey p hp
  have hdeliver : run me (es ++ [.deliver n k r]) =
      (run me es).apply n (onDatagram (me n) d r ((run me es).node n)) :=
    (Datagrams.run_append _).trans (Datagrams.step_deliver r hk (decide_eq_true hd))
  have hmem : post (me n) (welcomed d r) (.storePeersInList listKey [.peer p]) ∈
      (run me (es ++ [.deliver n k r])).sent := by
    rw [hdeliver]
    exact List.mem_append_right _ ((entry_mem_sends hnew).mpr ⟨hp,hh⟩)
  obtain ⟨j,hj⟩ := List.getElem?_of_mem hmem
  refine ⟨j,fun es' m r' es'' hm => ?_⟩
  have hlater : (run me (es ++ .deliver n k r::es')).sent[j]? =
      some (post (me n) (welcomed d r) (.storePeersInList listKey [.peer p])) := by
    have hrun : run me (es ++ .deliver n k r::es') =
        Datagrams.run (parties me) (run me (es ++ [.deliver n k r])) es' := by
      rw [List.append_cons es _ es']
      exact Datagrams.run_append es'
    rw [hrun]
    exact Datagrams.getElem?_sent hj es'
  have harrive : run me (es ++ .deliver n k r::es' ++ [.deliver m j r']) = _ :=
    (Datagrams.run_append _).trans (Datagrams.step_deliver r' hlater (decide_eq_true hm.symm))
  have hrun : run me (es ++ .deliver n k r::es' ++ .deliver m j r'::es'') =
      Datagrams.run (parties me) (run me (es ++ .deliver n k r::es' ++ [.deliver m j r'])) es'' := by
    rw [List.append_cons (es ++ .deliver n k r::es') _ es'']
    exact Datagrams.run_append es''
  rw [hrun]
  refine holds_run ?_ es''
  rw [harrive, Datagrams.apply_node_self]
  exact holds_of_request hkey.1 rfl r' _

end Network

/-! One node has entered itself, and another one is new to it. -/

/-- Two peers near the first list, one that is less near, and one that is far away. -/
def peerOf (n : Bool) : RemotePeer :=
  ⟨.spread 0 0 (if n then 1 else 2),[],['a'],1,if n then 2 else 3,1⟩
def middlePeer : RemotePeer := ⟨.spread 0 0 3,[],['c'],1,2,1⟩
def farPeer : RemotePeer := ⟨.spread 0xff 0 0,[],['b'],1,2,1⟩

def handOverEvents : List (Event Bool) :=
  [.act true (.addThisPeerToLists [farPeer] [farPeer]),
    .act false (.callFindPeerList (peerOf true) (.spread 0 0 0))]

/-- Whoever has called is new, and the two others are the neighbours of every list: the new node is nearer
than the last of them, this one nearer than the first. -/
def othersKnown : Routing := ⟨fun _ => true,fun _ => [middlePeer,farPeer],farPeer⟩

theorem handOverEvents_holds :
    ((run peerOf handOverEvents).node true).storage.Holds (.spread 0 0 0) (peerOf true) :=
  ⟨[peerOf true],rfl,List.mem_singleton_self _⟩

/-- The entry is handed over. -/
theorem lists_handed_over_pair :
    ∃ j, ∀ es' m r' es'', (peerOf m).reqUri = (peerOf false).reqUri →
      ((run peerOf (handOverEvents ++ .deliver true 1 othersKnown::es' ++
        .deliver m j r'::es'')).node m).storage.Holds (.spread 0 0 0) (peerOf true) :=
  (lists_handed_over peerOf handOverEvents true 1 othersKnown
    (post (peerOf false) (peerOf true) (.findListOfPeers (.spread 0 0 0))) rfl rfl rfl (.spread 0 0 0)
    (peerOf true)).2 handOverEvents_holds rfl

end PeerServer
end PeerConnect.Kademlia
