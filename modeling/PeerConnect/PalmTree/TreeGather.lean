import PeerConnect.PalmTree.Protocol
import PeerConnect.PalmTree.Relay
import PeerConnect.Wire.Decoding
import Mathlib.Data.Fin.VecNotation

/-! The center gathers the tree: it sends a packet down the links and reads the answers of the confirmed
peers, or so it is meant to. -/
namespace PeerConnect.PalmTree
open Library Wire

/-- `MAX_DATAGRAM_SEND_SIZE` -/
def maxDatagramSendSize : ℕ := 1024*63

/-- The protocol object and what its relay gathers with: the future of the parent link, which is known
by the id of the peer, the addresses of the forward links, and the datagrams that come in at the socket
of `gather_tree` and those that go out. -/
structure Gathering where
  centerPeer : RemotePeer
  confirmedPeers : ConfirmedPeers
  parentLinkFut : ParentFuture (List Char)
  forwardLinks : List Value := []
  arrivals : List Bytes
  sent : List (Value × Bytes) := []
  gatheredTree : Option (List WireData) := none

/-- The items of a packet that the gathering is about. -/
def levelKey : List Char := "level".toList
def parentKey : List Char := "parent".toList
def replyAddrKey : List Char := "reply_addr".toList

/-- `data[key]` -/
def getitem (key : List Char) (w : WireData) : Except Exn Value :=
  match Dict.get? key w.body with
  | some v => .ok v
  | none => .error .keyError

/-- The level of a packet, which is counted and compared as an integer. -/
def level (w : WireData) : Except Exn ℤ :=
  match getitem levelKey w with
  | .error e => .error e
  | .ok v =>
    match v.int? with
    | some n => .ok n
    | none => .error .typeError

/-- `replies.sort(key=lambda x: x["level"])` -/
def sortByLevel (replies : List WireData) : Except Exn (List WireData) := do
  let keyed ← replies.mapM fun w => do
    let n ← level w
    pure (n,w)
  pure ((keyed.mergeSort fun a b => decide (a.1 ≤ b.1)).map Prod.snd)

/-- `bytes(data)` -/
def packetBytes (u : Umsgpack) (w : WireData) : Except Exn Bytes :=
  match w.toBytes u with
  | some data => .ok data
  | none => .error .packException

namespace Gathering

/-- `Wire.send_datagram` -/
def sendDatagram (address : Value) (data : Bytes) : Coro Exn Gathering Unit := fun s =>
  if maxDatagramSendSize < data.length then .raised .valueError s
  else
    match packUInt 4 data.length with
    | some dataSize => .done () { s with sent := s.sent ++ [(address,dataSize ++ data)] }
    | none => .raised .structError s

/-- The peer of the parent link, as soon as there is one. -/
def parentPeerId : Coro Exn Gathering (List Char) := fun s =>
  match s.parentLinkFut with
  | .pending => .blocked s
  | .cancelled => .raised .cancelledError s
  | .resolved none => .raised .attributeError s
  | .resolved (some peerId) => .done peerId s

def sendToAll (data : Bytes) : List Value → Coro Exn Gathering Unit
  | [] => pure ()
  | address::rest => do
    sendDatagram address data
    sendToAll data rest

def gossipTreeGather (u : Umsgpack) (data : WireData) : Coro Exn Gathering Unit := do
  let n ← Coro.ofExcept (level data)
  let data := data.setitem (levelKey,.int (n+1))
  let peerId ← parentPeerId
  let data := data.setitem (parentKey,.str peerId)
  let replyAddr ← Coro.ofExcept (getitem replyAddrKey data)
  let packed ← Coro.ofExcept (packetBytes u data)
  sendDatagram replyAddr packed
  let links ← Coro.get forwardLinks
  sendToAll packed links

/-- `tree_gather_packet` -/
def treeGatherPacket (centerPeer : RemotePeer) (replyAddr : Value) : WireData where
  header := .str "gossip_tree_gather".toList
  id := .bin centerPeer.id
  version := .float (.finite 1)
  body := [(levelKey,.int 0),(parentKey,.nil),(replyAddrKey,replyAddr)]
  peerId := .nil

/-- The loop of `gather_tree`, whose counter nothing counts up. A datagram loses its length where it is
received, and `unpack_datagram` takes another off. -/
def gatherLoop (u : Umsgpack) (confirmed counter : ℕ) :
    List Bytes → List WireData → Run Exn (List Bytes) (List WireData)
  | [],replies => if counter ≥ confirmed then .blocked [] else .done replies []
  | payload::arrivals,replies =>
    if counter ≥ confirmed then
      match Frame.loadDatagram payload with
      | .error e => .raised e arrivals
      | .ok data =>
        match unpackDatagram u data with
        | .error e => .raised e arrivals
        | .ok response => gatherLoop u confirmed counter arrivals (replies ++ [response])
    else .done replies (payload::arrivals)

/-- The loop on what comes in at the socket. -/
def gatherReplies (u : Umsgpack) (confirmed : ℕ) : Coro Exn Gathering (List WireData) := fun s =>
  (gatherLoop u confirmed 0 s.arrivals []).within (fun a => { s with arrivals := a }) id

/-- `gather_tree`, with the address of its socket. -/
def gatherTree (u : Umsgpack) (sockname : Value) : Coro Exn Gathering Unit := do
  let centerPeer ← Coro.get centerPeer
  gossipTreeGather u (treeGatherPacket centerPeer sockname)
  let confirmed ← Coro.get fun s => s.confirmedPeers.entries.length
  let replies ← gatherReplies u confirmed
  let gathered ← Coro.ofExcept (sortByLevel replies)
  Coro.modify fun s => { s with gatheredTree := some gathered }

/-- The replies have arrived as they were sent, in some order, one for each confirmed peer. -/
structure Answered (u : Umsgpack) (s : Gathering) (replies : List WireData) : Prop where
  count : replies.length = s.confirmedPeers.entries.length
  arrived : List.Forall₂ (fun w payload => ∃ data dataSize, w.toBytes u = some data ∧
    packUInt 4 data.length = some dataSize ∧ payload = dataSize ++ data) replies s.arrivals

/-- All replies are read, and they are what has been gathered, by their levels. -/
def Gathers (u : Umsgpack) (sockname : Value) (s : Gathering) (replies : List WireData) : Prop :=
  ∃ s' gathered, gatherTree u sockname s = .done () s' ∧ sortByLevel replies = .ok gathered ∧
    s'.gatheredTree = some gathered ∧ s'.arrivals = []

/-- Sending leaves alone who has been confirmed. -/
def SameConfirmed (s s' : Gathering) : Prop := s'.confirmedPeers = s.confirmedPeers

instance : Std.Refl SameConfirmed := ⟨fun _ => rfl⟩
instance : IsTrans Gathering SameConfirmed := ⟨fun _ _ _ h h' => h'.trans h⟩

theorem sameConfirmed_sendDatagram (address : Value) (data : Bytes) :
    Coro.Moves SameConfirmed (sendDatagram address data) := by
  intro s
  unfold sendDatagram
  split
  · rfl
  · split <;> rfl

theorem sameConfirmed_parentPeerId : Coro.Moves SameConfirmed parentPeerId := by
  intro s
  unfold parentPeerId
  split <;> rfl

theorem sameConfirmed_sendToAll (data : Bytes) (addresses : List Value) :
    Coro.Moves SameConfirmed (sendToAll data addresses) := by
  induction addresses with
  | nil => exact .pure ()
  | cons address rest ih => exact .bind (sameConfirmed_sendDatagram address data) fun _ => ih

theorem sameConfirmed_gossipTreeGather (u : Umsgpack) (data : WireData) :
    Coro.Moves SameConfirmed (gossipTreeGather u data) :=
  .bind (.ofExcept _) fun _ => .bind sameConfirmed_parentPeerId fun _ =>
    .bind (.ofExcept _) fun _ => .bind (.ofExcept _) fun _ =>
      .bind (sameConfirmed_sendDatagram _ _) fun _ => .bind (.get _) fun _ => sameConfirmed_sendToAll _ _

variable {u : Umsgpack} {s : Gathering} {replies : List WireData}

/-- With anybody confirmed, the loop is over before it begins. -/
theorem gatherLoop_of_pos {confirmed : ℕ} (h : 0 < confirmed) (arrivals : List Bytes)
    (replies : List WireData) : gatherLoop u confirmed 0 arrivals replies = .done replies arrivals := by
  cases arrivals with
  | nil => exact if_neg (not_le.mpr h)
  | cons payload arrivals => exact if_neg (not_le.mpr h)

theorem gatherReplies_of_pos {confirmed : ℕ} (h : 0 < confirmed) (s : Gathering) :
    gatherReplies u confirmed s = .done [] s := by
  unfold gatherReplies
  rw [gatherLoop_of_pos h]
  rfl

theorem sortByLevel_nil : sortByLevel [] = .ok [] := by
  unfold sortByLevel
  rw [List.mapM_nil]
  change Except.ok ((List.mergeSort [] _).map Prod.snd) = _
  rw [List.mergeSort_nil]
  rfl

/-- Nothing is read, and nothing gathered. -/
theorem gatherTree_eq (u : Umsgpack) (sockname : Value) (hs : 0 < s.confirmedPeers.entries.length) :
    gatherTree u sockname s = (gossipTreeGather u (treeGatherPacket s.centerPeer sockname) s).bind
      fun _ s' => .done () { s' with gatheredTree := some [] } := by
  have hmoves := sameConfirmed_gossipTreeGather u (treeGatherPacket s.centerPeer sockname) s
  unfold gatherTree
  rw [Coro.bind_apply, Coro.get_apply, Run.bind_done, Coro.bind_apply]
  cases hsent : gossipTreeGather u (treeGatherPacket s.centerPeer sockname) s with
  | raised e s' => rfl
  | blocked s' => rfl
  | done _ s' =>
    rw [hsent] at hmoves
    have hconfirmed : 0 < s'.confirmedPeers.entries.length := by
      rw [show s'.confirmedPeers = s.confirmedPeers from hmoves]
      exact hs
    rw [Run.bind_done, Run.bind_done, Coro.bind_apply, Coro.get_apply, Run.bind_done, Coro.bind_apply,
      gatherReplies_of_pos hconfirmed, Run.bind_done, sortByLevel_nil]
    rfl

theorem mapM_length {α β ε : Type} {f : α → Except ε β} {xs : List α} {ys : List β}
    (h : xs.mapM f = .ok ys) : ys.length = xs.length := by
  induction xs generalizing ys with
  | nil =>
    cases h
    rfl
  | cons x xs ih =>
    rw [List.mapM_cons] at h
    cases hx : f x with
    | error e =>
      rw [hx] at h
      cases h
    | ok y =>
      cases hxs : xs.mapM f with
      | error e =>
        rw [hx, hxs] at h
        cases h
      | ok ys' =>
        rw [hx, hxs] at h
        cases h
        exact congrArg Nat.succ (ih hxs)

/-- Sorting loses no reply. -/
theorem sortByLevel_length {gathered : List WireData} (h : sortByLevel replies = .ok gathered) :
    gathered.length = replies.length := by
  unfold sortByLevel at h
  cases hkeyed : replies.mapM (fun w => do let n ← level w; pure (n,w)) with
  | error e =>
    rw [hkeyed] at h
    cases h
  | ok keyed =>
    rw [hkeyed] at h
    cases h
    rw [List.length_map, List.length_mergeSort, mapM_length hkeyed]

/-- As many replies as have been confirmed are expected, and there are none. -/
theorem not_gathers_of_count (u : Umsgpack) (sockname : Value)
    (hpos : 0 < s.confirmedPeers.entries.length)
    (hcount : replies.length = s.confirmedPeers.entries.length) : ¬ Gathers u sockname s replies := by
  rintro ⟨s',gathered,hrun,hsort,htree,-⟩
  rw [gatherTree_eq u sockname hpos] at hrun
  obtain ⟨_,s₁,-,hdone⟩ := Run.bind_eq_done hrun
  cases hdone
  have hlength := sortByLevel_length hsort
  rw [hcount, ← Option.some.inj htree] at hlength
  exact absurd hpos (hlength ▸ lt_irrefl _)

/-- Whoever has been confirmed and whatever they answer, the tree is not gathered. -/
theorem never_gathers (u : Umsgpack) (sockname : Value) (s : Gathering) (replies : List WireData)
    (hs : s.confirmedPeers.entries ≠ []) (ha : Answered u s replies) :
    ¬ Gathers u sockname s replies :=
  not_gathers_of_count u sockname (List.length_pos_iff.mpr hs) ha.count

/-- The address of the socket. -/
def ownAddress : Value := .array [.str ['h'],.int 9]

/-- The reply of a peer, with its level and its parent. -/
def replyOf (id : UInt8) (n : ℤ) (parent : Char) : WireData where
  header := .str "gossip_tree_gather".toList
  id := .bin [id]
  version := .float (.finite 1)
  body := [(levelKey,.int n),(parentKey,.str [parent]),(replyAddrKey,ownAddress)]
  peerId := .nil

def replyValue (id : UInt8) (n : ℤ) (parent : Char) : Value :=
  .array [.str "gossip_tree_gather".toList,.bin [id],.float (.finite 1),
    .map [(.str levelKey,.int n),(.str parentKey,.str [parent]),(.str replyAddrKey,ownAddress)],.nil]

def ascii (t : List Char) : Bytes := t.map fun c => UInt8.ofNat c.toNat

/-- The reply as MessagePack has it. -/
def replyPacked (id n : UInt8) (parent : Char) : Bytes :=
  [0x95,0xb2] ++ ascii "gossip_tree_gather".toList ++ [0xc4,1,id] ++ [0xcb,0x3f,0xf0,0,0,0,0,0,0] ++
    [0x83,0xa5] ++ ascii levelKey ++ [n,0xa6] ++ ascii parentKey ++ [0xa1] ++ ascii [parent] ++
    [0xaa] ++ ascii replyAddrKey ++ [0x92,0xa1] ++ ascii ['h'] ++ [9,0xc0]

/-- Which of the replies of the center and of another peer a value is. -/
def knownReply : Value → Option (Fin 2)
  | .array [.str h,.bin [i],.float (.finite q),
      .map [(.str k₁,.int n),(.str k₂,.str [p]),(.str k₃,.array [.str [host],.int port])],.nil] =>
    if h = "gossip_tree_gather".toList ∧ q = 1 ∧ k₁ = levelKey ∧ k₂ = parentKey ∧ k₃ = replyAddrKey ∧
        host = 'h' ∧ port = 9 then
      if i = 1 ∧ n = 1 ∧ p = 'p' then some ⟨0,Nat.zero_lt_two⟩
      else if i = 2 ∧ n = 2 ∧ p = 'c' then some ⟨1,Nat.one_lt_two⟩
      else none
    else none
  | _ => none

theorem eq_of_knownReply {v : Value} {i : Fin 2} (h : knownReply v = some i) :
    v = (![replyValue 1 1 'p',replyValue 2 2 'c'] : Fin 2 → Value) i := by
  unfold knownReply at h
  split at h
  · split at h
    next hcommon =>
      obtain ⟨rfl,rfl,rfl,rfl,rfl,rfl,rfl⟩ := hcommon
      split at h
      next hone =>
        obtain ⟨rfl,rfl,rfl⟩ := hone
        cases h
        rfl
      next =>
        split at h
        next htwo =>
          obtain ⟨rfl,rfl,rfl⟩ := htwo
          cases h
          rfl
        next => cases h
    next => cases h
  · cases h

def repliesCodec : Umsgpack := Umsgpack.table knownReply ![replyValue 1 1 'p',replyValue 2 2 'c']
  ![replyPacked 1 1 'p',replyPacked 2 2 'c'] (fun _ _ => eq_of_knownReply) (by decide)

/-- The center and another peer are confirmed, and the replies of both have arrived. -/
def bothReplied (parentLinkFut : ParentFuture (List Char)) : Gathering where
  centerPeer := ⟨[1]⟩
  confirmedPeers := AList.insert (.bytes [2]) ⟨.bytes [2],(['g'],7),(['g'],8)⟩
    (AList.insert (.bytes [1]) ⟨.bytes [1],(['h'],7),(['h'],8)⟩ ∅)
  parentLinkFut := parentLinkFut
  arrivals := [[0,0,0,65] ++ replyPacked 2 2 'c',[0,0,0,65] ++ replyPacked 1 1 'p']

def bothReplies : List WireData := [replyOf 2 2 'c',replyOf 1 1 'p']

theorem bothReplied_answered (fut : ParentFuture (List Char)) :
    Answered repliesCodec (bothReplied fut) bothReplies where
  count := rfl
  arrived := .cons ⟨replyPacked 2 2 'c',[0,0,0,65],rfl,by decide,rfl⟩
    (.cons ⟨replyPacked 1 1 'p',[0,0,0,65],rfl,by decide,rfl⟩ .nil)

/-- The future of the root is resolved without a link. -/
theorem never_gathers_bothReplied :
    ¬ Gathers repliesCodec ownAddress (bothReplied (.resolved none)) bothReplies :=
  never_gathers _ _ _ _ (by decide) (bothReplied_answered _)

/-- What has arrived at the socket is not read: with a parent nothing is gathered, and at the root asking
for its parent raises. -/
theorem bothReplied_not_gathered : (∀ fut, Answered repliesCodec (bothReplied fut) bothReplies) ∧
    (∃ s', gatherTree repliesCodec ownAddress (bothReplied (.resolved (some ['p']))) = .done () s' ∧
      s'.gatheredTree = some []) ∧
    gatherTree repliesCodec ownAddress (bothReplied (.resolved none)) =
      .raised .attributeError (bothReplied (.resolved none)) ∧
    ∀ fut, ¬ Gathers repliesCodec ownAddress (bothReplied fut) bothReplies := by
  refine ⟨bothReplied_answered,?_,?_,fun fut => not_gathers_of_count _ _ ?_ ?_⟩
  · rw [gatherTree_eq _ _ (by decide)]
    exact ⟨_,rfl,rfl⟩
  · rw [gatherTree_eq _ _ (by decide)]
    rfl
  · exact Nat.zero_lt_two
  · rfl

end Gathering
end PeerConnect.PalmTree
