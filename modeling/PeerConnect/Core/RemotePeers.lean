import PeerConnect.Kademlia.PeerLists
import PeerConnect.Library.Text

/-! Finding the peer of an id: in the cache of peers, or by a search in the network. -/
namespace PeerConnect.Core
open Library Wire Kademlia

/-- The digits of a number, in groups that underscores separate. -/
def digitsOfText (t : Text) : Option ℕ :=
  let groups := t.splitOn '_'
  if groups.all fun g => !g.isEmpty && g.all Char.isDigit then some (Nat.ofDigitChars 10 groups.flatten 0)
  else none

/-- `int(t)` -/
def intOfText (t : Text) : Except Exn ℤ :=
  let number := match Text.strip t with
    | '-' :: ds => (digitsOfText ds).map fun n => -(n : ℤ)
    | '+' :: ds => (digitsOfText ds).map fun n => (n : ℤ)
    | ds => (digitsOfText ds).map fun n => (n : ℤ)
  match number with
  | some n => .ok n
  | none => .error .valueError

/-- `number.to_bytes(width)` -/
def toBytes (width : ℕ) (number : ℤ) : Except Exn Bytes :=
  if number < 0 then .error .overflowError
  else match packUInt width number.toNat with
    | some bs => .ok bs
    | none => .error .overflowError

def convertPeerIdToByteId (peerId : List Char) : Except Exn Bytes := do
  let number ← intOfText peerId
  toBytes 16 number

/-- `Dock.peer_list`, and the ids that the network has been searched for. -/
structure RemotePeers where
  peerList : AList fun _ : List Char => RemotePeer := ∅
  searched : List Bytes := []

namespace RemotePeers

/-- `PeerDict.get_peer`: `None` for a peer that is not there. -/
def getPeer (peerId : List Char) : Coro Exn RemotePeers (Option RemotePeer) :=
  Coro.get fun s => s.peerList.lookup peerId

/-- `PeerServer.get_remote_peer`, with what the crawler finds for an id. -/
def searchNetwork (find : Bytes → List RemotePeer) (byteId : Bytes) :
    Coro Exn RemotePeers (Option RemotePeer) := do
  Coro.modify fun s => { s with searched := s.searched ++ [byteId] }
  pure ((find byteId).find? fun peer => peer.id.bytes = byteId)

def getRemotePeer (find : Bytes → List RemotePeer) (peerId : List Char) :
    Coro Exn RemotePeers (Option RemotePeer) := do
  let byteId ← Coro.ofExcept (convertPeerIdToByteId peerId)
  searchNetwork find byteId

def getRemotePeerAtEveryCost (find : Bytes → List RemotePeer) (peerId : List Char) :
    Coro Exn RemotePeers (Option RemotePeer) :=
  Coro.tryCatch (getPeer peerId) fun
  | .keyError => getRemotePeer find peerId
  | e => Coro.raise e

/-- The text of the id. -/
def peerIdOf (node : NodeId) : List Char := Nat.toDigits 10 node.longId

/-- A cached peer is returned, any other one is searched for, and only one that neither the cache nor the
network has is not found. -/
structure Resolves (find : Bytes → List RemotePeer) (s : RemotePeers) (node : NodeId) : Prop where
  cached : ∀ peer, s.peerList.lookup (peerIdOf node) = some peer →
    getRemotePeerAtEveryCost find (peerIdOf node) s = .done (some peer) s
  searches : s.peerList.lookup (peerIdOf node) = none →
    getRemotePeerAtEveryCost find (peerIdOf node) s =
      .done ((find node.bytes).find? fun peer => peer.id = node)
        { s with searched := s.searched ++ [node.bytes] }
  nowhere : ∀ s', getRemotePeerAtEveryCost find (peerIdOf node) s = .done none s' →
    s.peerList.lookup (peerIdOf node) = none ∧ ∀ peer ∈ find node.bytes, peer.id ≠ node

variable {find : Bytes → List RemotePeer} {s : RemotePeers} {node : NodeId}

/-- The cache raises no `KeyError`, and so the network is never searched. -/
theorem getRemotePeerAtEveryCost_eq (find : Bytes → List RemotePeer) (peerId : List Char)
    (s : RemotePeers) :
    getRemotePeerAtEveryCost find peerId s = .done (s.peerList.lookup peerId) s := rfl

/-- A peer is resolved as it should be exactly if it is cached. -/
theorem resolves_iff_cached (find : Bytes → List RemotePeer) (s : RemotePeers) (node : NodeId) :
    Resolves find s node ↔ peerIdOf node ∈ s.peerList := by
  cases hl : s.peerList.lookup (peerIdOf node) with
  | none =>
    refine iff_of_false (fun h => ?_) (AList.lookup_eq_none.mp hl)
    have hrun := h.searches hl
    rw [getRemotePeerAtEveryCost_eq] at hrun
    have hstate := congrArg (fun s' => s'.searched.length) (congrArg Run.state hrun)
    rw [Run.state_done, Run.state_done, List.length_append, List.length_singleton] at hstate
    omega
  | some peer =>
    refine iff_of_true ⟨fun p hp => ?_,fun h => ?_,fun s' hs' => ?_⟩
      (AList.lookup_isSome.mp (by rw [hl]; rfl))
    · rw [getRemotePeerAtEveryCost_eq, hp]
    · rw [hl] at h
      cases h
    · rw [getRemotePeerAtEveryCost_eq, hl] at hs'
      cases hs'

/-- A peer that the network has. -/
def networkPeer : RemotePeer := ⟨.spread 0 0 1,['p'],['h'],1,2,1⟩

/-- An empty cache answers for the network. -/
theorem peer_not_resolved :
    getRemotePeerAtEveryCost (fun _ => [networkPeer]) (peerIdOf networkPeer.id) {} = .done none {} ∧
    ¬ Resolves (fun _ => [networkPeer]) {} networkPeer.id :=
  ⟨rfl,fun h => (h.nowhere {} rfl).2 networkPeer (List.mem_singleton_self _) rfl⟩

/-- The search itself would not find the peer: it is for an id of another length. -/
theorem convertPeerIdToByteId_length {peerId : List Char} {byteId : Bytes}
    (h : convertPeerIdToByteId peerId = .ok byteId) : byteId.length = 16 := by
  unfold convertPeerIdToByteId at h
  cases hn : intOfText peerId with
  | error e => rw [hn] at h; cases h
  | ok n =>
    rw [hn] at h
    change toBytes 16 n = .ok byteId at h
    unfold toBytes at h
    split at h
    · cases h
    · split at h
      next bs hbs =>
        cases h
        exact packUInt_length hbs
      · cases h

example : convertPeerIdToByteId "1_000 ".toList = .ok (List.replicate 14 0 ++ [3,232]) := by decide

theorem getRemotePeer_finds_nothing (find : Bytes → List RemotePeer) (peerId : List Char)
    (s : RemotePeers) (peer : RemotePeer) (s' : RemotePeers) :
    getRemotePeer find peerId s ≠ .done (some peer) s' := by
  intro h
  rw [getRemotePeer, Coro.bind_apply] at h
  cases hc : convertPeerIdToByteId peerId with
  | error e => rw [hc] at h; cases h
  | ok byteId =>
    rw [hc] at h
    simp only [Coro.ofExcept_ok, Run.bind_done, searchNetwork, Coro.bind_apply, Coro.modify_apply,
      Coro.pure_apply, Run.done.injEq] at h
    have hid := List.find?_some h.1
    have hlen := convertPeerIdToByteId_length hc
    rw [← of_decide_eq_true hid, peer.id.length_eq] at hlen
    cases hlen

end RemotePeers

/-! An id as text, and back. -/

/-- The digits of a number have neither a sign nor an underscore nor space around them. -/
theorem intOfText_toDigits (n : ℕ) : intOfText (Nat.toDigits 10 n) = .ok n := by
  have hdigit : ∀ c ∈ Nat.toDigits 10 n, c.isDigit = true := fun c hc =>
    Nat.isDigit_of_mem_toDigits (by decide) (by decide) hc
  have hsolid : Text.Solid (Nat.toDigits 10 n) := Text.Numeral.solid fun c hc => .inr (hdigit c hc)
  have hnumber : digitsOfText (Nat.toDigits 10 n) = some n := by
    unfold digitsOfText
    rw [List.splitOn_eq_singleton fun hmem => absurd (hdigit _ hmem) (by decide)]
    have hall : (Nat.toDigits 10 n).all Char.isDigit = true := List.all_eq_true.mpr hdigit
    simp [hall, Nat.toDigits_ne_nil]
  unfold intOfText
  rw [hsolid.strip_eq]
  split
  next ds hds => exact absurd (hdigit '-' (by rw [hds]; simp)) (by decide)
  next ds hds => exact absurd (hdigit '+' (by rw [hds]; simp)) (by decide)
  next => rw [hnumber]; rfl

/-- Four zero bytes are cut off, and an id that does not begin with them is refused. -/
theorem convertPeerIdToByteId_peerId (peer : RemotePeer) :
    convertPeerIdToByteId peer.peerId =
      if peer.id.bytes.take 4 = [0,0,0,0] then .ok (peer.id.bytes.drop 4) else .error .overflowError := by
  have hlength : (peer.id.bytes.drop 4).length = 16 := by
    rw [List.length_drop, peer.id.length_eq]
  have hzeros : ofNetworkOrder (peer.id.bytes.take 4) = 0 ↔ peer.id.bytes.take 4 = [0,0,0,0] := by
    have hfour : (peer.id.bytes.take 4).length = 4 := by
      rw [List.length_take, peer.id.length_eq]
      rfl
    rw [ofNetworkOrder_eq_zero, show [0,0,0,0] = List.replicate 4 (0 : UInt8) from rfl,
      List.eq_replicate_iff, and_iff_right hfour]
  have hpack := packUInt_ofNetworkOrder (peer.id.bytes.take 4) (peer.id.bytes.drop 4)
  rw [List.take_append_drop, hlength] at hpack
  unfold convertPeerIdToByteId RemotePeer.peerId
  rw [intOfText_toDigits]
  change toBytes 16 (peer.id.longId : ℤ) = _
  unfold toBytes
  rw [if_neg (by omega), Int.toNat_natCast, NodeId.longId, hpack]
  by_cases hzero : peer.id.bytes.take 4 = [0,0,0,0]
  · rw [if_pos hzero, if_pos (hzeros.mpr hzero)]
  · rw [if_neg hzero, if_neg fun h => hzero (hzeros.mp h)]

/-- With the width of an id, the conversion would be right. -/
theorem toBytes_longId (node : NodeId) : toBytes 20 node.longId = .ok node.bytes := by
  have hpack := packUInt_ofNetworkOrder [] node.bytes
  rw [List.nil_append, node.length_eq, if_pos (show ofNetworkOrder [] = 0 from rfl)] at hpack
  unfold toBytes
  rw [if_neg (by omega), Int.toNat_natCast, NodeId.longId, hpack]

theorem convertPeerIdToByteId_ne (peer : RemotePeer) :
    convertPeerIdToByteId peer.peerId ≠ .ok peer.id.bytes := by
  intro h
  have hlength := RemotePeers.convertPeerIdToByteId_length h
  rw [peer.id.length_eq] at hlength
  cases hlength

/-- The second id of `node_list_ids` is refused. -/
theorem node_list_id_not_converted :
    convertPeerIdToByteId (RemotePeer.peerId ⟨.spread 0x0c 0xcc 0xcc,[],[],0,0,0⟩) ≠
      .ok (NodeId.spread 0x0c 0xcc 0xcc).bytes := by
  rw [convertPeerIdToByteId_peerId]
  decide

end PeerConnect.Core
