import PeerConnect.Wire.Value
import Mathlib.Data.List.AList
import Mathlib.Data.Nat.Bitwise

/-! The lists of peers that the nodes of a network keep under evenly spread bucket ids: which list a
peer is entered into, and in which order the lists are looked into. -/
namespace PeerConnect.Kademlia
open Library Wire

/-- A node id or a bucket id: 160 bits. -/
structure NodeId where
  bytes : Bytes
  length_eq : bytes.length = 20
  deriving DecidableEq, Repr

/-- `int(id.hex(), 16)` -/
def NodeId.longId (id : NodeId) : ℕ := ofNetworkOrder id.bytes

/-- A bucket id by its first byte, those in the middle, and its last. -/
def NodeId.spread (first middle last : UInt8) : NodeId where
  bytes := first::(List.replicate 18 middle ++ [last])
  length_eq := rfl

/-- `node_list_ids` -/
def nodeListIds : List NodeId :=
  [.spread 0x00 0x00 0x00, .spread 0x0c 0xcc 0xcc, .spread 0x19 0x99 0x98,
   .spread 0x26 0x66 0x64, .spread 0x33 0x33 0x30, .spread 0x3f 0xff 0xfc,
   .spread 0x4c 0xcc 0xc8, .spread 0x59 0x99 0x94, .spread 0x66 0x66 0x60,
   .spread 0x73 0x33 0x2c, .spread 0x7f 0xff 0xf8, .spread 0x8c 0xcc 0xc4,
   .spread 0x99 0x99 0x90, .spread 0xa6 0x66 0x5c, .spread 0xb3 0x33 0x28,
   .spread 0xbf 0xff 0xf4, .spread 0xcc 0xcc 0xc0, .spread 0xd9 0x99 0x8c,
   .spread 0xe6 0x66 0x58, .spread 0xf3 0x33 0x24]

structure RemotePeer where
  id : NodeId
  username : List Char
  ip : List Char
  connPort : ℕ
  reqPort : ℕ
  status : ℕ
  deriving DecidableEq, Repr

namespace RemotePeer

def uri (p : RemotePeer) : List Char × ℕ := (p.ip,p.connPort)
def reqUri (p : RemotePeer) : List Char × ℕ := (p.ip,p.reqPort)

/-- `__eq__`: two peers at one address with one name are the same. -/
def same (p q : RemotePeer) : Bool := p.uri = q.uri ∧ p.username = q.username

/-- The property `peer_id`, `str(self.long_id)`. -/
def peerId (p : RemotePeer) : List Char := Nat.toDigits 10 p.id.longId

/-- `list(set(peers))`, in some order. -/
def distinct (peers : List RemotePeer) : List RemotePeer :=
  peers.foldl (fun seen p => if seen.any (same p) then seen else seen ++ [p]) []

@[simp] theorem same_refl (p : RemotePeer) : same p p = true := by simp [same]

theorem foldl_distinct (peers seen : List RemotePeer) {p : RemotePeer}
    (h : p ∈ peers ∨ ∃ q ∈ seen, same p q = true) :
    ∃ q ∈ peers.foldl (fun seen p => if seen.any (same p) then seen else seen ++ [p]) seen,
      same p q = true := by
  induction peers generalizing seen with
  | nil => exact h.resolve_left (by simp)
  | cons p' peers ih =>
    rw [List.foldl_cons]
    refine ih _ ?_
    rcases h with h | ⟨q,hq,hs⟩
    · rcases List.mem_cons.mp h with rfl | h
      · right
        split
        next hany => exact List.any_eq_true.mp hany
        · exact ⟨p,by simp,same_refl p⟩
      · exact .inl h
    · right
      split
      · exact ⟨q,hq,hs⟩
      · exact ⟨q,List.mem_append_left _ hq,hs⟩

/-- Every peer is among the distinct ones, or one that is the same. -/
theorem mem_distinct {peers : List RemotePeer} {p : RemotePeer} (h : p ∈ peers) :
    ∃ q ∈ distinct peers, same p q = true := foldl_distinct peers [] (.inl h)

end RemotePeer

/-- `PeerServer._get_closest_list_id`: the bucket met first among the nearest, with its distance. -/
def closest (longId : ℕ) : List NodeId → Option NodeId × ℕ → Option NodeId × ℕ
  | [],best => best
  | i::ids,(nearestListId,prevClosestXor) =>
    let currentXor := longId ^^^ i.longId
    closest longId ids
      (if currentXor < prevClosestXor then (some i,currentXor) else (nearestListId,prevClosestXor))

def getClosestListId (node : NodeId) (nodeListIds : List NodeId) : Option NodeId :=
  (closest node.longId nodeListIds (none,2^160)).1

theorem NodeId.longId_lt (id : NodeId) : id.longId < 2^160 := by
  have h := ofNetworkOrder_lt id.bytes
  rw [id.length_eq, show 256^20 = 2^160 by norm_num] at h
  exact h

theorem NodeId.xor_lt (node id : NodeId) : node.longId ^^^ id.longId < 2^160 :=
  Nat.xor_lt_two_pow node.longId_lt id.longId_lt

/-- The scan ends with what it started with, which is then as near as any, or with one of the ids, which
is then nearer. -/
theorem closest_spec (longId : ℕ) (ids : List NodeId) (best : Option NodeId × ℕ) :
    (closest longId ids best = best ∧ ∀ i ∈ ids, best.2 ≤ longId ^^^ i.longId) ∨
      ∃ b ∈ ids, closest longId ids best = (some b,longId ^^^ b.longId) ∧
        longId ^^^ b.longId < best.2 ∧ ∀ i ∈ ids, longId ^^^ b.longId ≤ longId ^^^ i.longId := by
  induction ids generalizing best with
  | nil => exact .inl ⟨rfl,by simp⟩
  | cons i ids ih =>
    obtain ⟨nearest,prev⟩ := best
    rw [closest]
    simp only [List.forall_mem_cons]
    by_cases hlt : longId ^^^ i.longId < prev
    · rw [if_pos hlt]
      right
      rcases ih (some i,longId ^^^ i.longId) with ⟨he,hall⟩ | ⟨b,hb,he,hb',hall⟩
      · exact ⟨i,List.mem_cons_self,he,hlt,le_rfl,hall⟩
      · exact ⟨b,List.mem_cons_of_mem _ hb,he,hb'.trans hlt,hb'.le,hall⟩
    · rw [if_neg hlt]
      have hle := not_lt.mp hlt
      rcases ih (nearest,prev) with ⟨he,hall⟩ | ⟨b,hb,he,hb',hall⟩
      · exact .inl ⟨he,hle,hall⟩
      · exact .inr ⟨b,List.mem_cons_of_mem _ hb,he,hb',hb'.le.trans hle,hall⟩

/-- Of any buckets the one with the least distance is chosen. -/
theorem getClosestListId_least (node : NodeId) {ids : List NodeId} (h : ids ≠ []) :
    ∃ b ∈ ids, getClosestListId node ids = some b ∧
      ∀ i ∈ ids, node.longId ^^^ b.longId ≤ node.longId ^^^ i.longId := by
  rcases closest_spec node.longId ids (none,2^160) with ⟨_,hall⟩ | ⟨b,hb,he,_,hall⟩
  · obtain ⟨i,hi⟩ := List.exists_mem_of_ne_nil ids h
    exact absurd (hall i hi) (not_le.mpr (node.xor_lt i))
  · exact ⟨b,hb,by rw [getClosestListId, he],hall⟩

/-- A peer as a request to store it has it: packed, or in a list. -/
inductive Packed
  | peer (p : RemotePeer)
  | list (ps : List RemotePeer)

def Packed.first : Packed → Except Exn RemotePeer
  | .peer p => .ok p
  | .list (p::_) => .ok p
  | .list [] => .error .indexError

/-- The peers of each list that has been stored into. -/
abbrev Storage := AList fun _ : NodeId => List RemotePeer

namespace Storage

def getListOfPeers (s : Storage) (listKey : NodeId) : Option (List RemotePeer) := s.lookup listKey

def storePeersInList (nodeListIds : List NodeId) (listKey : NodeId) (listOfPeers : List Packed)
    (s : Storage) : Except Exn (Bool × Storage) :=
  if listKey ∉ nodeListIds then .ok (false,s)
  else do
    let filteredPeers ← listOfPeers.mapM Packed.first
    .ok (true,s.insert listKey (((s.lookup listKey).getD []) ∪ filteredPeers))

/-- The list of the bucket has the peer. -/
def Holds (s : Storage) (listKey : NodeId) (p : RemotePeer) : Prop :=
  ∃ peers, s.getListOfPeers listKey = some peers ∧ p ∈ peers

/-- Storing into a list that exists. -/
def Stores (nodeListIds : List NodeId) (s s' : Storage) : Prop :=
  ∃ listKey listOfPeers stored, s.storePeersInList nodeListIds listKey listOfPeers = .ok (stored,s')

variable {ids : List NodeId} {s s' : Storage} {key : NodeId} {p : RemotePeer}

/-- A stored peer is in its list. -/
theorem storePeersInList_holds
    (h : s.storePeersInList ids key [.peer p] = .ok (true,s')) : s'.Holds key p := by
  unfold storePeersInList at h
  split at h
  · cases h
  · cases h
    exact ⟨_,AList.lookup_insert _,List.mem_union_right _ (by simp)⟩

/-- What a list has stays in it. -/
theorem Stores.holds (h : Stores ids s s') (hp : s.Holds key p) : s'.Holds key p := by
  obtain ⟨listKey,listOfPeers,stored,h⟩ := h
  unfold storePeersInList at h
  split at h
  · cases h
    exact hp
  · cases hm : listOfPeers.mapM Packed.first with
    | error e => rw [hm] at h; cases h
    | ok filtered =>
      rw [hm] at h
      cases h
      obtain ⟨peers,hl,hp⟩ := hp
      by_cases hk : key = listKey
      · subst hk
        refine ⟨_,AList.lookup_insert _,List.mem_union_iff.mpr (.inl ?_)⟩
        rw [show s.lookup key = some peers from hl]
        exact hp
      · exact ⟨peers,(AList.lookup_insert_ne hk).trans hl,hp⟩

theorem holds_of_stores (h : Relation.ReflTransGen (Stores ids) s s') (hp : s.Holds key p) :
    s'.Holds key p := by
  induction h with
  | refl => exact hp
  | tail _ hs ih => exact hs.holds ih

end Storage
end PeerConnect.Kademlia
