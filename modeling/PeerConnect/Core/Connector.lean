import PeerConnect.Core.CacheRuns
import PeerConnect.Kademlia.PeerLists
import PeerConnect.Transfers.Names
import Mathlib.Data.List.DropRight
import Mathlib.Data.List.Dedup

/-! Connections to peers, which are kept in a socket cache. A new connection is entered twice, under the
bytes of the peer's id and under the text of it, and only the second is ever looked up. -/
namespace PeerConnect.Core
open Library Wire Kademlia

/-- A key of the cache. Bytes and a text are never the same key. -/
inductive CacheKey
  | id (byteId : NodeId)
  | peerId (text : List Char)
  deriving DecidableEq, Repr

def CacheError.exn : CacheError → Exn
  | .keyError => .keyError
  | .osError => .osError

/-- `Dock.connected_peers` with the last socket used, and the peers that connections have been opened
to. A socket is the position of its peer there. -/
structure Connector where
  connectedPeers : SocketCache CacheKey ℕ := {}
  opened : List NodeId := []
  currentConnected : Option ℕ := none

/-- A call of `get_connection`, with how connecting and verifying end if they are tried. -/
structure ConnectionCall where
  peer : RemotePeer
  connects : Except Exn Unit := .ok ()
  verifies : Except Exn Unit := .ok ()

namespace Connector

def cache {α : Type} (x : Coro CacheError (SocketCache CacheKey ℕ) α) : Coro Exn Connector α :=
  Coro.zoom connectedPeers (fun c s => { s with connectedPeers := c }) CacheError.exn x

def connectToPeer (call : ConnectionCall) : Coro Exn Connector ℕ := do
  Coro.ofExcept call.connects
  let sock ← Coro.get fun s => s.opened.length
  Coro.modify fun s => { s with opened := s.opened ++ [call.peer.id] }
  pure sock

def addConnection (maxLimit : ℕ) (call : ConnectionCall) : Coro Exn Connector ℕ := do
  let connectionSocket ← connectToPeer call
  cache (SocketCache.addPeerSock maxLimit (.id call.peer.id) connectionSocket)

/-- All sockets stay connected. -/
def getConnection (maxLimit : ℕ) (call : ConnectionCall) : Coro Exn Connector ℕ := do
  let found ← cache (SocketCache.isConnected (fun _ => true) (.peerId call.peer.peerId))
  match found with
  | some sock =>
    Coro.modify fun s => { s with currentConnected := some sock }
    pure sock
  | none =>
    let peerSock ← addConnection maxLimit call
    Coro.ofExcept call.verifies
    let _ ← cache (SocketCache.addPeerSock maxLimit (.peerId call.peer.peerId) peerSock)
    Coro.modify fun s => { s with currentConnected := some peerSock }
    pure peerSock

/-- One call after the other, and the sockets that they return. -/
def getConnections (maxLimit : ℕ) : List ConnectionCall → Coro Exn Connector (List ℕ)
  | [] => pure []
  | call::calls => do
    let sock ← getConnection maxLimit call
    let socks ← getConnections maxLimit calls
    pure (sock::socks)

/-- The entries of a peer. -/
def entries (s : Connector) (peer : RemotePeer) : List CacheKey :=
  (Dict.keys s.connectedPeers.socketCache).filter fun k =>
    k = .id peer.id ∨ k = .peerId peer.peerId

/-- There is one entry for a peer at most, and each of the peers that as many new connections went to
last as the cache has room for is served without opening another one. -/
structure Serves (maxLimit : ℕ) (s : Connector) : Prop where
  one_entry : ∀ peer, (s.entries peer).length ≤ 1
  hits : ∀ call : ConnectionCall, call.peer.id ∈ s.opened.dedup.rtake maxLimit →
    ∃ sock s', getConnection maxLimit call s = .done sock s' ∧ s'.opened = s.opened ∧
      s.opened[sock]? = some call.peer.id

variable {maxLimit sock : ℕ} {call : ConnectionCall} {s s' : Connector}

theorem getConnection_hit
    (h : Dict.get? (.peerId call.peer.peerId) s.connectedPeers.socketCache = some sock) :
    getConnection maxLimit call s = .done sock { s with currentConnected := some sock } := by
  simp only [getConnection, cache, SocketCache.isConnected, Coro.bind_apply, Coro.zoom_apply,
    Coro.tryCatch_apply, SocketCache.getitem, Coro.get_apply, Run.bind_done, h, Coro.pure_apply, if_true,
    Run.handle_done, Run.within_done, Coro.modify_apply]

/-- What a cache miss leads to, if the connection is made and verified. -/
def connected (maxLimit : ℕ) (peer : RemotePeer) (s : Connector) : Connector where
  connectedPeers := { s.connectedPeers with
    socketCache := Dict.set (.peerId peer.peerId) s.opened.length (SocketCache.makeRoom maxLimit
      (Dict.set (.id peer.id) s.opened.length (SocketCache.makeRoom maxLimit
        s.connectedPeers.socketCache))) }
  opened := s.opened ++ [peer.id]
  currentConnected := some s.opened.length

theorem getConnection_miss (hpos : 0 < maxLimit)
    (h : Dict.get? (.peerId call.peer.peerId) s.connectedPeers.socketCache = none)
    (hr : getConnection maxLimit call s = .done sock s') : s' = connected maxLimit call.peer s := by
  simp only [getConnection, cache, SocketCache.isConnected, Coro.bind_apply, Coro.zoom_apply,
    Coro.tryCatch_apply, SocketCache.getitem, Coro.get_apply, Run.bind_done, h, Coro.raise_apply,
    Run.bind_raised, Run.handle_raised, Coro.pure_apply, Run.within_done, addConnection, connectToPeer]
    at hr
  cases hc : call.connects with
  | error e => rw [hc] at hr; cases hr
  | ok _ =>
    simp only [hc, Coro.ofExcept_ok, Run.bind_done, Coro.modify_apply,
      SocketCache.addPeerSock_eq fun _ => hpos, Run.within_done] at hr
    cases hv : call.verifies with
    | error e => rw [hv] at hr; cases hr
    | ok _ =>
      simp only [hv, Coro.ofExcept_ok, Run.bind_done] at hr
      cases hr
      rfl

/-- The two keys that a connection to the peer is entered under. -/
def pair (i : NodeId) : List CacheKey := [.id i,.peerId (Nat.toDigits 10 i.longId)]

theorem peerId_eq_iff {i j : NodeId} :
    Nat.toDigits 10 i.longId = Nat.toDigits 10 j.longId ↔ i = j := by
  refine ⟨fun h => ?_,fun h => h ▸ rfl⟩
  have hlong : ofNetworkOrder i.bytes = ofNetworkOrder j.bytes := Transfers.toDigits_injective h
  have hbytes : i.bytes = j.bytes := by
    rw [← toNetworkOrder_ofNetworkOrder i.bytes, ← toNetworkOrder_ofNetworkOrder j.bytes, i.length_eq,
      j.length_eq, hlong]
  cases i
  cases j
  cases hbytes
  rfl

/-- In a final part of the pairs the bytes of an id never stand without the text of it. -/
theorem peerId_mem_of_id_mem {keys : List CacheKey} {ids : List NodeId} {i : NodeId}
    (h : keys <:+ ids.flatMap pair) (hi : .id i ∈ keys) :
    .peerId (Nat.toDigits 10 i.longId) ∈ keys := by
  induction ids with
  | nil =>
    rw [List.suffix_nil.mp h] at hi
    cases hi
  | cons j ids ih =>
    have hmem : ∀ l : List NodeId, .id i ∈ l.flatMap pair →
        .peerId (Nat.toDigits 10 i.longId) ∈ l.flatMap pair := by
      intro l hl
      obtain ⟨k,hk,hik⟩ := List.mem_flatMap.mp hl
      refine List.mem_flatMap.mpr ⟨k,hk,?_⟩
      simp only [pair, List.mem_cons, CacheKey.id.injEq, reduceCtorEq, List.not_mem_nil, or_false] at hik
      rw [hik, pair]
      exact List.mem_cons_of_mem _ List.mem_cons_self
    rcases List.suffix_cons_iff.mp h with rfl | h
    · exact hmem (j::ids) hi
    · rcases List.suffix_cons_iff.mp h with rfl | h
      · have hi : .id i ∈ ids.flatMap pair := (List.mem_cons.mp hi).resolve_left (by simp)
        exact List.mem_cons_of_mem _ (hmem ids hi)
      · exact ih h

/-- The keys are the last of the pairs that have been entered, with the sockets of their peers. -/
structure Paired (maxLimit : ℕ) (s : Connector) : Prop where
  bounded : SocketCache.Bounded maxLimit s.connectedPeers
  keys : Dict.keys s.connectedPeers.socketCache <:+ s.opened.flatMap pair
  many : s.opened ≠ [] → min maxLimit 2 ≤ s.connectedPeers.socketCache.length
  sockets : ∀ e ∈ s.connectedPeers.socketCache, ∃ i, s.opened[e.2]? = some i ∧ e.1 ∈ pair i

theorem Paired.start (maxLimit : ℕ) : Paired maxLimit {} where
  bounded := ⟨List.nodup_nil,Nat.zero_le _⟩
  keys := List.suffix_rfl
  many h := absurd rfl h
  sockets := List.forall_mem_nil _

theorem Paired.of_eq (h : Paired maxLimit s) (hc : s'.connectedPeers = s.connectedPeers)
    (ho : s'.opened = s.opened) : Paired maxLimit s' := by
  refine ⟨?_,?_,?_,?_⟩ <;> rw [hc]
  · exact h.bounded
  · rw [ho]; exact h.keys
  · rw [ho]; exact h.many
  · rw [ho]; exact h.sockets

/-- Neither key of a peer that is not found by the second one is there, so that both come last. -/
theorem Paired.connected_socketCache (h : Paired maxLimit s) {peer : RemotePeer}
    (hmiss : .peerId peer.peerId ∉ Dict.keys s.connectedPeers.socketCache) :
    (connected maxLimit peer s).connectedPeers.socketCache =
      SocketCache.makeRoom maxLimit (SocketCache.makeRoom maxLimit s.connectedPeers.socketCache ++
        [(.id peer.id,s.opened.length)]) ++ [(.peerId peer.peerId,s.opened.length)] := by
  have hid : .id peer.id ∉ Dict.keys (SocketCache.makeRoom maxLimit s.connectedPeers.socketCache) :=
    fun hk => hmiss (peerId_mem_of_id_mem h.keys ((SocketCache.keys_makeRoom_suffix ..).subset hk))
  rw [connected, Dict.set, if_neg, Dict.set, if_neg hid]
  intro hk
  have hk := (SocketCache.keys_makeRoom_suffix ..).subset hk
  rw [Dict.set, if_neg hid, Dict.keys_append, List.mem_append] at hk
  refine hk.elim (fun hk => hmiss ((SocketCache.keys_makeRoom_suffix ..).subset hk)) fun hk => ?_
  exact absurd (List.mem_singleton.mp hk) (by simp)

theorem Paired.connected (hpos : 0 < maxLimit) (h : Paired maxLimit s) {peer : RemotePeer}
    (hmiss : .peerId peer.peerId ∉ Dict.keys s.connectedPeers.socketCache) :
    Paired maxLimit (connected maxLimit peer s) := by
  have hcache := h.connected_socketCache hmiss
  refine ⟨?_,?_,?_,?_⟩
  · have hb := (h.bounded.step (.addPeerSock (.id peer.id) s.opened.length)).step
      (.addPeerSock (.peerId peer.peerId) s.opened.length)
    rwa [SocketCache.step_addPeerSock hpos, SocketCache.step_addPeerSock hpos] at hb
  · rw [hcache, Dict.keys_append, Connector.connected, List.flatMap_append]
    have hroom : Dict.keys (SocketCache.makeRoom maxLimit
        (SocketCache.makeRoom maxLimit s.connectedPeers.socketCache ++
          [(.id peer.id,s.opened.length)])) <:+
        Dict.keys s.connectedPeers.socketCache ++ [.id peer.id] := by
      refine (SocketCache.keys_makeRoom_suffix ..).trans ?_
      rw [Dict.keys_append]
      exact List.suffix_append_self_iff.mpr (SocketCache.keys_makeRoom_suffix ..)
    refine (List.suffix_append_self_iff.mpr hroom).trans ?_
    rw [List.append_assoc]
    exact List.suffix_append_self_iff.mpr h.keys
  · intro _
    rw [hcache, SocketCache.makeRoom]
    split <;> simp only [List.length_append, List.length_tail, List.length_singleton] at * <;> omega
  · intro e he
    rw [hcache] at he
    have hold : ∀ i : NodeId, s.opened[e.2]? = some i → (s.opened ++ [peer.id])[e.2]? = some i := by
      intro i hi
      rw [List.getElem?_append_left (List.getElem?_eq_some_iff.mp hi).1, hi]
    have hnew : (s.opened ++ [peer.id])[s.opened.length]? = some peer.id := List.getElem?_concat_length
    rcases List.mem_append.mp he with he | he
    · rcases List.mem_append.mp ((SocketCache.makeRoom_suffix ..).subset he) with he | he
      · obtain ⟨i,hi,hmem⟩ := h.sockets e ((SocketCache.makeRoom_suffix ..).subset he)
        exact ⟨i,hold i hi,hmem⟩
      · obtain rfl := List.mem_singleton.mp he
        exact ⟨peer.id,hnew,List.mem_cons_self⟩
    · obtain rfl := List.mem_singleton.mp he
      exact ⟨peer.id,hnew,List.mem_cons_of_mem _ List.mem_cons_self⟩

theorem Paired.opened_ne_nil (h : Paired maxLimit s) {k : CacheKey}
    (hk : k ∈ Dict.keys s.connectedPeers.socketCache) : s.opened ≠ [] := by
  intro ho
  have hkeys := h.keys
  rw [ho, List.flatMap_nil] at hkeys
  rw [List.suffix_nil.mp hkeys] at hk
  cases hk

/-- A call that returns keeps the pairs, and a peer has been connected to then. -/
theorem Paired.getConnection (hpos : 0 < maxLimit) (h : Paired maxLimit s)
    (hr : getConnection maxLimit call s = .done sock s') : Paired maxLimit s' ∧ s'.opened ≠ [] := by
  cases hget : Dict.get? (.peerId call.peer.peerId) s.connectedPeers.socketCache with
  | some found =>
    rw [getConnection_hit hget] at hr
    cases hr
    exact ⟨h.of_eq rfl rfl,h.opened_ne_nil (Dict.mem_keys_of_get? hget)⟩
  | none =>
    rw [getConnection_miss hpos hget hr]
    exact ⟨h.connected hpos (Dict.get?_eq_none_iff.mp hget),List.concat_ne_nil _ _⟩

theorem Paired.getConnections {calls : List ConnectionCall} {socks : List ℕ} (hpos : 0 < maxLimit)
    (h : Paired maxLimit s) (hr : getConnections maxLimit calls s = .done socks s') :
    Paired maxLimit s' ∧ (s'.opened = [] ↔ s.opened = [] ∧ calls = []) := by
  induction calls generalizing s socks with
  | nil =>
    cases hr
    exact ⟨h,(and_iff_left rfl).symm⟩
  | cons call calls ih =>
    obtain ⟨sock,s₁,hcall,hr⟩ := Run.bind_eq_done hr
    obtain ⟨socks',s₂,hcalls,hr⟩ := Run.bind_eq_done hr
    cases hr
    obtain ⟨h₁,hne⟩ := h.getConnection hpos hcall
    obtain ⟨h₂,hiff⟩ := ih h₁ hcalls
    exact ⟨h₂,iff_of_false (fun ho => hne (hiff.mp ho).1) fun ho => by cases ho.2⟩

/-- The first call for a cache without room raises. -/
theorem getConnections_zero (call : ConnectionCall) (calls : List ConnectionCall) {socks : List ℕ} :
    getConnections 0 (call::calls) {} ≠ .done socks s := by
  intro hr
  obtain ⟨sock,s₁,hcall,-⟩ := Run.bind_eq_done hr
  simp only [getConnection, cache, SocketCache.isConnected, Coro.bind_apply, Coro.zoom_apply,
    Coro.tryCatch_apply, SocketCache.getitem, Coro.get_apply, Run.bind_done, Dict.get?, Coro.raise_apply,
    Run.bind_raised, Run.handle_raised, Coro.pure_apply, Run.within_done, addConnection, connectToPeer]
    at hcall
  cases hc : call.connects with
  | error e => rw [hc] at hcall; cases hcall
  | ok _ =>
    rw [hc] at hcall
    cases hcall

theorem serves_of_opened_nil (h : Paired maxLimit s) (ho : s.opened = []) : Serves maxLimit s where
  one_entry peer := by
    have hkeys : Dict.keys s.connectedPeers.socketCache = [] :=
      List.eq_nil_iff_forall_not_mem.mpr fun k hk => h.opened_ne_nil hk ho
    rw [entries, hkeys]
    exact Nat.zero_le 1
  hits call hmem := by
    rw [ho, List.dedup_nil, List.rtake_nil] at hmem
    cases hmem

/-- A cache for one socket holds the last connection, under the key that is looked up. -/
theorem serves_of_one (h : Paired 1 s) : Serves 1 s where
  one_entry peer := by
    have hl := h.bounded.length_le
    refine Nat.le_trans (List.length_filter_le ..) ?_
    rwa [Dict.keys, List.length_map]
  hits call hmem := by
    obtain ⟨os,i,ho⟩ : ∃ os i, s.opened = os ++ [i] := by
      rcases List.eq_nil_or_concat s.opened with ho | ⟨os,i,ho⟩
      · rw [ho, List.dedup_nil, List.rtake_nil] at hmem
        cases hmem
      · exact ⟨os,i,by rw [ho, List.concat_eq_append]⟩
    have hlast : call.peer.id = i := by
      have hdedup := List.suffix_union_right os [i]
      obtain ⟨front,hfront⟩ := hdedup
      rw [ho, List.dedup_append, (List.nodup_singleton i).dedup, ← hfront, List.rtake_concat_succ,
        List.rtake_zero, List.nil_append] at hmem
      exact List.mem_singleton.mp hmem
    have hkeys : Dict.keys s.connectedPeers.socketCache = [.peerId call.peer.peerId] := by
      have hsuffix : [CacheKey.peerId call.peer.peerId] <:+ s.opened.flatMap pair := by
        rw [ho, List.flatMap_append, List.flatMap_singleton, RemotePeer.peerId, hlast]
        exact ⟨os.flatMap pair ++ [.id i],List.append_assoc ..⟩
      have hmany := h.many (by rw [ho]; exact List.concat_ne_nil _ _)
      have hl := h.bounded.length_le
      have hlen : (Dict.keys s.connectedPeers.socketCache).length = 1 := by
        rw [Dict.keys, List.length_map]
        omega
      refine (List.IsSuffix.eq_of_length (List.suffix_of_suffix_length_le h.keys hsuffix ?_) ?_)
      · rw [hlen]; exact Nat.le_refl 1
      · rw [hlen]; rfl
    obtain ⟨⟨k,sock⟩,he,hk⟩ := List.map_eq_singleton_iff.mp hkeys
    obtain rfl : k = .peerId call.peer.peerId := hk
    refine ⟨sock,_,getConnection_hit (by rw [he]; exact if_pos rfl),rfl,?_⟩
    obtain ⟨j,hj,hmem⟩ := h.sockets (.peerId call.peer.peerId,sock) (by rw [he]; exact List.mem_cons_self)
    rw [pair, List.mem_cons, List.mem_singleton] at hmem
    have htext := CacheKey.peerId.inj (hmem.resolve_left (by simp))
    rw [peerId_eq_iff.mp htext]
    exact hj

/-- In a cache with room for two entries the last connection has both. -/
theorem not_serves (h : Paired maxLimit s) (ho : s.opened ≠ []) (htwo : 2 ≤ maxLimit) :
    ¬ Serves maxLimit s := by
  intro hserves
  obtain ⟨os,i,hi⟩ := (List.eq_nil_or_concat s.opened).resolve_left ho
  rw [List.concat_eq_append] at hi
  have hmany := h.many ho
  have hsuffix : pair i <:+ s.opened.flatMap pair := by
    rw [hi, List.flatMap_append, List.flatMap_singleton]
    exact List.suffix_append _ _
  have hpair : pair i <:+ Dict.keys s.connectedPeers.socketCache := by
    refine List.suffix_of_suffix_length_le hsuffix h.keys ?_
    rw [Dict.keys, List.length_map]
    exact Nat.le_trans (by simp [pair]; omega) hmany
  have hone := hserves.one_entry ⟨i,[],[],0,0,0⟩
  have hsub : (pair i).Sublist (s.entries ⟨i,[],[],0,0,0⟩) := by
    have hall : (pair i).filter (fun k => k = .id i ∨ k = .peerId (Nat.toDigits 10 i.longId)) = pair i := by
      simp [pair]
    rw [← hall]
    exact hpair.sublist.filter _
  exact absurd (Nat.le_trans hsub.length_le hone) (by simp [pair])

/-- The connections of successful calls are served from the cache as it promises exactly if there have
been no calls or the cache is for one socket. -/
theorem connections_served_iff {calls : List ConnectionCall} {socks : List ℕ}
    (hr : getConnections maxLimit calls {} = .done socks s) :
    Serves maxLimit s ↔ calls = [] ∨ maxLimit = 1 := by
  rcases Nat.eq_zero_or_pos maxLimit with rfl | hpos
  · cases calls with
    | nil =>
      cases hr
      exact iff_of_true (serves_of_opened_nil (.start 0) rfl) (.inl rfl)
    | cons call calls => exact absurd hr (getConnections_zero call calls)
  obtain ⟨h,hiff⟩ := Paired.getConnections hpos (.start maxLimit) hr
  rw [← (hiff.trans (and_iff_right rfl))]
  constructor
  · intro hserves
    by_contra hor
    obtain ⟨ho,hne⟩ := not_or.mp hor
    exact not_serves h ho (by omega) hserves
  · rintro (ho | rfl)
    · exact serves_of_opened_nil h ho
    · exact serves_of_one h

/-- A call for a peer, which succeeds. -/
def callFor (last : UInt8) : ConnectionCall where
  peer := ⟨.spread 0 0 last,['p'],['h'],1,2,1⟩

def threeCalls : List ConnectionCall := [callFor 1,callFor 2,callFor 3]

theorem connections_served_one :
    ∃ s, getConnections 1 threeCalls {} = .done [0,1,2] s ∧ (Serves 1 s ↔ threeCalls = [] ∨ 1 = 1) := by
  have hr : getConnections 1 threeCalls {} =
      .done [0,1,2] (getConnections 1 threeCalls {}).state := by rfl
  exact ⟨_,hr,connections_served_iff hr⟩

/-- With room for four there are two entries for the last peer, and the first of three is connected to
once more. -/
theorem connections_not_served :
    ∃ s, getConnections 4 threeCalls {} = .done [0,1,2] s ∧ ¬ Serves 4 s ∧
      s.opened.dedup.rtake 4 = threeCalls.map (fun call => call.peer.id) ∧
      (getConnection 4 (callFor 1) s).state.opened.length = 4 := by
  have hr : getConnections 4 threeCalls {} =
      .done [0,1,2] (getConnections 4 threeCalls {}).state := by rfl
  refine ⟨_,hr,fun h => ?_,by decide,by decide⟩
  exact absurd (h.one_entry (callFor 3).peer) (by decide)

end Connector
end PeerConnect.Core
