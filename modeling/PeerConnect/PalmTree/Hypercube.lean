import PeerConnect.PalmTree.Protocol

/-! What the peers of a palm tree are told, against the hypercube of those that take part. The
hypercube is kept under the peers' `id`, their answers under their `peer_id`. -/
namespace PeerConnect.PalmTree
open Library Wire

/-- Peers of distinct ids, each of which reports two addresses or never answers, and the order in which
the answers and timeouts come. -/
structure Invitation where
  center : RemotePeer
  peers : List RemotePeer
  distinct : ((center::peers).map RemotePeer.id).Nodup
  passive : Address
  active : Address
  reply : RemotePeer → Option (Address × Address)
  order : List RemotePeer
  arrives : order.Perm peers

namespace Invitation

/-- What the task of a peer returns. -/
def conformation (s : Invitation) (p : RemotePeer) : Option InformResponse :=
  (s.reply p).map fun r => ⟨p.peerId,r.1,r.2⟩

/-- `inform_peers`, then `update_states`. -/
def run (s : Invitation) : Except Exn Updated :=
  ((PalmTreeProtocol.init s.center s.peers).informPeers s.passive s.active
    (s.order.map fun p => (p,s.conformation p))).map PalmTreeProtocol.updateStates

/-- The addresses of a peer that takes part. -/
def addresses (s : Invitation) (p : RemotePeer) : Option (Address × Address) :=
  if p = s.center then some (s.passive,s.active) else s.reply p

/-- The positions of the two differ in one bit. -/
def Adjacent (s : Invitation) (a b : RemotePeer) : Prop :=
  ∃ i d, (s.center::s.peers)[i]? = some a ∧ (s.center::s.peers)[i ^^^ (1 <<< d)]? = some b

/-- What is to be known of a neighbour. -/
def Lists (s : Invitation) (name : RemotePeer → PeerKey) (p : RemotePeer) (m : AddressesMapping) :
    Prop :=
  ∀ e, e ∈ m ↔ ∃ b r, s.Adjacent p b ∧ s.addresses b = some r ∧ e = (name b,r.1,r.2)

/-- The adjacency lists are the hypercube of those that take part, and each of them is told of its
neighbours, all under one way of naming a peer. -/
structure Told (s : Invitation) (name : RemotePeer → PeerKey) (out : Updated) : Prop where
  names : ∀ p, name p = p.idKey ∨ name p = p.peerId
  edges : ∀ k k', k' ∈ out.adjacencyList.neighbours k ↔ ∃ a b, s.Adjacent a b ∧
    (s.addresses a).isSome ∧ (s.addresses b).isSome ∧ k = name a ∧ k' = name b
  peers : ∀ p ∈ s.peers, ∀ r, s.reply p = some r → ∃ m, (r.1,m) ∈ out.sent ∧ s.Lists name p m
  center : s.Lists name s.center out.relay

def Consistent (s : Invitation) : Prop := ∃ name out, s.run = .ok out ∧ s.Told name out

end Invitation

namespace AdjacencyList

@[simp] theorem neighbours_insert_self (a : AdjacencyList) (k : PeerKey) (l : List PeerKey) :
    neighbours (a.insert k l) k = l := by simp [neighbours]

theorem neighbours_insert_ne (a : AdjacencyList) {k k' : PeerKey} (h : k' ≠ k) (l : List PeerKey) :
    neighbours (a.insert k l) k' = a.neighbours k' := by simp [neighbours, AList.lookup_insert_ne h]

@[simp] theorem neighbours_read (a : AdjacencyList) (k k' : PeerKey) :
    (a.read k).neighbours k' = a.neighbours k' := by
  by_cases h : k' = k
  · subst h
    exact neighbours_insert_self _ _ _
  · exact neighbours_insert_ne _ h _

theorem mem_neighbours_append (a : AdjacencyList) (k x k' x' : PeerKey) :
    x' ∈ (a.append k x).neighbours k' ↔ x' ∈ a.neighbours k' ∨ k' = k ∧ x' = x := by
  by_cases h : k' = k
  · subst h
    simp [append]
  · simp [append, neighbours_insert_ne _ h, h]

/-- Every list of the hypercube holds what its pairs say. -/
theorem mem_neighbours_createHypercube (nodes : List RemotePeer) (k x : PeerKey) :
    x ∈ (createHypercube nodes).neighbours k ↔
      ∃ e ∈ hypercubePairs nodes, e.1.idKey = k ∧ e.2.idKey = x := by
  suffices h : ∀ (es : List (RemotePeer × RemotePeer)) (a : AdjacencyList),
      x ∈ neighbours (es.foldl (fun a e => a.append e.1.idKey e.2.idKey) a) k ↔
        x ∈ a.neighbours k ∨ ∃ e ∈ es, e.1.idKey = k ∧ e.2.idKey = x by
    have := h (hypercubePairs nodes) ∅
    rw [createHypercube, this]
    simp [neighbours]
  intro es
  induction es with
  | nil => simp
  | cons e es ih =>
    intro a
    rw [List.foldl_cons, ih, mem_neighbours_append, or_assoc]
    refine or_congr_right ?_
    simp [eq_comm]

end AdjacencyList

theorem dimensions_pos {n : ℕ} (h : 2 ≤ n) : 0 < dimensions n := by
  have hc : 0 < Nat.clog 2 n := Nat.clog_pos (by decide) h
  unfold dimensions
  rw [Nat.size_pow]
  omega

/-- The center and the first peer are neighbours. -/
theorem first_pair (center p : RemotePeer) (peers : List RemotePeer) :
    (center,p) ∈ hypercubePairs (center::p::peers) := by
  refine List.mem_flatMap.mpr ⟨(center,0),?_,?_⟩
  · simp [List.zipIdx_cons]
  · refine List.mem_filterMap.mpr ⟨0,?_,rfl⟩
    exact List.mem_range.mpr (dimensions_pos (by simp))

namespace PalmTreeProtocol

/-- What the answers and timeouts leave: the hypercube as it was, nothing under any text, and answers
under texts only. -/
structure Kept (p p' : PalmTreeProtocol) : Prop where
  centerPeer : p'.centerPeer = p.centerPeer
  bytes : ∀ b, p'.adjacencyList.neighbours (.bytes b) = p.adjacencyList.neighbours (.bytes b)
  text : ∀ t, p'.adjacencyList.neighbours (.text t) = []
  confirmed : ∀ k ∈ p'.confirmedPeers.keys, k = p'.centerPeer.idKey ∨ ∃ t, k = .text t

/-- The neighbours of a silent peer are looked up under a key that nothing has been put under. -/
theorem Kept.discard {p p' : PalmTreeProtocol} (h : Kept p p') (peer : RemotePeer) :
    ∃ p'', p'.discard peer = .ok p'' ∧ Kept p p'' := by
  have hnone : (p'.adjacencyList.read peer.peerId).neighbours peer.peerId = [] := by
    rw [AdjacencyList.neighbours_read]
    exact h.text _
  refine ⟨{ p' with adjacencyList := (p'.adjacencyList.read peer.peerId).erase peer.peerId },?_,
    h.centerPeer,fun b => ?_,fun t => ?_,h.confirmed⟩
  · simp only [PalmTreeProtocol.discard, hnone, List.foldlM_nil]
    rfl
  · rw [← h.bytes b, AdjacencyList.neighbours, AList.lookup_erase_ne (by simp [RemotePeer.peerId])]
    exact AdjacencyList.neighbours_read _ _ _
  · by_cases ht : PeerKey.text t = peer.peerId
    · rw [AdjacencyList.neighbours, ht, AList.lookup_erase]
      rfl
    · rw [AdjacencyList.neighbours, AList.lookup_erase_ne ht]
      exact (AdjacencyList.neighbours_read _ _ _).trans (h.text t)

theorem Kept.settle {p p' : PalmTreeProtocol} (h : Kept p p') (s : Invitation) (peer : RemotePeer) :
    ∃ p'', p'.settle (peer,s.conformation peer) = .ok p'' ∧ Kept p p'' := by
  unfold Invitation.conformation
  cases s.reply peer with
  | none => exact h.discard peer
  | some r =>
    refine ⟨_,rfl,h.centerPeer,h.bytes,h.text,fun k hk => ?_⟩
    rw [AList.keys_insert] at hk
    rcases List.mem_cons.mp hk with rfl | hk
    · exact .inr ⟨_,rfl⟩
    · exact h.confirmed k (List.mem_of_mem_erase hk)

theorem Kept.informPeers {p p' : PalmTreeProtocol} (h : Kept p p') (s : Invitation)
    (order : List RemotePeer) :
    ∃ p'', (order.map fun q => (q,s.conformation q)).foldlM PalmTreeProtocol.settle p' = .ok p'' ∧
      Kept p p'' := by
  induction order generalizing p' with
  | nil => exact ⟨p',rfl,h⟩
  | cons q order ih =>
    obtain ⟨p₁,hp₁,h₁⟩ := h.settle s q
    obtain ⟨p₂,hp₂,h₂⟩ := ih h₁
    refine ⟨p₂,?_,h₂⟩
    rw [List.map_cons, List.foldlM_cons, hp₁]
    exact hp₂

/-- Nobody but the center is told anything of a neighbour. -/
theorem updateStates_spec {p : PalmTreeProtocol} (ht : ∀ t, p.adjacencyList.neighbours (.text t) = [])
    (hc : ∀ k ∈ p.confirmedPeers.keys, k = p.centerPeer.idKey ∨ ∃ t, k = .text t) :
    (∀ k, p.updateStates.adjacencyList.neighbours k = p.adjacencyList.neighbours k) ∧
      p.updateStates.relay = addressesMapping p.confirmedPeers
        (p.adjacencyList.neighbours p.centerPeer.idKey) ∧
      ∀ d ∈ p.updateStates.sent, d.2 = [] := by
  suffices h : ∀ (ks : List PeerKey) (u : Updated), (∀ k ∈ ks, ∃ t, k = .text t) →
      (∀ k, u.adjacencyList.neighbours k = p.adjacencyList.neighbours k) → (∀ d ∈ u.sent, d.2 = []) →
      (∀ k, (ks.foldl (updatePeer p.confirmedPeers) u).adjacencyList.neighbours k =
        p.adjacencyList.neighbours k) ∧
        (ks.foldl (updatePeer p.confirmedPeers) u).relay = u.relay ∧
        ∀ d ∈ (ks.foldl (updatePeer p.confirmedPeers) u).sent, d.2 = [] by
    refine h _ _ (fun k hk => ?_) (fun k => AdjacencyList.neighbours_read _ _ _) (by simp)
    obtain ⟨hk,hne⟩ := List.mem_filter.mp hk
    exact (hc k hk).resolve_left (by simpa using hne)
  intro ks
  induction ks with
  | nil => exact fun u _ hu hs => ⟨hu,rfl,hs⟩
  | cons k ks ih =>
    intro u hks hu hs
    obtain ⟨t,rfl⟩ := hks k List.mem_cons_self
    have hrelay : (updatePeer p.confirmedPeers u (.text t)).relay = u.relay := by
      unfold updatePeer
      split <;> rfl
    rw [List.foldl_cons, ← hrelay]
    refine ih _ (fun k hk => hks k (List.mem_cons_of_mem _ hk)) (fun k => ?_) fun d hd => ?_
    · unfold updatePeer
      split
      · exact hu k
      · rw [AdjacencyList.neighbours_read]
        exact hu k
    · unfold updatePeer at hd
      split at hd
      · exact hs d hd
      · rcases List.mem_append.mp hd with hd | hd
        · exact hs d hd
        · rw [List.mem_singleton.mp hd]
          show addressesMapping p.confirmedPeers (u.adjacencyList.neighbours (.text t)) = []
          rw [hu, ht]
          rfl

end PalmTreeProtocol

namespace Invitation

/-- The hypercube is left as it was made, and nobody but the center is told any of it. -/
structure Untold (s : Invitation) (out : Updated) : Prop where
  neighbours : ∀ k, out.adjacencyList.neighbours k =
    (createHypercube (s.center::s.peers)).neighbours k
  relay : ∃ confirmed, out.relay = PalmTreeProtocol.addressesMapping confirmed
    ((createHypercube (s.center::s.peers)).neighbours s.center.idKey)
  sent : ∀ d ∈ out.sent, d.2 = []

theorem run_untold (s : Invitation) : ∃ out, s.run = .ok out ∧ s.Untold out := by
  set p := PalmTreeProtocol.init s.center s.peers with hp
  have hread : ∀ k, p.adjacencyList.neighbours k =
      (createHypercube (s.center::s.peers)).neighbours k :=
    fun k => AdjacencyList.neighbours_read _ _ _
  have htext : ∀ t, p.adjacencyList.neighbours (.text t) = [] := fun t => by
    refine List.eq_nil_iff_forall_not_mem.mpr fun x hx => ?_
    rw [hread, AdjacencyList.mem_neighbours_createHypercube] at hx
    obtain ⟨e,_,he,_⟩ := hx
    cases he
  set confirmed := p.confirmedPeers.insert p.centerPeer.idKey
    ⟨p.centerPeer.idKey,s.passive,s.active⟩ with hconfirmed
  have hstart : PalmTreeProtocol.Kept p { p with confirmedPeers := confirmed } := by
    refine ⟨rfl,fun _ => rfl,htext,fun k hk => .inl ?_⟩
    rw [hconfirmed, AList.keys_insert] at hk
    simpa [hp, PalmTreeProtocol.init] using hk
  obtain ⟨p',hp',hkept⟩ := hstart.informPeers s s.order
  obtain ⟨hadj,hrelay,hsent⟩ := PalmTreeProtocol.updateStates_spec hkept.text hkept.confirmed
  have hall : ∀ k, p'.adjacencyList.neighbours k =
      (createHypercube (s.center::s.peers)).neighbours k := fun k => by
    rw [← hread]
    cases k with
    | bytes b => exact hkept.bytes b
    | text t => rw [hkept.text, htext]
  refine ⟨p'.updateStates,?_,⟨fun k => (hadj k).trans (hall k),⟨p'.confirmedPeers,?_⟩,hsent⟩⟩
  · rw [run, PalmTreeProtocol.informPeers]
    exact congrArg (Except.map PalmTreeProtocol.updateStates) hp'
  · rw [hrelay, hall, hkept.centerPeer]
    rfl

/-- With a first peer, its edge to the center is not told or not removed. -/
theorem not_consistent {s : Invitation} {p : RemotePeer} {ps : List RemotePeer}
    (h : s.peers = p::ps) : ¬ s.Consistent := by
  rintro ⟨name,out,hrun,htold⟩
  obtain ⟨out',hrun',huntold⟩ := s.run_untold
  obtain rfl := Except.ok.inj (hrun.symm.trans hrun')
  have hne : p ≠ s.center := by
    have hd := s.distinct
    rw [h] at hd
    rintro rfl
    simp at hd
  cases hr : s.reply p with
  | some r =>
    obtain ⟨m,hm,hlists⟩ := htold.peers p (by simp [h]) r hr
    have hnil : m = [] := huntold.sent _ hm
    have hcenter : (name s.center,s.passive,s.active) ∈ m :=
      (hlists _).mpr ⟨s.center,(s.passive,s.active),⟨1,0,by simp [h],rfl⟩,by simp [addresses],rfl⟩
    rw [hnil] at hcenter
    cases hcenter
  | none =>
    have hpair : p.idKey ∈ out.adjacencyList.neighbours s.center.idKey := by
      rw [huntold.neighbours]
      refine (AdjacencyList.mem_neighbours_createHypercube _ _ _).mpr ⟨(s.center,p),?_,rfl,rfl⟩
      rw [h]
      exact first_pair s.center p ps
    obtain ⟨a,b,_,_,hb,_,hk⟩ := (htold.edges _ _).mp hpair
    have hbp : b = p := by
      rcases htold.names b with hn | hn
      · rw [hn] at hk
        obtain ⟨id⟩ := b
        exact congrArg RemotePeer.mk (PeerKey.bytes.inj hk).symm
      · rw [hn] at hk
        cases hk
    rw [hbp, addresses, if_neg hne, hr] at hb
    cases hb

/-- The answers agree with the hypercube exactly where there is nobody to ask. -/
theorem consistent_iff_alone (s : Invitation) : s.Consistent ↔ s.peers = [] := by
  constructor
  · intro h
    cases hp : s.peers with
    | nil => rfl
    | cons p ps => exact absurd h (not_consistent hp)
  · intro hp
    have hnone : ∀ a b, ¬ s.Adjacent a b := by
      rintro a b ⟨i,d,hi,hj⟩
      rw [hp] at hi hj
      have hi0 : i = 0 := by
        have := (List.getElem?_eq_some_iff.mp hi).1
        simp at this
        exact this
      have hj0 := (List.getElem?_eq_some_iff.mp hj).1
      rw [hi0, Nat.zero_xor, Nat.one_shiftLeft, List.length_singleton] at hj0
      have := Nat.two_pow_pos d
      omega
    have hempty : ∀ k, (createHypercube (s.center::s.peers)).neighbours k = [] := fun k => by
      rw [hp]
      simp [createHypercube, hypercubePairs, dimensions, AdjacencyList.neighbours]
    obtain ⟨out,hrun,huntold⟩ := s.run_untold
    obtain ⟨confirmed,hrelay⟩ := huntold.relay
    refine ⟨RemotePeer.idKey,out,hrun,fun p => .inl rfl,fun k k' => ?_,?_,fun e => ?_⟩
    · simp [huntold.neighbours, hempty, hnone]
    · simp [hp]
    · rw [hrelay, hempty]
      simp [PalmTreeProtocol.addressesMapping, hnone]

/-- One peer, which answers. -/
def pair : Invitation where
  center := ⟨[1]⟩
  peers := [⟨[2]⟩]
  distinct := by decide
  passive := (['c'],1)
  active := (['c'],2)
  reply := fun _ => some ((['p'],3),(['p'],4))
  order := [⟨[2]⟩]
  arrives := List.Perm.refl _

theorem pair_not_told : ¬ pair.Consistent := not_consistent (p := ⟨[2]⟩) rfl

end Invitation
end PeerConnect.PalmTree
