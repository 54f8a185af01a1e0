import PeerConnect.Kademlia.PeerLists

/-! Looking into one list after the other, and which of them are never looked into. -/
namespace PeerConnect.Kademlia
open Library Wire

/-- `PeerListGetter`, of which there is only the class, with the lists it has looked into. -/
structure PeerListGetter where
  peersCache : AList fun _ : List Char => RemotePeer := ∅
  previouslyFetchedIndex : ℕ := 0
  fetched : List NodeId := []

namespace PeerListGetter

/-- What the network answers when it is asked for a list: nothing where no neighbours are known. -/
abbrev Lookup := NodeId → Option (List RemotePeer)

def startOver (nodeListIds : List NodeId) (g : PeerListGetter) : PeerListGetter :=
  if nodeListIds.length ≤ g.previouslyFetchedIndex+1 then { g with previouslyFetchedIndex := 0 } else g

def cache (peers : List RemotePeer) (g : PeerListGetter) : PeerListGetter :=
  { g with peersCache := peers.foldl (fun c p => c.insert p.peerId p) g.peersCache }

def getMorePeers (nodeListIds : List NodeId) (getListOfNodes : Lookup) :
    Coro Exn PeerListGetter (List RemotePeer) := do
  Coro.modify (startOver nodeListIds)
  let index ← Coro.get (·.previouslyFetchedIndex)
  match nodeListIds[index]? with
  | none => Coro.raise .indexError
  | some findListId => do
    Coro.modify fun g => { g with fetched := g.fetched ++ [findListId] }
    let listOfPeers := (getListOfNodes findListId).getD []
    Coro.modify fun g => { g with previouslyFetchedIndex := g.previouslyFetchedIndex+1 }
    if listOfPeers = [] then pure []
    else do
      Coro.modify (cache listOfPeers)
      pure (RemotePeer.distinct listOfPeers)

/-- Consecutive calls, each with what the network answers then, and what they return. -/
def window (nodeListIds : List NodeId) : List Lookup → Coro Exn PeerListGetter (List RemotePeer)
  | [] => pure []
  | getListOfNodes::later => do
    let peers ← getMorePeers nodeListIds getListOfNodes
    let others ← window nodeListIds later
    pure (peers ++ others)

/-- The index after any calls since the start. -/
def Reachable (nodeListIds : List NodeId) (g : PeerListGetter) : Prop :=
  ∃ earlier peers, window nodeListIds earlier {} = .done peers g

/-- The index of the list a call looks into. -/
def next (nodeListIds : List NodeId) (g : PeerListGetter) : ℕ :=
  (g.startOver nodeListIds).previouslyFetchedIndex

/-- The number of lists that are looked into before the first comes again. -/
def cycle (nodeListIds : List NodeId) : ℕ := max 1 (nodeListIds.length-1)

variable {ids : List NodeId} {g : PeerListGetter}

theorem next_lt_cycle (ids : List NodeId) (g : PeerListGetter) : g.next ids < cycle ids := by
  unfold next startOver cycle
  split
  · exact Nat.lt_of_lt_of_le Nat.zero_lt_one (le_max_left _ _)
  · omega

theorem cycle_le (h : ids ≠ []) : cycle ids ≤ ids.length := by
  have := List.length_pos_iff.mpr h
  unfold cycle
  omega

/-- The state once a list has been looked into. -/
def looked (ids : List NodeId) (findListId : NodeId) (g : PeerListGetter) : PeerListGetter :=
  { g with previouslyFetchedIndex := g.next ids + 1, fetched := g.fetched ++ [findListId] }

/-- Behind the last list of the cycle comes the first again. -/
theorem next_of_index {g' : PeerListGetter} (h : ids ≠ [])
    (hg' : g'.previouslyFetchedIndex = g.next ids + 1) :
    g'.next ids = (g.next ids + 1) % cycle ids := by
  have hcycle := next_lt_cycle ids g
  have hpos := List.length_pos_iff.mpr h
  rw [next, startOver, hg']
  unfold cycle at hcycle ⊢
  split
  · rw [show g.next ids + 1 = max 1 (ids.length-1) by omega, Nat.mod_self]
  · rw [Nat.mod_eq_of_lt (by omega), hg']

/-- A call looks into the next list and returns what is there. -/
theorem getMorePeers_eq (h : ids ≠ []) (getListOfNodes : Lookup) (g : PeerListGetter) :
    ∃ findListId, ids[g.next ids]? = some findListId ∧
      getMorePeers ids getListOfNodes g =
        .done (RemotePeer.distinct ((getListOfNodes findListId).getD []))
          (cache ((getListOfNodes findListId).getD []) (g.looked ids findListId)) := by
  have hlt : g.next ids < ids.length := (next_lt_cycle ids g).trans_le (cycle_le h)
  have hget : ids[g.next ids]? = some (ids[g.next ids]) := List.getElem?_eq_getElem hlt
  set findListId := ids[g.next ids]
  refine ⟨findListId,hget,?_⟩
  have hindex : ids[(g.startOver ids).previouslyFetchedIndex]? = some findListId := hget
  have hlooked : { g.startOver ids with
      previouslyFetchedIndex := (g.startOver ids).previouslyFetchedIndex + 1
      fetched := (g.startOver ids).fetched ++ [findListId] } = g.looked ids findListId := by
    unfold looked next startOver
    split <;> rfl
  simp only [getMorePeers, Coro.bind_apply, Coro.modify_apply, Run.bind_done, Coro.get_apply, hindex]
  rw [hlooked, Coro.ite_apply]
  split
  next hempty => rw [hempty]; rfl
  · rfl

/-- What a window of calls looks into and returns: from the next list on, around the cycle. -/
structure Covers (ids : List NodeId) (calls : List Lookup) (g : PeerListGetter)
    (peers : List RemotePeer) (g' : PeerListGetter) : Prop where
  fetched : ∃ looks, g'.fetched = g.fetched ++ looks ∧
    looks.map some = (List.range calls.length).map fun k => ids[(g.next ids + k) % cycle ids]?
  returns : ∀ (k : ℕ) getListOfNodes findListId, calls[k]? = some getListOfNodes →
    ids[(g.next ids + k) % cycle ids]? = some findListId →
    ∀ p ∈ (getListOfNodes findListId).getD [], ∃ q ∈ peers, RemotePeer.same p q = true

theorem window_eq (h : ids ≠ []) (calls : List Lookup) (g : PeerListGetter) :
    ∃ peers g', window ids calls g = .done peers g' ∧ Covers ids calls g peers g' := by
  induction calls generalizing g with
  | nil => exact ⟨[],g,rfl,⟨[],by simp,rfl⟩,fun k _ _ hk => by simp at hk⟩
  | cons getListOfNodes later ih =>
    obtain ⟨findListId,hid,hcall⟩ := getMorePeers_eq h getListOfNodes g
    set first := RemotePeer.distinct ((getListOfNodes findListId).getD [])
    set g₁ := cache ((getListOfNodes findListId).getD []) (g.looked ids findListId)
    have hzero : (g.next ids + 0) % cycle ids = g.next ids := Nat.mod_eq_of_lt (next_lt_cycle ids g)
    have hadd : ∀ k, (g₁.next ids + k) % cycle ids = (g.next ids + (k+1)) % cycle ids := fun k => by
      rw [show g₁.next ids = _ from next_of_index h rfl, Nat.mod_add_mod, Nat.add_assoc,
        Nat.add_comm 1 k]
    obtain ⟨others,g',hrun,⟨looks,hfetched,hlooks⟩,hreturns⟩ := ih g₁
    refine ⟨first ++ others,g',?_,⟨findListId::looks,?_,?_⟩,?_⟩
    · simp only [window, Coro.bind_apply, hcall, Run.bind_done, hrun, Coro.pure_apply]
    · rw [hfetched, show g₁.fetched = g.fetched ++ [findListId] from rfl, List.append_assoc]
      rfl
    · rw [List.length_cons, List.range_succ_eq_map, List.map_cons, List.map_cons, List.map_map, hlooks,
        hzero, hid]
      simp only [hadd]
      rfl
    · intro k lookup id hk hid' p hp
      cases k with
      | zero =>
        rw [hzero, hid] at hid'
        cases hk
        cases hid'
        obtain ⟨q,hq,hs⟩ := RemotePeer.mem_distinct hp
        exact ⟨q,List.mem_append_left _ hq,hs⟩
      | succ k =>
        rw [← hadd] at hid'
        obtain ⟨q,hq,hs⟩ := hreturns k lookup id hk hid' p hp
        exact ⟨q,List.mem_append_right _ hq,hs⟩

/-- As many calls as there are lists come to each place of the cycle. -/
theorem exists_mod_eq {start m n : ℕ} (hm : m ≤ n) {j : ℕ} (hj : j < m) (hs : start < m) :
    ∃ k < n, (start + k) % m = j := by
  by_cases h : start ≤ j
  · exact ⟨j-start,by omega,by rw [Nat.add_sub_cancel' h, Nat.mod_eq_of_lt hj]⟩
  · refine ⟨j+m-start,by omega,?_⟩
    rw [show start + (j+m-start) = j+m by omega, Nat.add_mod_right, Nat.mod_eq_of_lt hj]

/-- The lists of the cycle are all but the last, or the only one. -/
theorem mem_cycle {first : NodeId} {rest : List NodeId} {b : NodeId}
    (hb : b ∈ (first::rest).dropLast ∨ rest = [] ∧ b = first) :
    ∃ j, j < cycle (first::rest) ∧ (first::rest)[j]? = some b := by
  rcases hb with hb | ⟨rfl,rfl⟩
  · obtain ⟨j,hj⟩ := List.mem_iff_getElem?.mp hb
    have hlt : j < (first::rest).length-1 := by
      have := (List.getElem?_eq_some_iff.mp hj).1
      rwa [List.length_dropLast] at this
    refine ⟨j,lt_max_of_lt_right hlt,?_⟩
    rw [List.getElem?_dropLast, if_pos hlt] at hj
    exact hj
  · exact ⟨0,Nat.zero_lt_one,rfl⟩

/-- Nothing else is ever looked into. -/
theorem mem_of_cycle {first : NodeId} {rest : List NodeId} {b : NodeId} {j : ℕ}
    (hj : j < cycle (first::rest)) (hb : (first::rest)[j]? = some b) :
    b ∈ (first::rest).dropLast ∨ rest = [] ∧ b = first := by
  by_cases hr : rest = []
  · subst hr
    have : j = 0 := by
      have : cycle [first] = 1 := rfl
      omega
    subst this
    exact .inr ⟨rfl,(Option.some.inj hb).symm⟩
  · left
    have hpos := List.length_pos_iff.mpr hr
    have hlt : j < (first::rest).length-1 := by
      unfold cycle at hj
      rw [List.length_cons] at hj ⊢
      omega
    refine List.mem_iff_getElem?.mpr ⟨j,?_⟩
    rw [List.getElem?_dropLast, if_pos hlt, hb]

end PeerListGetter

open PeerListGetter

/-- Every bucket is looked into in each window of as many calls as there are buckets. -/
def EveryListFetched (ids : List NodeId) : Prop :=
  ∀ (g : PeerListGetter) (calls : List Lookup), Reachable ids g → calls.length = ids.length →
    ∃ peers g' looks, window ids calls g = .done peers g' ∧ g'.fetched = g.fetched ++ looks ∧
      ∀ b ∈ ids, b ∈ looks

/-- A peer stored in the bucket nearest to it is returned in each window of as many calls as there are
buckets, whatever else is stored meanwhile. -/
def EveryPeerReturned (ids : List NodeId) : Prop :=
  ∀ (p : RemotePeer) (key : NodeId) (before after : Storage), getClosestListId p.id ids = some key →
    before.storePeersInList ids key [.peer p] = .ok (true,after) →
    ∀ (g : PeerListGetter) (storages : List Storage), Reachable ids g →
      storages.length = ids.length →
      (∀ s ∈ storages, Relation.ReflTransGen (Storage.Stores ids) after s) →
      ∃ peers g', window ids (storages.map Storage.getListOfPeers) g = .done peers g' ∧
        ∃ q ∈ peers, RemotePeer.same p q = true

/-- The nearest bucket is chosen, and all that is stored is found. -/
structure EveryPeerFound (ids : List NodeId) : Prop where
  nearest : ∀ node : NodeId, ∃ b ∈ ids, getClosestListId node ids = some b ∧
    ∀ i ∈ ids, node.longId ^^^ b.longId ≤ node.longId ^^^ i.longId
  fetched : EveryListFetched ids
  returned : EveryPeerReturned ids

/-- The last bucket is the only one, or comes before too. -/
def LastRepeated (first : NodeId) (rest : List NodeId) : Prop :=
  rest = [] ∨ (first::rest).getLast (List.cons_ne_nil _ _) ∈ (first::rest).dropLast

theorem mem_of_lastRepeated {first : NodeId} {rest : List NodeId} (h : LastRepeated first rest)
    {b : NodeId} (hb : b ∈ first::rest) : b ∈ (first::rest).dropLast ∨ rest = [] ∧ b = first := by
  rcases h with rfl | h
  · exact .inr ⟨rfl,List.mem_singleton.mp hb⟩
  · left
    rw [← List.dropLast_append_getLast (List.cons_ne_nil first rest)] at hb
    rcases List.mem_append.mp hb with hb | hb
    · exact hb
    · rwa [List.mem_singleton.mp hb]

/-- Where the last bucket comes before, a window looks into each. -/
theorem window_fetches {first : NodeId} {rest : List NodeId} (h : LastRepeated first rest)
    (calls : List Lookup) (hlen : calls.length = (first::rest).length) (g : PeerListGetter)
    {b : NodeId} (hb : b ∈ first::rest) :
    ∃ k < calls.length,
      (first::rest)[(g.next (first::rest) + k) % cycle (first::rest)]? = some b := by
  obtain ⟨j,hj,hget⟩ := mem_cycle (mem_of_lastRepeated h hb)
  obtain ⟨k,hk,hmod⟩ := exists_mod_eq (hlen ▸ cycle_le (List.cons_ne_nil _ _)) hj
    (next_lt_cycle (first::rest) g)
  exact ⟨k,hk,by rw [hmod, hget]⟩

theorem everyListFetched {first : NodeId} {rest : List NodeId} (h : LastRepeated first rest) :
    EveryListFetched (first::rest) := by
  intro g calls _ hlen
  obtain ⟨peers,g',hrun,⟨looks,hfetched,hlooks⟩,_⟩ := window_eq (List.cons_ne_nil first rest) calls g
  refine ⟨peers,g',looks,hrun,hfetched,fun b hb => ?_⟩
  obtain ⟨k,hk,hget⟩ := window_fetches h calls hlen g hb
  have hmem : some b ∈ looks.map some := by
    rw [hlooks, List.mem_map]
    exact ⟨k,List.mem_range.mpr hk,hget⟩
  simpa using hmem

theorem everyPeerReturned {first : NodeId} {rest : List NodeId} (h : LastRepeated first rest) :
    EveryPeerReturned (first::rest) := by
  intro p key before after hkey hstore g storages _ hlen hall
  obtain ⟨peers,g',hrun,_,hreturns⟩ := window_eq (List.cons_ne_nil first rest)
    (storages.map Storage.getListOfPeers) g
  obtain ⟨b,hb,hclosest,_⟩ := getClosestListId_least p.id (List.cons_ne_nil first rest)
  obtain rfl : b = key := Option.some.inj (hclosest.symm.trans hkey)
  obtain ⟨k,hk,hget⟩ := window_fetches h (storages.map Storage.getListOfPeers)
    (by rw [List.length_map, hlen]) g hb
  rw [List.length_map] at hk
  have hs := hall _ (List.getElem_mem hk)
  obtain ⟨stored,hl,hp⟩ := Storage.holds_of_stores hs (Storage.storePeersInList_holds hstore)
  refine ⟨peers,g',hrun,hreturns k _ b (by
    rw [List.getElem?_map, List.getElem?_eq_getElem hk, Option.map_some]) hget p ?_⟩
  rw [hl]
  exact hp

theorem not_everyListFetched {first : NodeId} {rest : List NodeId} (h : ¬ LastRepeated first rest) :
    ¬ EveryListFetched (first::rest) := by
  intro hall
  set ids := first::rest with hids
  set last := ids.getLast (List.cons_ne_nil _ _) with hlast
  obtain ⟨peers,g',looks,hrun,hfetched,hmem⟩ :=
    hall {} (List.replicate ids.length fun _ => none) ⟨[],[],rfl⟩ (List.length_replicate)
  obtain ⟨peers₂,g₂,hrun₂,⟨looks₂,hfetched₂,hlooks₂⟩,_⟩ := window_eq (List.cons_ne_nil first rest)
    (List.replicate ids.length fun _ => none) {}
  obtain ⟨_,rfl⟩ := Run.done.inj (hrun.symm.trans hrun₂)
  obtain rfl : looks = looks₂ := List.append_cancel_left (hfetched.symm.trans hfetched₂)
  have hlooked : some last ∈ looks.map some :=
    List.mem_map_of_mem (hmem last (List.getLast_mem _))
  rw [hlooks₂] at hlooked
  obtain ⟨k,_,hget⟩ := List.mem_map.mp hlooked
  rcases mem_of_cycle (Nat.mod_lt _ (Nat.lt_of_lt_of_le Nat.zero_lt_one (le_max_left _ _))) hget with
    hin | ⟨hrest,_⟩
  · exact h (.inr hin)
  · exact h (.inl hrest)

/-- All peers are found exactly if the last bucket comes before too or is the only one: the index starts
over one list too early. -/
theorem every_peer_found_iff_last_repeated (first : NodeId) (rest : List NodeId) :
    EveryPeerFound (first::rest) ↔ LastRepeated first rest := by
  constructor
  · intro h
    by_contra hlast
    exact not_everyListFetched hlast h.fetched
  · intro h
    exact ⟨fun node => getClosestListId_least node (List.cons_ne_nil _ _),everyListFetched h,
      everyPeerReturned h⟩

/-- The last of the twenty buckets is never looked into. -/
theorem last_list_not_fetched : ¬ ∀ ids : List NodeId, ids ≠ [] → EveryPeerFound ids := by
  intro h
  have hlast : ¬ LastRepeated (.spread 0 0 0) nodeListIds.tail := by
    unfold LastRepeated
    decide
  exact not_everyListFetched hlast (h nodeListIds (List.cons_ne_nil _ _)).fetched

end PeerConnect.Kademlia
