import PeerConnect.Library.Cube
import PeerConnect.PalmTree.Hypercube

/-! The hypercube that `create_hypercube` builds, for any number of peers. -/
namespace PeerConnect.PalmTree
open Library Cube

/-- A topology that is a cube on the positions of the peers, the missing corners left out. -/
structure IsHypercube (nodes : List RemotePeer) (a : AdjacencyList) : Prop where
  symmetric : ∀ x y, y ∈ a.neighbours x → x ∈ a.neighbours y
  irreflexive : ∀ x, x ∉ a.neighbours x
  nodup : ∀ x, (a.neighbours x).Nodup
  degree : ∀ x, (a.neighbours x).length ≤ Nat.clog 2 nodes.length
  distance : ∀ i j p q, nodes[i]? = some p → nodes[j]? = some q →
    (∃ path : List RemotePeer, path ⊆ nodes ∧ path.head? = some p ∧ path.getLast? = some q ∧
      path.IsChain (fun v w => w.idKey ∈ a.neighbours v.idKey) ∧
      path.length = (differingBits i j).card + 1) ∧
    (differingBits i j).card ≤ Nat.clog 2 nodes.length

theorem dimensions_eq (n : ℕ) : dimensions n = Nat.clog 2 n := by
  rw [dimensions, Nat.size_pow]
  rfl

section Pairs
variable {nodes : List RemotePeer} {p q : RemotePeer} {i : ℕ}

theorem mem_hypercubePairs : (p,q) ∈ hypercubePairs nodes ↔
    ∃ i d, nodes[i]? = some p ∧ nodes[flipBit i d]? = some q := by
  simp only [hypercubePairs, List.mem_flatMap, List.mem_filterMap, List.mem_range, Option.map_eq_some_iff,
    Prod.exists, List.mem_zipIdx_iff_getElem?]
  constructor
  · rintro ⟨r,i,hi,d,_,q',hq,he⟩
    cases he
    exact ⟨i,d,hi,hq⟩
  · rintro ⟨i,d,hi,hq⟩
    refine ⟨p,i,hi,d,?_,q,hq,rfl⟩
    have hlt := (List.getElem?_eq_some_iff.mp hi).1
    have hlt' := (List.getElem?_eq_some_iff.mp hq).1
    rw [dimensions_eq]
    refine lt_clog_of_mem_differingBits hlt hlt' (mem_differingBits.mpr ?_)
    rw [testBit_flipBit]
    simp

theorem neighbours_createHypercube (nodes : List RemotePeer) (k : PeerKey) :
    (createHypercube nodes).neighbours k =
      ((hypercubePairs nodes).filter fun e => e.1.idKey = k).map fun e => e.2.idKey := by
  suffices h : ∀ (es : List (RemotePeer × RemotePeer)) (a : AdjacencyList),
      AdjacencyList.neighbours (es.foldl (fun a e => a.append e.1.idKey e.2.idKey) a) k =
        a.neighbours k ++ (es.filter fun e => e.1.idKey = k).map fun e => e.2.idKey by
    rw [createHypercube, h]
    rfl
  intro es
  induction es with
  | nil => exact fun a => (List.append_nil _).symm
  | cons e es ih =>
    intro a
    rw [List.foldl_cons, ih, List.filter_cons]
    by_cases hk : e.1.idKey = k
    · rw [if_pos (by simpa using hk), ← hk]
      simp [AdjacencyList.append]
    · rw [if_neg (by simpa using hk), AdjacencyList.append, AdjacencyList.neighbours_insert_ne _ (Ne.symm hk)]

/-- Peers of distinct ids stand at one position each. -/
theorem position_unique (hdistinct : (nodes.map RemotePeer.id).Nodup) {j : ℕ} (hi : nodes[i]? = some p)
    (hj : nodes[j]? = some q) (h : p.idKey = q.idKey) : i = j := by
  have hid : p.id = q.id := PeerKey.bytes.inj h
  refine (List.getElem?_inj ?_ hdistinct).mp ?_
  · rw [List.length_map]
    exact (List.getElem?_eq_some_iff.mp hi).1
  · rw [List.getElem?_map, List.getElem?_map, hi, hj, Option.map_some, Option.map_some, hid]

/-- Where only one position counts. -/
theorem flatMap_zipIdx {α β : Type} {l : List α} {f : α × ℕ → List β} {a : α} {i : ℕ} (k : ℕ)
    (hi : l[i]? = some a) (hnil : ∀ b j, l[j]? = some b → j ≠ i → f (b,k+j) = []) :
    (l.zipIdx k).flatMap f = f (a,k+i) := by
  induction l generalizing i k with
  | nil => cases hi
  | cons b l ih =>
    rw [List.zipIdx_cons, List.flatMap_cons]
    cases i with
    | zero =>
      cases hi
      have hrest : (l.zipIdx (k+1)).flatMap f = [] := by
        refine List.flatMap_eq_nil_iff.mpr fun x hx => ?_
        obtain ⟨c,m⟩ := x
        obtain ⟨j,rfl⟩ : ∃ j, m = k+1+j := ⟨m-(k+1),by have := List.le_snd_of_mem_zipIdx hx; omega⟩
        have hj : l[j]? = some c := by
          have := List.mk_mem_zipIdx_iff_le_and_getElem?_sub.mp hx
          simpa using this.2
        have := hnil c (j+1) hj (Nat.succ_ne_zero j)
        rwa [show k+(j+1) = k+1+j by omega] at this
      rw [hrest, List.append_nil]
      rfl
    | succ i =>
      have hfirst : f (b,k) = [] := hnil b 0 rfl (Nat.succ_ne_zero i).symm
      have := ih (k+1) (i := i) hi fun c j hj hne => by
        have := hnil c (j+1) hj (by omega)
        rwa [show k+(j+1) = k+1+j by omega] at this
      rw [hfirst, this, List.nil_append]
      rw [show k+1+i = k+(i+1) by omega]

/-- The neighbours of a peer, in the order of the dimensions. -/
theorem neighbours_at (hdistinct : (nodes.map RemotePeer.id).Nodup) (hi : nodes[i]? = some p) :
    (createHypercube nodes).neighbours p.idKey =
      (List.range (dimensions nodes.length)).filterMap fun d => nodes[flipBit i d]?.map RemotePeer.idKey := by
  obtain ⟨hlt,hget⟩ := List.getElem?_eq_some_iff.mp hi
  set dims := List.range (dimensions nodes.length) with hdims
  have hnil : ∀ r i', nodes[i']? = some r → i' ≠ i → ((dims.filterMap fun d =>
      nodes[flipBit i' d]?.map fun neigh => (r,neigh)).filter fun e => e.1.idKey = p.idKey) = [] := by
    intro r i' hr hne
    refine List.filter_eq_nil_iff.mpr fun e he hkey => hne ?_
    obtain ⟨d,_,hd⟩ := List.mem_filterMap.mp he
    obtain ⟨neigh,_,rfl⟩ := Option.map_eq_some_iff.mp hd
    exact position_unique hdistinct hr hi (by simpa using hkey)
  have hall : (dims.filterMap fun d => nodes[flipBit i d]?.map fun neigh => (p,neigh)).filter
      (fun e => e.1.idKey = p.idKey) = dims.filterMap fun d => nodes[flipBit i d]?.map fun neigh => (p,neigh) := by
    refine List.filter_eq_self.mpr fun e he => ?_
    obtain ⟨d,_,hd⟩ := List.mem_filterMap.mp he
    obtain ⟨neigh,_,rfl⟩ := Option.map_eq_some_iff.mp hd
    exact decide_eq_true rfl
  rw [neighbours_createHypercube, hypercubePairs, List.filter_flatMap,
    flatMap_zipIdx 0 hi fun r j hr hne => hnil r _ (by rwa [zero_add]) (by omega), zero_add]
  change ((dims.filterMap fun d => nodes[flipBit i d]?.map fun neigh => (p,neigh)).filter _).map _ = _
  rw [hall, List.map_filterMap]
  simp only [Option.map_map]
  rfl

end Pairs

section Hypercube
variable {nodes : List RemotePeer}

theorem mem_neighbours_iff {x y : PeerKey} : y ∈ (createHypercube nodes).neighbours x ↔
    ∃ p q i d, nodes[i]? = some p ∧ nodes[flipBit i d]? = some q ∧ p.idKey = x ∧ q.idKey = y := by
  rw [AdjacencyList.mem_neighbours_createHypercube]
  constructor
  · rintro ⟨⟨p,q⟩,he,hx,hy⟩
    obtain ⟨i,d,hp,hq⟩ := mem_hypercubePairs.mp he
    exact ⟨p,q,i,d,hp,hq,hx,hy⟩
  · rintro ⟨p,q,i,d,hp,hq,hx,hy⟩
    exact ⟨(p,q),mem_hypercubePairs.mpr ⟨i,d,hp,hq⟩,hx,hy⟩

/-- A list of neighbours is that of a peer, or empty. -/
theorem neighbours_cases (nodes : List RemotePeer) (x : PeerKey) :
    (∃ (p : RemotePeer) (i : ℕ), nodes[i]? = some p ∧ p.idKey = x) ∨ (createHypercube nodes).neighbours x = [] := by
  refine or_iff_not_imp_right.mpr fun hne => ?_
  obtain ⟨y,hy⟩ := List.exists_mem_of_ne_nil _ hne
  obtain ⟨p,_,i,_,hp,_,hx,_⟩ := mem_neighbours_iff.mp hy
  exact ⟨p,i,hp,hx⟩

theorem nodup_neighbours (hdistinct : (nodes.map RemotePeer.id).Nodup) (x : PeerKey) :
    ((createHypercube nodes).neighbours x).Nodup := by
  rcases neighbours_cases nodes x with ⟨p,i,hp,rfl⟩ | hnil
  · rw [neighbours_at hdistinct hp]
    refine List.Nodup.filterMap (fun d e y hd he => ?_) List.nodup_range
    obtain ⟨q,hq,rfl⟩ := Option.map_eq_some_iff.mp hd
    obtain ⟨r,hr,hkey⟩ := Option.map_eq_some_iff.mp he
    exact flipBit_injective i (position_unique hdistinct hq hr hkey.symm)
  · rw [hnil]
    exact List.nodup_nil

theorem length_neighbours_le (hdistinct : (nodes.map RemotePeer.id).Nodup) (x : PeerKey) :
    ((createHypercube nodes).neighbours x).length ≤ Nat.clog 2 nodes.length := by
  rcases neighbours_cases nodes x with ⟨p,i,hp,rfl⟩ | hnil
  · rw [neighbours_at hdistinct hp, ← dimensions_eq]
    exact (List.length_filterMap_le _ _).trans_eq List.length_range
  · rw [hnil]
    exact Nat.zero_le _

/-- A path of positions is one of peers. -/
theorem peers_path {i j : ℕ} {p q : RemotePeer} {path : List ℕ} (hp : nodes[i]? = some p)
    (hq : nodes[j]? = some q) (h : IsPath nodes.length i j path) :
    ∃ peers : List RemotePeer, peers ⊆ nodes ∧ peers.head? = some p ∧ peers.getLast? = some q ∧
      peers.IsChain (fun v w => w.idKey ∈ (createHypercube nodes).neighbours v.idKey) ∧
      peers.length = path.length := by
  obtain ⟨hinside,hhead,hlast,hchain⟩ := h
  have hget : ∀ v ∈ path, nodes[v]? = some (nodes[v]?.getD p) := fun v hv => by
    rw [List.getElem?_eq_getElem (hinside v hv), Option.getD_some]
  refine ⟨path.map fun v => nodes[v]?.getD p,?_,?_,?_,?_,List.length_map _⟩
  · intro r hr
    obtain ⟨v,hv,rfl⟩ := List.mem_map.mp hr
    exact List.mem_of_getElem? (hget v hv)
  · rw [List.head?_map, hhead, Option.map_some, hp, Option.getD_some]
  · rw [List.getLast?_map, hlast, Option.map_some, hq, Option.getD_some]
  · refine (List.isChain_map _).mpr (hchain.imp_of_mem_imp ?_)
    rintro v w hv hw ⟨d,rfl⟩
    exact mem_neighbours_iff.mpr ⟨_,_,v,d,hget v hv,hget _ hw,rfl,rfl⟩

/-- Whatever their number, peers of distinct ids are laid out as a hypercube. -/
theorem createHypercube_isHypercube (center : RemotePeer) (peers : List RemotePeer)
    (hdistinct : ((center::peers).map RemotePeer.id).Nodup) :
    IsHypercube (center::peers) (createHypercube (center::peers)) where
  symmetric := by
    intro x y h
    obtain ⟨p,q,i,d,hp,hq,rfl,rfl⟩ := mem_neighbours_iff.mp h
    exact mem_neighbours_iff.mpr ⟨q,p,flipBit i d,d,hq,by rwa [flipBit_flipBit],rfl,rfl⟩
  irreflexive := by
    intro x h
    obtain ⟨p,q,i,d,hp,hq,rfl,hkey⟩ := mem_neighbours_iff.mp h
    exact flipBit_ne i d (position_unique hdistinct hq hp hkey)
  nodup := nodup_neighbours hdistinct
  degree := length_neighbours_le hdistinct
  distance := by
    intro i j p q hp hq
    have hi := (List.getElem?_eq_some_iff.mp hp).1
    have hj := (List.getElem?_eq_some_iff.mp hq).1
    obtain ⟨path,hpath,hlength⟩ := exists_path hi hj
    obtain ⟨peers,hsub,hhead,hlast,hchain,hpeers⟩ := peers_path hp hq hpath
    exact ⟨⟨peers,hsub,hhead,hlast,hchain,hpeers.trans hlength⟩,card_differingBits_le hi hj⟩

/-- Three peers: a corner is missing. -/
theorem createHypercube_three : IsHypercube [⟨[1]⟩,⟨[2]⟩,⟨[3]⟩] (createHypercube [⟨[1]⟩,⟨[2]⟩,⟨[3]⟩]) :=
  createHypercube_isHypercube ⟨[1]⟩ [⟨[2]⟩,⟨[3]⟩] (by decide)

end Hypercube

end PeerConnect.PalmTree
