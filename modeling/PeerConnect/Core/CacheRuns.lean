import PeerConnect.Core.SocketCache

/-! Runs of the socket cache, and when it is a map that forgets the least recently used entry. -/
namespace PeerConnect.Core.SocketCache
open Library

variable {κ σ : Type} {maxLimit : ℕ} {c : SocketCache κ σ}

theorem makeRoom_suffix (maxLimit : ℕ) (d : Dict κ σ) : makeRoom maxLimit d <:+ d := by
  unfold makeRoom
  split
  · exact List.tail_suffix d
  · exact List.suffix_rfl

theorem keys_makeRoom_suffix (maxLimit : ℕ) (d : Dict κ σ) :
    Dict.keys (makeRoom maxLimit d) <:+ Dict.keys d := (makeRoom_suffix maxLimit d).map Prod.fst

theorem nodup_keys_makeRoom {d : Dict κ σ} (h : (Dict.keys d).Nodup) :
    (Dict.keys (makeRoom maxLimit d)).Nodup := h.sublist (keys_makeRoom_suffix maxLimit d).sublist

theorem length_makeRoom {d : Dict κ σ} (h : d.length ≤ maxLimit) (hpos : 0 < maxLimit) :
    (makeRoom maxLimit d).length < maxLimit := by
  unfold makeRoom
  split
  · rw [List.length_tail]; omega
  · omega

variable [DecidableEq κ]

/-- The keys are those of a dictionary, and no more than the limit. -/
structure Bounded (maxLimit : ℕ) (c : SocketCache κ σ) : Prop where
  nodup_keys : (Dict.keys c.socketCache).Nodup
  length_le : c.socketCache.length ≤ maxLimit

theorem length_set_le {d : Dict κ σ} {peerId : κ} {sock : σ} :
    (Dict.set peerId sock d).length ≤ d.length+1 := by
  have h : (Dict.keys (Dict.set peerId sock d)).length ≤ (Dict.keys d).length+1 := by
    rw [Dict.keys_set]
    split
    · omega
    · rw [List.length_append]; exact Nat.le_refl _
  simpa only [Dict.keys, List.length_map] using h

/-- A limit of zero makes every `popitem` fail. -/
theorem step_addPeerSock_zero (h : Bounded 0 c) (peerId : κ) (sock : σ) :
    step 0 c (.addPeerSock peerId sock) = c := by
  rw [step, addPeerSock_raises (List.length_eq_zero_iff.mp (Nat.le_zero.mp h.length_le))]
  rfl

theorem step_addPeerSock (hpos : 0 < maxLimit) (c : SocketCache κ σ) (peerId : κ) (sock : σ) :
    step maxLimit c (.addPeerSock peerId sock) =
      { c with socketCache := Dict.set peerId sock (makeRoom maxLimit c.socketCache) } := by
  rw [step, addPeerSock_eq fun _ => hpos]
  rfl

theorem Bounded.step (h : Bounded maxLimit c) (op : Operation κ σ) :
    Bounded maxLimit (step maxLimit c op) := by
  cases op with
  | addPeerSock peerId sock =>
    rcases Nat.eq_zero_or_pos maxLimit with rfl | hpos
    · rwa [step_addPeerSock_zero h]
    · rw [step_addPeerSock hpos]
      have hl := length_makeRoom h.length_le hpos
      exact ⟨Dict.nodup_keys_set (nodup_keys_makeRoom h.nodup_keys),Nat.le_trans length_set_le hl⟩
  | getSocket peerId =>
    cases hget : Dict.get? peerId c.socketCache with
    | none => rwa [SocketCache.step, getSocket_of_none hget]
    | some sock =>
      rw [SocketCache.step, getSocket_of_get? hget]
      refine ⟨Dict.nodup_keys_concat (Dict.nodup_keys_remove h.nodup_keys)
        (Dict.notMem_keys_remove peerId _) sock,?_⟩
      have hl := Dict.length_remove h.nodup_keys (Dict.mem_keys_of_get? hget)
      have hc := h.length_le
      simp only [Run.state_done, List.length_append, List.length_singleton]
      omega
  | removeAndClose peerId raises =>
    have hs : (removeAndClose peerId raises c).state.socketCache = Dict.remove peerId c.socketCache :=
      removeAndClose_socketCache raises
    refine ⟨?_,?_⟩ <;> rw [SocketCache.step, hs]
    · exact Dict.nodup_keys_remove h.nodup_keys
    · exact Nat.le_trans (List.length_filter_le ..) h.length_le
  | clear raises =>
    rw [SocketCache.step, clear_eq]
    exact ⟨List.nodup_nil,Nat.zero_le _⟩

theorem bounded_after (maxLimit : ℕ) (ops : List (Operation κ σ)) :
    Bounded maxLimit (after (step maxLimit) ({} : SocketCache κ σ) ops) :=
  after_invariant (fun _ op h => h.step op) ⟨List.nodup_nil,Nat.zero_le _⟩ ops

section Reference

/-- The same operation on a least recently used map. -/
def reference {maxLimit : ℕ} (m : Lru κ σ maxLimit) : Operation κ σ → Lru κ σ maxLimit
  | .addPeerSock peerId peerSocket => m.add peerId peerSocket
  | .getSocket peerId => m.touch peerId
  | .removeAndClose peerId _ => m.remove peerId
  | .clear _ => .empty

/-- A peer that is added is not cached yet, or is the one that has to go, or is the most recent one of
a cache with room. -/
def InOrder (maxLimit : ℕ) (c : SocketCache κ σ) : Operation κ σ → Prop
  | .addPeerSock peerId _ =>
    peerId ∈ Dict.keys c.socketCache →
      if maxLimit ≤ c.socketCache.length then (Dict.keys c.socketCache).head? = some peerId
      else (Dict.keys c.socketCache).getLast? = some peerId
  | _ => True

variable {m : Lru κ σ maxLimit} {peerId : κ}

theorem add_agrees_iff (h : Bounded maxLimit c) (hm : c.socketCache = m.entries) (sock : σ) :
    (step maxLimit c (.addPeerSock peerId sock)).socketCache = (m.add peerId sock).entries ↔
      InOrder maxLimit c (.addPeerSock peerId sock) := by
  rcases Nat.eq_zero_or_pos maxLimit with rfl | hpos
  · have hc := List.length_eq_zero_iff.mp (Nat.le_zero.mp h.length_le)
    have hadd := List.length_eq_zero_iff.mp (Nat.le_zero.mp (m.add peerId sock).length_le)
    rw [step_addPeerSock_zero h, hadd, hc]
    refine iff_of_true rfl fun hmem => ?_
    rw [hc] at hmem
    cases hmem
  rw [step_addPeerSock hpos, InOrder]
  by_cases hmem : peerId ∈ Dict.keys c.socketCache
  · rw [imp_iff_right hmem, Lru.add_entries_of_mem (hm ▸ hmem), ← hm, makeRoom]
    split
    · exact Lru.set_tail_eq_concat_iff h.nodup_keys hmem sock
    · exact Lru.set_eq_concat_iff h.nodup_keys hmem sock
  · refine iff_of_true ?_ fun hk => absurd hk hmem
    have hroom : peerId ∉ Dict.keys (makeRoom maxLimit c.socketCache) := by
      unfold makeRoom
      split
      · exact fun hk => hmem (((List.tail_sublist _).map _).subset hk)
      · exact hmem
    rw [Dict.set, if_neg hroom, makeRoom]
    split
    next hfull => rw [Lru.add_entries_of_full (hm ▸ hmem) (hm ▸ hfull) hpos, hm]
    next hfull => rw [Lru.add_entries_of_room (hm ▸ hmem) (hm ▸ Nat.not_le.mp hfull), hm]

/-- Of all operations only the addition of a peer can leave the order of the reference. -/
theorem step_agrees_iff (h : Bounded maxLimit c) (hm : c.socketCache = m.entries) (op : Operation κ σ) :
    (step maxLimit c op).socketCache = (reference m op).entries ↔ InOrder maxLimit c op := by
  cases op with
  | addPeerSock peerId sock => exact add_agrees_iff h hm sock
  | getSocket peerId =>
    refine iff_of_true ?_ trivial
    cases hget : Dict.get? peerId c.socketCache with
    | none =>
      rw [step, getSocket_of_none hget, reference, Lru.touch, ← hm, hget]
      exact hm
    | some sock =>
      rw [step, getSocket_of_get? hget, reference, Lru.touch_entries_of_get? (hm ▸ hget), ← hm]
      rfl
  | removeAndClose peerId raises =>
    refine iff_of_true ?_ trivial
    rw [step, removeAndClose_socketCache, hm]
    rfl
  | clear raises =>
    refine iff_of_true ?_ trivial
    rw [step, clear_eq]
    rfl

/-- The cache never grows over its limit, and is the least recently used map of that capacity exactly
as long as no peer is added out of order. -/
theorem socketCache_lru_iff (maxLimit : ℕ) (ops : List (Operation κ σ)) :
    (∀ ops', ops' <+: ops →
      (after (step maxLimit) ({} : SocketCache κ σ) ops').socketCache.length ≤ maxLimit) ∧
    ((∀ ops', ops' <+: ops → (after (step maxLimit) ({} : SocketCache κ σ) ops').socketCache =
        (after reference (.empty : Lru κ σ maxLimit) ops').entries) ↔
      Along (step maxLimit) (InOrder maxLimit) {} ops) := by
  refine ⟨fun ops' _ => (bounded_after maxLimit ops').length_le,?_⟩
  refine forall_prefix_iff_along (H := fun ops' =>
    (after (step maxLimit) ({} : SocketCache κ σ) ops').socketCache =
      (after reference (.empty : Lru κ σ maxLimit) ops').entries) rfl (fun ops op hops => ?_) ops
  rw [after_append, after_append]
  exact step_agrees_iff (bounded_after maxLimit ops) hops op

/-- A peer that is cached is added again, and another one after that. -/
def addedAgain : List (Operation ℕ ℕ) :=
  [.addPeerSock 1 10,.addPeerSock 2 20,.addPeerSock 1 11]

/-- The peer keeps its place in a cache that has room, and makes another one go from a full cache. -/
theorem socketCache_not_lru :
    (after (step 3) ({} : SocketCache ℕ ℕ) addedAgain).socketCache = [(1,11),(2,20)] ∧
    (after reference (.empty : Lru ℕ ℕ 3) addedAgain).entries = [(2,20),(1,11)] ∧
    (after (step 2) ({} : SocketCache ℕ ℕ) (addedAgain ++ [.addPeerSock 1 12])).socketCache = [(1,12)] ∧
    (after reference (.empty : Lru ℕ ℕ 2) (addedAgain ++ [.addPeerSock 1 12])).entries = [(2,20),(1,12)] := by
  decide

end Reference

end PeerConnect.Core.SocketCache
