import PeerConnect.Core.CacheRuns

/-! Which sockets leave the cache without being closed. -/
namespace PeerConnect.Core.SocketCache
open Library

variable {κ σ : Type}

theorem mem_values {c : SocketCache κ σ} {sock : σ} :
    sock ∈ c.values ↔ ∃ peerId, (peerId,sock) ∈ c.socketCache := by
  simp [values]

/-- The socket that the operation stores. -/
def Operation.added : Operation κ σ → List σ
  | .addPeerSock _ peerSocket => [peerSocket]
  | _ => []

variable [DecidableEq κ] {maxLimit : ℕ} {c : SocketCache κ σ} {op : Operation κ σ} {sock : σ}

/-- The socket is in the cache, or `close` has been called on it. -/
def Accounted (c : SocketCache κ σ) (sock : σ) : Prop := sock ∈ c.values ∨ sock ∈ c.closed

/-- Every socket that has been added is accounted for, and no removal has raised or left its peer. -/
structure Leakless (maxLimit : ℕ) (ops : List (Operation κ σ)) : Prop where
  accounted : ∀ sock ∈ ops.flatMap Operation.added,
    Accounted (after (step maxLimit) ({} : SocketCache κ σ) ops) sock
  removes : ∀ ops' peerId raises, ops' ++ [.removeAndClose peerId raises] <+: ops →
    ∃ c, removeAndClose peerId raises (after (step maxLimit) ({} : SocketCache κ σ) ops') = .done () c ∧
      peerId ∉ Dict.keys c.socketCache

/-- The entry of the peer, and the one in front of a full cache. -/
def Displaced (maxLimit : ℕ) (peerId : κ) (c : SocketCache κ σ) (item : κ × σ) : Prop :=
  item.1 = peerId ∨ maxLimit ≤ c.socketCache.length ∧ c.socketCache.head? = some item

/-- The socket of the peer, or in front of a full cache, is closed already, or is the one that is added, or
stands in another entry; and no cached socket that is removed fails to close. -/
def Releases (maxLimit : ℕ) (c : SocketCache κ σ) : Operation κ σ → Prop
  | .addPeerSock peerId peerSocket =>
    ∀ item ∈ c.socketCache, c.Displaced maxLimit peerId item → item.2 ∈ c.closed ∨ item.2 = peerSocket ∨
      ∃ other ∈ c.socketCache, ¬ c.Displaced maxLimit peerId other ∧ other.2 = item.2
  | .removeAndClose peerId raises => peerId ∈ Dict.keys c.socketCache → raises = false
  | _ => True

instance Displaced.decidable [DecidableEq σ] (maxLimit : ℕ) (peerId : κ) (c : SocketCache κ σ) (item : κ × σ) :
    Decidable (c.Displaced maxLimit peerId item) := inferInstanceAs (Decidable (_ ∨ _ ∧ _))

instance Releases.decidable [DecidableEq σ] (maxLimit : ℕ) (c : SocketCache κ σ) :
    ∀ op, Decidable (Releases maxLimit c op)
  | .addPeerSock _ _ => inferInstanceAs (Decidable (∀ item ∈ c.socketCache, _ → _ ∨ _ ∨ _))
  | .removeAndClose _ _ => inferInstanceAs (Decidable (_ → _))
  | .getSocket _ | .clear _ => .isTrue trivial

omit [DecidableEq κ] in
/-- What makes room and what is replaced goes, and everything else stays. -/
theorem mem_makeRoom_iff (h : (Dict.keys c.socketCache).Nodup) {peerId : κ} {item : κ × σ} :
    item ∈ makeRoom maxLimit c.socketCache ∧ item.1 ≠ peerId ↔
      item ∈ c.socketCache ∧ ¬ c.Displaced maxLimit peerId item := by
  obtain ⟨d,closed⟩ := c
  unfold makeRoom Displaced
  by_cases hfull : maxLimit ≤ d.length
  · rw [if_pos hfull]
    simp only [hfull, true_and, not_or]
    cases d with
    | nil => simp
    | cons front rest =>
      have hfront : front ∉ rest := fun hmem => (List.nodup_cons.mp h).1 (List.mem_map_of_mem hmem)
      rw [List.tail_cons, List.mem_cons, List.head?_cons, Option.some_inj]
      constructor
      · rintro ⟨hmem,hne⟩
        exact ⟨.inr hmem,hne,fun heq => hfront (heq ▸ hmem)⟩
      · rintro ⟨hmem,hne,hother⟩
        exact ⟨hmem.resolve_left fun heq => hother heq.symm,hne⟩
  · rw [if_neg hfull]
    simp only [hfull, false_and, or_false, ne_eq]

theorem mem_values_addPeerSock (hpos : 0 < maxLimit) (h : Bounded maxLimit c) {peerId : κ}
    {peerSocket : σ} : sock ∈ (step maxLimit c (.addPeerSock peerId peerSocket)).values ↔
      sock = peerSocket ∨
        ∃ item ∈ c.socketCache, ¬ c.Displaced maxLimit peerId item ∧ item.2 = sock := by
  rw [step_addPeerSock hpos, mem_values]
  simp only [Dict.mem_set_iff (nodup_keys_makeRoom h.nodup_keys), Dict.mem_remove,
    mem_makeRoom_iff h.nodup_keys, Prod.mk.injEq]
  constructor
  · rintro ⟨other,⟨_,rfl⟩ | ⟨hmem,hkept⟩⟩
    · exact .inl rfl
    · exact .inr ⟨(other,sock),hmem,hkept,rfl⟩
  · rintro (rfl | ⟨⟨other,sock⟩,hmem,hkept,rfl⟩)
    · exact ⟨peerId,.inl ⟨rfl,rfl⟩⟩
    · exact ⟨other,.inr ⟨hmem,hkept⟩⟩

theorem mem_values_getSocket (h : Bounded maxLimit c) (peerId : κ) :
    sock ∈ (step maxLimit c (.getSocket peerId)).values ↔ sock ∈ c.values := by
  rw [step]
  cases hget : Dict.get? peerId c.socketCache with
  | none => rw [getSocket_of_none hget]; rfl
  | some s =>
    rw [getSocket_of_get? hget, mem_values, mem_values]
    refine exists_congr fun other => ?_
    rw [Dict.mem_iff_of_get? h.nodup_keys hget]
    exact List.mem_append.trans (or_comm.trans (or_congr_left List.mem_singleton))

/-- A removal makes a stored socket a closed one. -/
theorem accounted_removeAndClose (h : Bounded maxLimit c) (peerId : κ) (raises : Bool) :
    Accounted (step maxLimit c (.removeAndClose peerId raises)) sock ↔ Accounted c sock := by
  rw [step]
  cases hget : Dict.get? peerId c.socketCache with
  | none => rw [removeAndClose_of_none hget]; rfl
  | some s =>
    have hstate : (removeAndClose peerId raises c).state =
        ⟨Dict.remove peerId c.socketCache,s::c.closed⟩ := by
      cases raises with
      | false => rw [removeAndClose_closes hget]; rfl
      | true => rw [removeAndClose_raises hget]; rfl
    rw [hstate, Accounted, Accounted, mem_values, mem_values, List.mem_cons, ← or_assoc]
    refine or_congr_left ?_
    simp only [Dict.mem_iff_of_get? h.nodup_keys hget, Prod.mk.injEq, exists_or, exists_and_right,
      exists_eq, true_and, or_comm]

theorem accounted_clear (raises : σ → Bool) :
    Accounted (step maxLimit c (.clear raises)) sock ↔ Accounted c sock := by
  rw [step, clear_eq]
  simp only [Run.state_done, Accounted, values, List.map_nil, List.not_mem_nil, false_or,
    List.mem_append, List.mem_reverse]

theorem removeAndClose_returns_iff {peerId : κ} {raises : Bool} :
    (∃ c', removeAndClose peerId raises c = .done () c' ∧ peerId ∉ Dict.keys c'.socketCache) ↔
      (peerId ∈ Dict.keys c.socketCache → raises = false) := by
  cases hget : Dict.get? peerId c.socketCache with
  | none =>
    have hk := Dict.get?_eq_none_iff.mp hget
    exact iff_of_true ⟨c,removeAndClose_of_none hget raises,hk⟩ fun h => absurd h hk
  | some s =>
    rw [imp_iff_right (Dict.mem_keys_of_get? hget)]
    cases raises with
    | false => exact iff_of_true ⟨_,removeAndClose_closes hget,Dict.notMem_keys_remove peerId _⟩ rfl
    | true =>
      rw [removeAndClose_raises hget]
      exact iff_of_false (fun ⟨_,h,_⟩ => by cases h) (by decide)

theorem mem_values_step (hpos : 0 < maxLimit) (h : Bounded maxLimit c)
    (hs : sock ∈ (step maxLimit c op).values) : sock ∈ c.values ∨ sock ∈ op.added := by
  cases op with
  | addPeerSock peerId peerSocket =>
    rcases (mem_values_addPeerSock hpos h).mp hs with rfl | ⟨⟨other,sock⟩,hmem,-,rfl⟩
    · exact .inr (List.mem_singleton_self sock)
    · exact .inl (mem_values.mpr ⟨other,hmem⟩)
  | getSocket peerId => exact .inl ((mem_values_getSocket h peerId).mp hs)
  | removeAndClose peerId raises =>
    obtain ⟨other,hmem⟩ := mem_values.mp hs
    rw [step, removeAndClose_socketCache] at hmem
    exact .inl (mem_values.mpr ⟨other,(Dict.mem_remove.mp hmem).1⟩)
  | clear raises =>
    rw [step, clear_eq] at hs
    cases hs

theorem mem_added_of_mem_values (hpos : 0 < maxLimit) (ops : List (Operation κ σ))
    (hs : sock ∈ (after (step maxLimit) ({} : SocketCache κ σ) ops).values) :
    sock ∈ ops.flatMap Operation.added := by
  induction ops using List.reverseRecOn with
  | nil => cases hs
  | append_singleton ops op ih =>
    rw [after_append] at hs
    rw [List.flatMap_append, List.mem_append, List.flatMap_singleton]
    exact (mem_values_step hpos (bounded_after maxLimit ops) hs).imp_left ih

/-- The step of the run: what is accounted for stays so exactly if the operation releases what it
takes away. -/
theorem accounted_step_iff (hpos : 0 < maxLimit) (h : Bounded maxLimit c) {socks : List σ}
    (hsocks : ∀ s ∈ socks, Accounted c s) (hvalues : ∀ s ∈ c.values, s ∈ socks) :
    ((∀ s ∈ socks ++ op.added, Accounted (step maxLimit c op) s) ∧
      ∀ peerId raises, op = .removeAndClose peerId raises →
        ∃ c', removeAndClose peerId raises c = .done () c' ∧ peerId ∉ Dict.keys c'.socketCache) ↔
      Releases maxLimit c op := by
  cases op with
  | addPeerSock peerId peerSocket =>
    have hclosed : (step maxLimit c (.addPeerSock peerId peerSocket)).closed = c.closed := by
      rw [step_addPeerSock hpos]
    simp only [Accounted, mem_values_addPeerSock hpos h, hclosed, Releases, Operation.added]
    constructor
    · rintro ⟨hall,-⟩ ⟨other,s⟩ hitem -
      have hs := hvalues s (mem_values.mpr ⟨other,hitem⟩)
      exact or_comm.mp (hall s (List.mem_append_left _ hs))
    · refine fun hrel => ⟨fun s hs => ?_,fun _ _ he => by cases he⟩
      apply or_comm.mp
      rcases List.mem_append.mp hs with hs | hs
      · rcases hsocks s hs with hvalue | hclosed'
        · obtain ⟨other,hitem⟩ := mem_values.mp hvalue
          -- what is not displaced is still stored
          by_cases hdisplaced : c.Displaced maxLimit peerId (other,s)
          · exact hrel (other,s) hitem hdisplaced
          · exact .inr (.inr ⟨(other,s),hitem,hdisplaced,rfl⟩)
        · exact .inl hclosed'
      · exact .inr (.inl (List.mem_singleton.mp hs))
  | getSocket peerId =>
    have hclosed : (step maxLimit c (.getSocket peerId)).closed = c.closed := by
      rw [step]
      cases hget : Dict.get? peerId c.socketCache with
      | none => rw [getSocket_of_none hget]; rfl
      | some s => rw [getSocket_of_get? hget]; rfl
    refine iff_of_true ⟨fun s hs => ?_,fun _ _ he => by cases he⟩ trivial
    rw [Accounted, mem_values_getSocket h, hclosed]
    exact hsocks s (by simpa only [Operation.added, List.append_nil] using hs)
  | removeAndClose peerId raises =>
    rw [Releases, ← removeAndClose_returns_iff]
    constructor
    · exact fun hboth => hboth.2 peerId raises rfl
    · refine fun hret => ⟨fun s hs => ?_,fun p r he => ?_⟩
      · rw [accounted_removeAndClose h]
        exact hsocks s (by simpa only [Operation.added, List.append_nil] using hs)
      · cases he
        exact hret
  | clear raises =>
    refine iff_of_true ⟨fun s hs => ?_,fun _ _ he => by cases he⟩ trivial
    rw [accounted_clear]
    exact hsocks s (by simpa only [Operation.added, List.append_nil] using hs)

theorem leakless_concat_iff (hpos : 0 < maxLimit) {ops : List (Operation κ σ)}
    (h : Leakless maxLimit ops) : Leakless maxLimit (ops ++ [op]) ↔
      Releases maxLimit (after (step maxLimit) {} ops) op := by
  rw [← accounted_step_iff hpos (bounded_after maxLimit ops) h.accounted
    fun s => mem_added_of_mem_values hpos ops]
  have hstep : after (step maxLimit) ({} : SocketCache κ σ) (ops ++ [op]) =
      step maxLimit (after (step maxLimit) {} ops) op := after_append ..
  constructor
  · refine fun ⟨hacc,hrem⟩ => ⟨?_,fun peerId raises he => hrem ops peerId raises ?_⟩
    · rwa [hstep, List.flatMap_append, List.flatMap_singleton] at hacc
    · subst he
      exact List.prefix_rfl
  · refine fun ⟨hacc,hrem⟩ => ⟨?_,fun ops' peerId raises hp => ?_⟩
    · rwa [hstep, List.flatMap_append, List.flatMap_singleton]
    · rcases List.prefix_concat_iff.mp hp with he | hp
      · obtain ⟨rfl,hop⟩ := List.append_inj' he rfl
        exact hrem peerId raises (List.singleton_inj.mp hop).symm
      · exact h.removes ops' peerId raises hp

/-- Nothing leaks, and removals return, exactly as long as every operation releases what it takes. -/
theorem socketCache_leakless_iff (hpos : 0 < maxLimit) (ops : List (Operation κ σ)) :
    (∀ ops', ops' <+: ops → Leakless maxLimit ops') ↔
      Along (step maxLimit) (Releases maxLimit) ({} : SocketCache κ σ) ops :=
  forall_prefix_iff_along (H := Leakless maxLimit)
    ⟨List.forall_mem_nil _,fun _ _ _ h => absurd (List.prefix_nil.mp h) (List.concat_ne_nil _ _)⟩
    (fun _ _ h => leakless_concat_iff hpos h) ops

/-- Three peers, the first of them with a second socket, in a cache for two. -/
def fourSockets : List (Operation ℕ ℕ) :=
  [.addPeerSock 1 10,.addPeerSock 1 11,.addPeerSock 2 20,.addPeerSock 3 30]

/-- A peer that leaves before a third one comes, and a socket that is added again. -/
def oneAfterAnother : List (Operation ℕ ℕ) :=
  [.addPeerSock 1 10,.addPeerSock 2 20,.removeAndClose 1 false,.addPeerSock 3 30,.addPeerSock 2 20,
    .clear fun _ => true]

theorem socketCache_leakless_one :
    0 < 3 ∧ ∀ ops', ops' <+: oneAfterAnother → Leakless 3 ops' := by
  have hreleases : Along (step 3) (Releases 3) ({} : SocketCache ℕ ℕ) oneAfterAnother := by decide
  exact ⟨by decide,(socketCache_leakless_iff (by decide) _).mpr hreleases⟩

/-- Neither the socket that is replaced nor the one that is evicted is closed, and a socket that does
not close makes its removal raise. -/
theorem socketCache_leaks :
    ¬ Leakless 2 fourSockets ∧
    (after (step 2) ({} : SocketCache ℕ ℕ) fourSockets).values = [20,30] ∧
    (after (step 2) ({} : SocketCache ℕ ℕ) fourSockets).closed = [] ∧
    removeAndClose 3 true (after (step 2) ({} : SocketCache ℕ ℕ) fourSockets) =
      .raised .keyError ⟨[(2,20)],[30]⟩ := by
  have hvalues : (after (step 2) ({} : SocketCache ℕ ℕ) fourSockets).values = [20,30] := by decide
  have hclosed : (after (step 2) ({} : SocketCache ℕ ℕ) fourSockets).closed = [] := by decide
  refine ⟨fun h => ?_,hvalues,hclosed,rfl⟩
  have h10 := h.accounted 10 (by decide)
  rw [Accounted, hvalues, hclosed] at h10
  exact absurd h10 (by decide)

end PeerConnect.Core.SocketCache
