import PeerConnect.PalmTree.Network
import PeerConnect.Library.Forest

/-! A relay has its future done before it sends tree checks, and whoever resolves a future with a link
to it does so later. The resolved futures grow a forest. -/
namespace PeerConnect.PalmTree
open Library

variable {ι : Type}

/-- A tree check comes from a relay that has settled, and a rejection goes to one. -/
def Datagram.Known (s : Set ι) (d : Datagram ι) : Prop :=
  match d.header with
  | .gossipTreeCheck => d.id ∈ s ∧ d.addr ∈ s
  | .gossipTreeReject => d.target ∈ s
  | _ => True

/-- A stream is only answered if it comes from a relay that has settled. -/
def Task.Known (s : Set ι) : Task ι → Prop
  | .confirm peerId _ => peerId ∈ s
  | _ => True

theorem Datagram.Known.mono {s s' : Set ι} {d : Datagram ι} (h : d.Known s) (hs : s ⊆ s') :
    d.Known s' := by
  unfold Datagram.Known at h ⊢
  split at h <;> simp_all [Set.subset_def]

theorem Task.Known.mono {s s' : Set ι} {t : Task ι} (h : t.Known s) (hs : s ⊆ s') : t.Known s' := by
  cases t with
  | confirm p k => exact hs h
  | _ => trivial

/-- A future stays as it is, or it is pending and done afterwards, with a link to a settled relay if
with any. -/
def Settles (s : Set ι) (f f' : ParentFuture ι) : Prop :=
  f' = f ∨ f = .pending ∧ (f' = .cancelled ∨ ∃ link, f' = .resolved link ∧ ∀ p, link = some p → p ∈ s)

theorem Settles.trans {s : Set ι} {f f' f'' : ParentFuture ι} (h : Settles s f f')
    (h' : Settles s f' f'') : Settles s f f'' := by
  rcases h' with rfl | ⟨hp,h'⟩
  · exact h
  · -- the second one starts from a pending future, so the first has done nothing
    rcases h with rfl | ⟨_,rfl | ⟨link,rfl,_⟩⟩
    · exact .inr ⟨hp,h'⟩
    · cases hp
    · cases hp

/-- What a handler may do, the settled relays given. -/
structure Effect.Sound (s : Set ι) (this : ι) (r : Relay ι) (e : Effect ι) : Prop where
  parent : Settles s r.parentLinkFut e.relay.parentLinkFut
  expected : ∀ p ∈ e.relay.expectedParentPeers, p ∈ s
  checks : ∀ d ∈ e.send, d.header = .gossipTreeCheck →
    e.relay.parentLinkFut.done = true ∧ d.id = this ∧ d.addr = this
  rejects : ∀ d ∈ e.send, d.header = .gossipTreeReject → d.target ∈ s
  tasks : ∀ t ∈ e.tasks, t.Known s

namespace Relay

variable {s : Set ι} {this : ι} {r : Relay ι}

/-- A handler that changes neither the future nor the expected peers, and sends nothing. -/
theorem sound_of_same {r' : Relay ι} (hp : r'.parentLinkFut = r.parentLinkFut)
    (hx : r'.expectedParentPeers = r.expectedParentPeers)
    (h : ∀ p ∈ r.expectedParentPeers, p ∈ s) : Effect.Sound s this r { relay := r' } where
  parent := .inl hp
  expected := by rwa [hx]
  checks := by simp
  rejects := by simp
  tasks := by simp

theorem cancelParent_settles (s : Set ι) (r : Relay ι) :
    Settles s r.parentLinkFut r.cancelParent.parentLinkFut ∧
      r.cancelParent.parentLinkFut.done = true ∧
      r.cancelParent.expectedParentPeers = r.expectedParentPeers := by
  unfold cancelParent
  split
  next h => exact ⟨.inr ⟨h,.inl rfl⟩,rfl,rfl⟩
  next h =>
    refine ⟨.inl rfl,?_,rfl⟩
    cases hp : r.parentLinkFut with
    | pending => exact absurd hp h
    | _ => rfl

theorem setResult_sound (link : Option ι) (hlink : ∀ p, link = some p → p ∈ s)
    (h : ∀ p ∈ r.expectedParentPeers, p ∈ s) :
    Effect.Sound s this r { relay := r.setResult link } := by
  unfold setResult
  split
  next hp => exact ⟨.inr ⟨hp,.inr ⟨link,rfl,hlink⟩⟩,h,by simp,by simp,by simp⟩
  · exact sound_of_same rfl rfl h

theorem cancelParent_sound (h : ∀ p ∈ r.expectedParentPeers, p ∈ s) :
    Effect.Sound s this r { relay := r.cancelParent } := by
  obtain ⟨hset,_,hx⟩ := cancelParent_settles s r
  exact ⟨hset,by rwa [hx],by simp,by simp,by simp⟩

variable [DecidableEq ι]

theorem forwardTreeCheckPacket_sound (senderId : ι) (hd : r.parentLinkFut.done = true)
    (h : ∀ p ∈ r.expectedParentPeers, p ∈ s) :
    Effect.Sound s this r (r.forwardTreeCheckPacket this senderId) where
  parent := .inl rfl
  expected := h
  checks := by
    intro d hmem _
    obtain ⟨p,_,rfl⟩ := List.mem_map.mp hmem
    exact ⟨hd,rfl,rfl⟩
  rejects := by
    intro d hmem hr
    obtain ⟨p,_,rfl⟩ := List.mem_map.mp hmem
    cases hr
  tasks := by simp [forwardTreeCheckPacket]

theorem finishTreeCheck_sound (senderId : ι) (hd : r.parentLinkFut.done = true)
    (h : ∀ p ∈ r.expectedParentPeers, p ∈ s) :
    Effect.Sound s this r (r.finishTreeCheck this senderId) :=
  { forwardTreeCheckPacket_sound senderId hd h with }

theorem sendUpgradePacket_sound (senderId : ι) (rounds : ℕ)
    (h : ∀ p ∈ r.expectedParentPeers, p ∈ s) :
    Effect.Sound s this r (sendUpgradePacket this senderId rounds r) := by
  cases rounds with
  | zero => exact sound_of_same rfl rfl h
  | succ rounds =>
    rw [sendUpgradePacket]
    split
    next hd => exact finishTreeCheck_sound senderId hd h
    · exact ⟨.inl rfl,h,by simp,by simp,by simp [Task.Known]⟩

theorem gossipTreeCheck_sound {id addr : ι} (known : Bool) (hid : id ∈ s) (haddr : addr ∈ s)
    (h : ∀ p ∈ r.expectedParentPeers, p ∈ s) :
    Effect.Sound s this r (r.gossipTreeCheck this id addr known) := by
  unfold gossipTreeCheck
  split
  · exact sound_of_same rfl rfl h
  · split
    · exact ⟨.inl rfl,h,by simp,by simp [haddr],by simp⟩
    · -- the sender of the tree check is expected from now on
      have hi : ∀ p ∈ insert id r.expectedParentPeers, p ∈ s := by
        intro p hp
        rcases Finset.mem_insert.mp hp with rfl | hp
        · exact hid
        · exact h p hp
      exact { sendUpgradePacket_sound (r := { r with
        expectedParentPeers := insert id r.expectedParentPeers
        activeLinks := insert id r.activeLinks }) id maxRetries hi with }

theorem resumeAwaitParent_sound (senderId : ι) (rounds : ℕ)
    (h : ∀ p ∈ r.expectedParentPeers, p ∈ s) :
    Effect.Sound s this r (r.resumeAwaitParent this senderId rounds) := by
  unfold resumeAwaitParent
  split
  next hp =>
    have hd : r.parentLinkFut.done = true := by rw [hp]; rfl
    exact { finishTreeCheck_sound (r := r.setLink senderId fun l => { l with direction := .incoming })
      senderId hd h with }
  · exact sound_of_same rfl rfl h
  · obtain ⟨hset,_,hx⟩ := cancelParent_settles s r
    have he : Effect.Sound s this r.cancelParent _ :=
      sendUpgradePacket_sound senderId rounds (by rwa [hx])
    exact { he with parent := hset.trans he.parent }

theorem gossipTreeReject_sound (id : ι) (hd : r.parentLinkFut.done = true)
    (h : ∀ p ∈ r.expectedParentPeers, p ∈ s) :
    Effect.Sound s this r (r.gossipTreeReject this id) := by
  unfold gossipTreeReject
  split
  · exact sound_of_same rfl rfl h
  · split
    · exact sound_of_same rfl rfl h
    · exact forwardTreeCheckPacket_sound id hd h

theorem gossipUpgradeConnection_sound (id : ι) (h : ∀ p ∈ r.expectedParentPeers, p ∈ s) :
    Effect.Sound s this r (r.gossipUpgradeConnection id) := by
  unfold gossipUpgradeConnection
  split
  · exact sound_of_same rfl rfl h
  · split
    · exact sound_of_same rfl rfl h
    · exact ⟨.inl rfl,h,by simp,by simp,by simp [Task.Known]⟩

theorem gossipDowngradeConnection_sound (id : ι) (h : ∀ p ∈ r.expectedParentPeers, p ∈ s) :
    Effect.Sound s this r { relay := r.gossipDowngradeConnection id } := by
  unfold gossipDowngradeConnection
  split <;> exact sound_of_same rfl rfl h

theorem gossipAddStreamLink_sound (id : ι) (stream : ℕ) (h : ∀ p ∈ r.expectedParentPeers, p ∈ s) :
    Effect.Sound s this r (r.gossipAddStreamLink id stream).1 := by
  unfold gossipAddStreamLink
  split
  · exact sound_of_same rfl rfl h
  split
  · exact sound_of_same rfl rfl h
  split
  · exact sound_of_same rfl rfl h
  split
  next hx => exact ⟨.inl rfl,h,by simp,by simp,by simpa [Task.Known] using h id hx⟩
  · exact sound_of_same rfl rfl h

theorem gossipUpdateState_sound (addresses : List ι) (h : ∀ p ∈ r.expectedParentPeers, p ∈ s) :
    Effect.Sound s this r { relay := r.gossipUpdateState addresses } := by
  unfold gossipUpdateState
  split <;> exact sound_of_same rfl rfl h

/-- Every handler of a datagram is sound if what it is given is known. -/
theorem datagramReceived_sound {d : Datagram ι} (hd : d.Known s) (known : Bool)
    (hself : d.target ∈ s → r.parentLinkFut.done = true)
    (h : ∀ p ∈ r.expectedParentPeers, p ∈ s) :
    Effect.Sound s d.target r (r.datagramReceived d known) := by
  obtain ⟨addr,target,header,id⟩ := d
  cases header with
  | gossipTreeCheck => exact gossipTreeCheck_sound known hd.1 hd.2 h
  | gossipTreeReject => exact gossipTreeReject_sound id (hself hd) h
  | gossipUpgradeConn => exact gossipUpgradeConnection_sound id h
  | gossipDowngradeConn => exact gossipDowngradeConnection_sound id h

end Relay

namespace Network

/-- Everything known about the settled relays is true, and the resolved futures are a forest of them. -/
structure Sound (n : Network ι) : Prop where
  forest : ∃ F : Forest ι, F.settled = n.settled ∧ ∀ x p, F.parent x = some p ↔ n.parentOf x p
  expected : ∀ x, ∀ p ∈ (n.relay x).expectedParentPeers, p ∈ n.settled
  datagrams : ∀ d ∈ n.datagrams, d.Known n.settled
  tasks : ∀ t ∈ n.tasks, t.2.Known n.settled

/-- Streams have no part in it. -/
theorem Sound.setPhase {n : Network ι} (h : n.Sound) (k : ℕ) (phase : StreamPhase) :
    (n.setPhase k phase).Sound := ⟨h.forest,h.expected,h.datagrams,h.tasks⟩

theorem Sound.confirm {n : Network ι} (h : n.Sound) (k : ℕ) : (n.confirm k).Sound := by
  unfold Network.confirm
  split
  · exact h.setPhase k _
  · exact h

theorem sound_init (fanout : ι → ℤ) : (init fanout).Sound where
  forest := ⟨.empty,by simp [settled, init, Forest.empty, ParentFuture.done],
    by simp [parentOf, init, Forest.empty]⟩
  expected := by simp [init]
  datagrams := by simp [init]
  tasks := by simp [init]

variable [DecidableEq ι]

/-- The forest after a relay's future has changed. -/
theorem forest_update {n n' : Network ι} {x : ι} {r : Relay ι}
    (hn : n'.relay = Function.update n.relay x r)
    (hset : Settles n.settled (n.relay x).parentLinkFut r.parentLinkFut)
    (h : ∃ F : Forest ι, F.settled = n.settled ∧ ∀ x p, F.parent x = some p ↔ n.parentOf x p) :
    ∃ F : Forest ι, F.settled = n'.settled ∧ ∀ x p, F.parent x = some p ↔ n'.parentOf x p := by
  obtain ⟨F,hF,hparent⟩ := h
  have hx : (n'.relay x).parentLinkFut = r.parentLinkFut := by rw [hn, Function.update_self]
  have hne : ∀ y, y ≠ x → n'.relay y = n.relay y := fun y hy => by rw [hn, Function.update_of_ne hy]
  rcases hset with hsame | ⟨hp,hdone⟩
  · have hall : ∀ y, (n'.relay y).parentLinkFut = (n.relay y).parentLinkFut := by
      intro y
      by_cases hy : y = x
      · rw [hy, hx, hsame]
      · rw [hne y hy]
    refine ⟨F,?_,fun y p => ?_⟩
    · rw [hF]
      ext y
      simp [settled, hall]
    · rw [hparent, parentOf, parentOf, hall]
  · have hpending : x ∉ F.settled := by
      rw [hF]
      simp [settled, hp, ParentFuture.done]
    obtain ⟨link,hlink,hfut⟩ : ∃ link : Option ι, (∀ p, link = some p → p ∈ F.settled) ∧
        r.parentLinkFut.done = true ∧ ∀ p, link = some p ↔ r.parentLinkFut = .resolved (some p) := by
      rcases hdone with hc | ⟨link,hr,hlink⟩
      · exact ⟨none,by simp,by rw [hc]; rfl,by simp [hc]⟩
      · exact ⟨link,by rwa [hF],by rw [hr]; rfl,by simp [hr]⟩
    refine ⟨F.settle x link hpending hlink,?_,fun y p => ?_⟩
    · show insert x F.settled = _
      rw [hF]
      ext y
      by_cases hy : y = x
      · subst hy
        simp [settled, hx, hfut.1]
      · simp [settled, hy, hne y hy]
    · show Function.update F.parent x link y = some p ↔ _
      by_cases hy : y = x
      · subst hy
        rw [Function.update_self, parentOf, hx, hfut.2]
      · rw [Function.update_of_ne hy, hparent, parentOf, parentOf, hne y hy]

/-- A future that is done stays done. -/
theorem settled_apply {n : Network ι} {x : ι} {e : Effect ι}
    (h : Settles n.settled (n.relay x).parentLinkFut e.relay.parentLinkFut) :
    n.settled ⊆ (n.apply x e).settled := by
  intro y hy
  by_cases hyx : y = x
  · subst hyx
    rcases h with h | ⟨hp,_⟩
    · simpa [settled, apply_relay_self, h] using hy
    · simp [settled, hp, ParentFuture.done] at hy
  · simpa [settled, apply_relay_ne hyx] using hy

/-- What is sound for a handler is sound for the network. -/
theorem Sound.apply {n : Network ι} (h : n.Sound) {x : ι} {e : Effect ι}
    (he : e.Sound n.settled x (n.relay x)) : (n.apply x e).Sound where
  forest := forest_update rfl he.parent h.forest
  expected := by
    intro y p hp
    refine settled_apply he.parent ?_
    by_cases hy : y = x
    · subst hy
      rw [apply_relay_self] at hp
      exact he.expected p hp
    · rw [apply_relay_ne hy] at hp
      exact h.expected y p hp
  datagrams := by
    intro d hd
    rcases List.mem_append.mp hd with hd | hd
    · exact (h.datagrams d hd).mono (settled_apply he.parent)
    · unfold Datagram.Known
      split
      next hh =>
        obtain ⟨hdone,hid,haddr⟩ := he.checks d hd hh
        have hx : x ∈ (n.apply x e).settled := by simpa [settled, apply_relay_self] using hdone
        rw [hid, haddr]
        exact ⟨hx,hx⟩
      next hh => exact settled_apply he.parent (he.rejects d hd hh)
      · trivial
  tasks := by
    intro t ht
    rcases List.mem_append.mp ht with ht | ht
    · exact (h.tasks t ht).mono (settled_apply he.parent)
    · obtain ⟨t',ht',rfl⟩ := List.mem_map.mp ht
      exact (he.tasks t' ht').mono (settled_apply he.parent)

theorem Sound.resumeTask {n : Network ι} (h : n.Sound) (x : ι) (ok : Bool) {t : Task ι}
    (ht : t.Known n.settled) : (n.resumeTask x ok t).Sound := by
  cases t with
  | awaitParent senderId rounds =>
    exact h.apply (Relay.resumeAwaitParent_sound senderId rounds (h.expected x))
  | connect peerId =>
    rw [Network.resumeTask]
    split
    · refine ⟨h.forest,h.expected,h.datagrams,fun t ht => ?_⟩
      rcases List.mem_append.mp ht with ht | ht
      · exact h.tasks t ht
      · rw [List.mem_singleton.mp ht]
        trivial
    · exact h
  | handshake peerId stream =>
    rw [Network.resumeTask]
    split
    · exact h.apply (Relay.sound_of_same rfl rfl (h.expected x))
    · exact h
  | confirm peerId stream =>
    rw [Network.resumeTask]
    split
    · refine (h.apply
        (Relay.setResult_sound (some peerId) (fun p hp => ?_) (h.expected x))).confirm stream
      cases hp
      exact ht
    · exact h.setPhase stream _

theorem Sound.step {n : Network ι} (h : n.Sound) (root : ι) (e : Event ι) : (n.step root e).Sound := by
  cases e with
  | updateState x addresses => exact h.apply (Relay.gossipUpdateState_sound addresses (h.expected x))
  | startRoot => exact h.apply (Relay.setResult_sound none (by simp) (h.expected root))
  | triggerSpanningFormation =>
    rw [Network.step]
    split
    next hd => exact h.apply (Relay.forwardTreeCheckPacket_sound root hd (h.expected root))
    · exact h
  | deliver k known =>
    rw [Network.step]
    split
    · exact h
    next d hd =>
      exact h.apply (Relay.datagramReceived_sound (h.datagrams d (List.mem_of_getElem? hd)) known id
        (h.expected d.target))
  | resume k ok =>
    rw [Network.step]
    split
    · exact h
    next x t ht =>
      have hn : Sound { n with tasks := n.tasks.eraseIdx k } :=
        ⟨h.forest,h.expected,h.datagrams,fun t ht => h.tasks t (List.mem_of_mem_eraseIdx ht)⟩
      exact hn.resumeTask x ok (h.tasks _ (List.mem_of_getElem? ht))
  | accept k =>
    rw [Network.step]
    split
    next source target hs =>
      exact (h.apply (Relay.gossipAddStreamLink_sound source k (h.expected target))).setPhase _ _
    · exact h
  | linkOk k => exact h.confirm k
  | requestDowngrade x p =>
    refine ⟨h.forest,h.expected,fun d hd => ?_,h.tasks⟩
    rcases List.mem_append.mp hd with hd | hd
    · exact h.datagrams d hd
    · rw [List.mem_singleton.mp hd]
      trivial
  | lag x p => exact h.apply (Relay.sound_of_same rfl rfl (h.expected x))
  | cancel x => exact h.apply (Relay.cancelParent_sound (h.expected x))

theorem Sound.run {n : Network ι} (h : n.Sound) (root : ι) (events : List (Event ι)) :
    (n.run root events).Sound := by
  induction events generalizing n with
  | nil => exact h
  | cons e events ih => exact ih (h.step root e)

/-- In every state that any interleaving of the relays' steps reaches, the parents have no cycle. -/
theorem parents_acyclic (root : ι) (fanout : ι → ℤ) (events : List (Event ι)) :
    Acyclic ((init fanout).run root events).parentOf := by
  obtain ⟨F,_,hF⟩ := ((sound_init fanout).run root events).forest
  have he : ((init fanout).run root events).parentOf = fun x p => F.parent x = some p := by
    funext x p
    exact propext (hF x p).symm
  rw [he]
  exact F.acyclic

/-- Relay 1 gets relay 0, the root, for its parent. -/
example : ((init (fun _ : ℕ => 1)).run 0
    [.updateState 0 [1],.updateState 1 [0],.startRoot,.triggerSpanningFormation,.deliver 0 true,
      .deliver 1 true,.resume 1 true,.accept 0,.linkOk 0,.resume 2 true]).parentOf 1 0 := rfl

end Network
end PeerConnect.PalmTree
