import PeerConnect.PalmTree.LinkTables
import PeerConnect.PalmTree.Network
import Mathlib.Data.List.Perm.Subperm

/-! Who is invited into the tree. A relay takes for its parent only a neighbour that has sent it a tree
check, and a tree check is sent to a neighbour once, as long as no link is given up. -/
namespace PeerConnect.PalmTree
open Library

variable {ι : Type}

/-- The tree check of a relay for a peer. -/
def invitation (p x : ι) : Datagram ι := ⟨p,x,.gossipTreeCheck,p⟩

/-- What a handler does, given who has sent the relay a tree check: it expects only those of its neighbours,
answers only whom it expects, and sends tree checks to neighbours. -/
structure Effect.Invites (asked : Set ι) (this : ι) (r : Relay ι) (e : Effect ι) : Prop where
  links : r.allLinks ⊆ e.relay.allLinks
  nodup : r.allLinks.Nodup → e.relay.allLinks.Nodup
  kept : r.expectedParentPeers ⊆ e.relay.expectedParentPeers
  expected : ∀ p ∈ e.relay.expectedParentPeers,
    p ∈ r.expectedParentPeers ∨ p ∈ asked ∧ p ∈ e.relay.allLinks
  parent : ∀ p, e.relay.parentLinkFut = .resolved (some p) →
    r.parentLinkFut = .resolved (some p) ∨ p ∈ e.relay.expectedParentPeers
  checks : ∀ d ∈ e.send, d.header = .gossipTreeCheck →
    d = invitation this d.target ∧ d.target ∈ e.relay.allLinks
  tasks : ∀ p k, .confirm p k ∈ e.tasks → p ∈ e.relay.expectedParentPeers

namespace Relay
variable {asked : Set ι} {this : ι} {r r' : Relay ι}

/-- A handler that leaves the neighbours, the future and the expected peers as they are, and sends nothing. -/
theorem invites_of_same (hlinks : r'.allLinks = r.allLinks)
    (hexpected : r'.expectedParentPeers = r.expectedParentPeers)
    (hparent : ∀ p, r'.parentLinkFut = .resolved (some p) → r.parentLinkFut = .resolved (some p)) :
    Effect.Invites asked this r { relay := r' } where
  links := by rw [hlinks]; exact List.Subset.refl _
  nodup := by rw [hlinks]; exact id
  kept := by rw [hexpected]
  expected p hp := .inl (hexpected ▸ hp)
  parent p hp := .inl (hparent p hp)
  checks := by simp
  tasks := by simp

theorem resolved_of_cancelParent {p : ι} (h : r.cancelParent.parentLinkFut = .resolved (some p)) :
    r.parentLinkFut = .resolved (some p) := by
  unfold cancelParent at h
  split at h
  · cases h
  · exact h

theorem cancelParent_invites : Effect.Invites asked this r { relay := r.cancelParent } := by
  refine invites_of_same ?_ ?_ fun p hp => resolved_of_cancelParent hp
  · unfold cancelParent
    split <;> rfl
  · unfold cancelParent
    split <;> rfl

theorem setResult_invites (link : Option ι) (hlink : ∀ p, link = some p → p ∈ r.expectedParentPeers) :
    Effect.Invites asked this r { relay := r.setResult link } := by
  unfold setResult
  split
  · exact ⟨List.Subset.refl _,id,Finset.Subset.refl _,fun _ => .inl,fun p hp => by
      cases hp
      exact .inr (hlink p rfl),by simp,by simp⟩
  · exact invites_of_same rfl rfl fun _ => id

variable [DecidableEq ι]

theorem forwardTreeCheckPacket_invites (senderId : ι) :
    Effect.Invites asked this r (r.forwardTreeCheckPacket this senderId) where
  links := List.Subset.refl _
  nodup := id
  kept := Finset.Subset.refl _
  expected _ := .inl
  parent _ := .inl
  checks d hd _ := by
    obtain ⟨p,hp,rfl⟩ := List.mem_map.mp hd
    exact ⟨rfl,mem_of_mem_sliceInt (List.mem_of_mem_filter hp)⟩
  tasks := by simp [forwardTreeCheckPacket]

theorem finishTreeCheck_invites (senderId : ι) :
    Effect.Invites asked this r (r.finishTreeCheck this senderId) :=
  { forwardTreeCheckPacket_invites senderId with }

theorem sendUpgradePacket_invites (senderId : ι) (rounds : ℕ) :
    Effect.Invites asked this r (sendUpgradePacket this senderId rounds r) := by
  cases rounds with
  | zero => exact invites_of_same rfl rfl fun _ => id
  | succ rounds =>
    rw [sendUpgradePacket]
    split
    · exact finishTreeCheck_invites senderId
    · exact ⟨List.Subset.refl _,id,Finset.Subset.refl _,fun _ => .inl,fun _ => .inl,by simp,by simp⟩

/-- The sender of a tree check is expected if it is a neighbour. -/
theorem gossipTreeCheck_invites {id : ι} (addr : ι) (known : Bool) (hid : id ∈ asked) :
    Effect.Invites asked this r (r.gossipTreeCheck this id addr known) := by
  unfold gossipTreeCheck
  split
  · exact invites_of_same rfl rfl fun _ h => h
  split
  · exact ⟨List.Subset.refl _,fun h => h,Finset.Subset.refl _,fun _ => .inl,fun _ => .inl,by simp,by simp⟩
  next hreject =>
    have hlinks : id ∈ r.allLinks := (rejectReason_nil (not_not.mp hreject)).1
    have h : Effect.Invites asked this { r with
        expectedParentPeers := insert id r.expectedParentPeers
        activeLinks := insert id r.activeLinks } _ := sendUpgradePacket_invites id maxRetries
    refine ⟨h.links,h.nodup,(Finset.subset_insert _ _).trans h.kept,fun p hp => ?_,h.parent,h.checks,h.tasks⟩
    obtain hp | hp := h.expected p hp
    · obtain rfl | hp := Finset.mem_insert.mp hp
      · exact .inr ⟨hid,h.links hlinks⟩
      · exact .inl hp
    · exact .inr hp

theorem resumeAwaitParent_invites (senderId : ι) (rounds : ℕ) :
    Effect.Invites asked this r (r.resumeAwaitParent this senderId rounds) := by
  unfold resumeAwaitParent
  split
  · have h : Effect.Invites asked this (r.setLink senderId fun l => { l with direction := .incoming }) _ :=
      finishTreeCheck_invites senderId
    exact { h with }
  · exact invites_of_same rfl rfl fun _ => id
  · have hcancel : Effect.Invites asked this r { relay := r.cancelParent } := cancelParent_invites
    have h : Effect.Invites asked this r.cancelParent _ := sendUpgradePacket_invites senderId rounds
    have hkept : r.cancelParent.expectedParentPeers = r.expectedParentPeers := by
      unfold cancelParent
      split <;> rfl
    refine ⟨List.Subset.trans hcancel.links h.links,h.nodup ∘ hcancel.nodup,hcancel.kept.trans h.kept,fun p hp => ?_,
      fun p hp => (h.parent p hp).imp_left resolved_of_cancelParent,h.checks,h.tasks⟩
    exact (h.expected p hp).imp_left fun hp => hkept ▸ hp

theorem gossipTreeReject_invites (id : ι) :
    Effect.Invites asked this r (r.gossipTreeReject this id) := by
  unfold gossipTreeReject
  split
  · exact invites_of_same rfl rfl fun _ h => h
  split
  · exact invites_of_same rfl rfl fun _ h => h
  · exact forwardTreeCheckPacket_invites id

theorem gossipUpgradeConnection_invites (id : ι) :
    Effect.Invites asked this r (r.gossipUpgradeConnection id) := by
  unfold gossipUpgradeConnection
  split
  · exact invites_of_same rfl rfl fun _ h => h
  split
  · exact invites_of_same rfl rfl fun _ h => h
  · exact ⟨List.Subset.refl _,fun h => h,Finset.Subset.refl _,fun _ => .inl,fun _ => .inl,by simp,by simp⟩

theorem gossipDowngradeConnection_invites (id : ι) :
    Effect.Invites asked this r { relay := r.gossipDowngradeConnection id } := by
  unfold gossipDowngradeConnection
  split <;> exact invites_of_same rfl rfl fun _ h => h

theorem gossipAddStreamLink_invites (id : ι) (stream : ℕ) :
    Effect.Invites asked this r (r.gossipAddStreamLink id stream).1 := by
  unfold gossipAddStreamLink
  split
  · exact invites_of_same rfl rfl fun _ h => h
  split
  · exact invites_of_same rfl rfl fun _ h => h
  split
  · exact invites_of_same rfl rfl fun _ h => h
  split
  next hx =>
    refine ⟨List.Subset.refl _,fun h => h,Finset.Subset.refl _,fun _ => .inl,fun _ => .inl,by simp,?_⟩
    intro p k hp
    cases List.mem_singleton.mp hp
    exact hx
  · exact invites_of_same rfl rfl fun _ h => h

theorem gossipUpdateState_invites (addresses : List ι) :
    Effect.Invites asked this r { relay := r.gossipUpdateState addresses } := by
  unfold gossipUpdateState
  split
  · exact invites_of_same rfl rfl fun _ h => h
  · exact ⟨fun p hp => Search.mem_insertKeys.mpr (.inl hp),fun h => Search.nodup_insertKeys h addresses,
      Finset.Subset.refl _,fun _ => .inl,fun _ => .inl,by simp,by simp⟩

theorem datagramReceived_invites {d : Datagram ι} (hd : d.header = .gossipTreeCheck → d.id ∈ asked)
    (known : Bool) : Effect.Invites asked d.target r (r.datagramReceived d known) := by
  obtain ⟨addr,target,header,id⟩ := d
  cases header with
  | gossipTreeCheck => exact gossipTreeCheck_invites addr known (hd rfl)
  | gossipTreeReject => exact gossipTreeReject_invites id
  | gossipUpgradeConn => exact gossipUpgradeConnection_invites id
  | gossipDowngradeConn => exact gossipDowngradeConnection_invites id

end Relay

/-- Every tree check that a handler sends goes to a peer without an active link, which it gets so. -/
structure Effect.Spares (this : ι) (r : Relay ι) [DecidableEq ι] (e : Effect ι) : Prop where
  once : ∀ p, e.send.count (invitation this p)+(if p ∈ r.activeLinks then 1 else 0) ≤
    if p ∈ e.relay.activeLinks then 1 else 0
  own : ∀ d ∈ e.send, d.header = .gossipTreeCheck → d.addr = this
  downgrades : ∀ d ∈ e.send, d.header ≠ .gossipDowngradeConn

namespace Relay
variable {this : ι} {r r' : Relay ι} [DecidableEq ι]

/-- A handler that sends no tree check and gives up no link. -/
theorem spares_of_silent {e : Effect ι} (hactive : r.activeLinks ⊆ e.relay.activeLinks)
    (h : ∀ d ∈ e.send, d.header ≠ .gossipTreeCheck ∧ d.header ≠ .gossipDowngradeConn) : e.Spares this r where
  once p := by
    have hzero : e.send.count (invitation this p) = 0 :=
      List.count_eq_zero.mpr fun hp => (h _ hp).1 rfl
    rw [hzero, Nat.zero_add]
    split
    next hp => rw [if_pos (hactive hp)]
    next => exact Nat.zero_le _
  own d hd hcheck := absurd hcheck (h d hd).1
  downgrades d hd := (h d hd).2

theorem spares_mono {e : Effect ι} (h : e.Spares this r') (hactive : r.activeLinks ⊆ r'.activeLinks) :
    e.Spares this r where
  once p := by
    refine le_trans (Nat.add_le_add_left ?_ _) (h.once p)
    split
    next hp => rw [if_pos (hactive hp)]
    next => exact Nat.zero_le _
  own := h.own
  downgrades := h.downgrades

/-- The peers of a window are sent one tree check each. -/
theorem forwardTreeCheckPacket_spares (senderId : ι) (hnodup : r.allLinks.Nodup) :
    (r.forwardTreeCheckPacket this senderId).Spares this r where
  once p := by
    unfold forwardTreeCheckPacket
    dsimp only
    set window := (sliceInt r.allLinks _ _).filter fun p => p ≠ senderId ∧ p ∉ r.activeLinks with hw
    have hwindow : window.Nodup := by
      rw [hw]
      exact (hnodup.sublist ((List.take_sublist _ _).trans (List.drop_sublist _ _))).filter _
    have hinjective : Function.Injective fun p => (⟨this,p,.gossipTreeCheck,this⟩ : Datagram ι) := by
      intro a b hab
      exact congrArg Datagram.target hab
    have hcount : (window.map fun p => (⟨this,p,.gossipTreeCheck,this⟩ : Datagram ι)).count
        (invitation this p) = window.count p := List.count_map_of_injective window _ hinjective p
    rw [hcount]
    by_cases hp : p ∈ window
    · have hnew : p ∉ r.activeLinks := by
        have := List.of_mem_filter hp
        simp only [decide_eq_true_eq] at this
        exact this.2
      rw [if_neg hnew, if_pos (Finset.mem_union_right _ (List.mem_toFinset.mpr hp))]
      exact List.nodup_iff_count_le_one.mp hwindow p
    · rw [List.count_eq_zero.mpr hp, Nat.zero_add]
      split
      next hold => rw [if_pos (Finset.mem_union_left _ hold)]
      next => exact Nat.zero_le _
  own d hd _ := by
    obtain ⟨p,-,rfl⟩ := List.mem_map.mp hd
    rfl
  downgrades d hd := by
    obtain ⟨p,-,rfl⟩ := List.mem_map.mp hd
    simp

theorem sendUpgradePacket_spares (senderId : ι) (rounds : ℕ) (hnodup : r.allLinks.Nodup) :
    (sendUpgradePacket this senderId rounds r).Spares this r := by
  cases rounds with
  | zero => exact spares_of_silent (Finset.Subset.refl _) (by simp [sendUpgradePacket])
  | succ rounds =>
    rw [sendUpgradePacket]
    split
    · exact { forwardTreeCheckPacket_spares senderId hnodup with }
    · exact spares_of_silent (Finset.Subset.refl _) (by simp)

theorem gossipTreeCheck_spares (id addr : ι) (known : Bool) (hnodup : r.allLinks.Nodup) :
    (r.gossipTreeCheck this id addr known).Spares this r := by
  unfold gossipTreeCheck
  split
  · exact spares_of_silent (Finset.Subset.refl _) (by simp)
  split
  · exact spares_of_silent (Finset.Subset.refl _) (by simp)
  · have h : Effect.Spares this { r with
        expectedParentPeers := insert id r.expectedParentPeers
        activeLinks := insert id r.activeLinks } _ := sendUpgradePacket_spares id maxRetries hnodup
    exact spares_mono h (Finset.subset_insert _ _)

theorem resumeAwaitParent_spares (senderId : ι) (rounds : ℕ) (hnodup : r.allLinks.Nodup) :
    (r.resumeAwaitParent this senderId rounds).Spares this r := by
  unfold resumeAwaitParent
  split
  · have h : Effect.Spares this (r.setLink senderId fun l => { l with direction := .incoming }) _ :=
      forwardTreeCheckPacket_spares senderId hnodup
    exact { h with }
  · exact spares_of_silent (Finset.Subset.refl _) (by simp)
  · have hsame : r.cancelParent.allLinks = r.allLinks ∧ r.cancelParent.activeLinks = r.activeLinks := by
      unfold cancelParent
      split <;> exact ⟨rfl,rfl⟩
    have h : (sendUpgradePacket this senderId rounds r.cancelParent).Spares this r.cancelParent :=
      sendUpgradePacket_spares senderId rounds (hsame.1 ▸ hnodup)
    exact spares_mono h (by rw [hsame.2])

theorem gossipTreeReject_spares (id : ι) (hnodup : r.allLinks.Nodup) :
    (r.gossipTreeReject this id).Spares this r := by
  unfold gossipTreeReject
  split
  · exact spares_of_silent (Finset.Subset.refl _) (by simp)
  split
  · exact spares_of_silent (Finset.Subset.refl _) (by simp)
  · exact forwardTreeCheckPacket_spares id hnodup

/-- Only a request for a downgrade gives up a link. -/
theorem datagramReceived_spares {d : Datagram ι} (hd : d.header ≠ .gossipDowngradeConn) (known : Bool)
    (hnodup : r.allLinks.Nodup) : (r.datagramReceived d known).Spares d.target r := by
  obtain ⟨addr,target,header,id⟩ := d
  cases header with
  | gossipTreeCheck => exact gossipTreeCheck_spares id addr known hnodup
  | gossipTreeReject => exact gossipTreeReject_spares id hnodup
  | gossipUpgradeConn =>
    refine spares_of_silent ?_ ?_
    · simp only [datagramReceived, gossipUpgradeConnection]
      split
      · exact Finset.Subset.refl _
      · split <;> exact Finset.Subset.refl _
    · simp only [datagramReceived, gossipUpgradeConnection]
      split
      · simp
      · split <;> simp
  | gossipDowngradeConn => exact absurd rfl hd

theorem gossipAddStreamLink_spares (id : ι) (stream : ℕ) :
    (r.gossipAddStreamLink id stream).1.Spares this r := by
  refine spares_of_silent ?_ ?_ <;> unfold gossipAddStreamLink
  · split
    · exact Finset.Subset.refl _
    split
    · exact Finset.Subset.refl _
    split
    · exact Finset.Subset.refl _
    split <;> exact Finset.Subset.refl _
  · split
    · simp
    split
    · simp
    split
    · simp
    split <;> simp

end Relay

namespace Network

/-- Who has sent a relay a tree check. -/
def asked (n : Network ι) (x : ι) : Set ι := {p | invitation p x ∈ n.datagrams}

structure Invited (n : Network ι) : Prop where
  nodup : ∀ x, (n.relay x).allLinks.Nodup
  expected : ∀ x, ∀ p ∈ (n.relay x).expectedParentPeers, p ∈ n.asked x ∧ p ∈ (n.relay x).allLinks
  parent : ∀ x p, n.parentOf x p → p ∈ (n.relay x).expectedParentPeers
  checks : ∀ d ∈ n.datagrams, d.header = .gossipTreeCheck →
    d = invitation d.addr d.target ∧ d.target ∈ (n.relay d.addr).allLinks
  tasks : ∀ x p k, (x,.confirm p k) ∈ n.tasks → p ∈ (n.relay x).expectedParentPeers

theorem invited_init (fanout : ι → ℤ) : (init fanout).Invited := by
  refine ⟨?_,?_,?_,?_,?_⟩ <;> simp [init, parentOf]

/-- The phases of the streams have no part in it. -/
theorem Invited.setPhase {n : Network ι} (h : n.Invited) (k : ℕ) (phase : StreamPhase) :
    (n.setPhase k phase).Invited := ⟨h.nodup,h.expected,h.parent,h.checks,h.tasks⟩

theorem Invited.confirm {n : Network ι} (h : n.Invited) (k : ℕ) : (n.confirm k).Invited := by
  unfold Network.confirm
  split
  · exact h.setPhase k _
  · exact h

variable [DecidableEq ι]

theorem Invited.apply {n : Network ι} (h : n.Invited) {x : ι} {e : Effect ι}
    (he : e.Invites (n.asked x) x (n.relay x)) : (n.apply x e).Invited := by
  have hasked : ∀ y, n.asked y ⊆ (n.apply x e).asked y := fun y p hp => List.mem_append_left _ hp
  have hkept : ∀ y, (n.relay y).expectedParentPeers ⊆ ((n.apply x e).relay y).expectedParentPeers := by
    intro y
    by_cases hy : y = x
    · subst hy
      rw [apply_relay_self]
      exact he.kept
    · rw [apply_relay_ne hy]
  have hlinks : ∀ y, (n.relay y).allLinks ⊆ ((n.apply x e).relay y).allLinks := by
    intro y
    by_cases hy : y = x
    · subst hy
      rw [apply_relay_self]
      exact he.links
    · rw [apply_relay_ne hy]
      exact List.Subset.refl _
  constructor
  · intro y
    by_cases hy : y = x
    · subst hy
      rw [apply_relay_self]
      exact he.nodup (h.nodup y)
    · rw [apply_relay_ne hy]
      exact h.nodup y
  · intro y p hp
    have hold : ∀ p ∈ (n.relay y).expectedParentPeers,
        p ∈ (n.apply x e).asked y ∧ p ∈ ((n.apply x e).relay y).allLinks := fun p hp =>
      ⟨hasked y (h.expected y p hp).1,hlinks y (h.expected y p hp).2⟩
    by_cases hy : y = x
    · subst hy
      rw [apply_relay_self] at hp
      obtain hp | ⟨hp,hlink⟩ := he.expected p hp
      · exact hold p hp
      · rw [apply_relay_self]
        exact ⟨hasked y hp,hlink⟩
    · rw [apply_relay_ne hy] at hp
      exact hold p hp
  · intro y p hp
    unfold parentOf at hp
    by_cases hy : y = x
    · subst hy
      rw [apply_relay_self] at hp ⊢
      obtain hp | hp := he.parent p hp
      · exact he.kept (h.parent y p hp)
      · exact hp
    · rw [apply_relay_ne hy] at hp ⊢
      exact h.parent y p hp
  · intro d hd hcheck
    obtain hd | hd := List.mem_append.mp hd
    · obtain ⟨heq,hlink⟩ := h.checks d hd hcheck
      exact ⟨heq,hlinks _ hlink⟩
    · obtain ⟨heq,hlink⟩ := he.checks d hd hcheck
      have haddr : d.addr = x := by rw [heq]; rfl
      rw [haddr, apply_relay_self]
      exact ⟨heq,hlink⟩
  · intro y p k ht
    obtain ht | ht := List.mem_append.mp ht
    · exact hkept y (h.tasks y p k ht)
    · obtain ⟨t,ht,heq⟩ := List.mem_map.mp ht
      cases heq
      rw [apply_relay_self]
      exact he.tasks p k ht

theorem Invited.resumeTask {n : Network ι} (h : n.Invited) (x : ι) (ok : Bool) {t : Task ι}
    (ht : ∀ p k, t = .confirm p k → p ∈ (n.relay x).expectedParentPeers) : (n.resumeTask x ok t).Invited := by
  cases t with
  | awaitParent senderId rounds => exact h.apply (Relay.resumeAwaitParent_invites senderId rounds)
  | connect peerId =>
    rw [Network.resumeTask]
    split
    · refine ⟨h.nodup,h.expected,h.parent,h.checks,fun y p k hy => ?_⟩
      obtain hy | hy := List.mem_append.mp hy
      · exact h.tasks y p k hy
      · cases List.mem_singleton.mp hy
    · exact h
  | handshake peerId stream =>
    rw [Network.resumeTask]
    split
    · exact h.apply (Relay.invites_of_same rfl rfl fun _ hp => hp)
    · exact h
  | confirm peerId stream =>
    rw [Network.resumeTask]
    split
    · refine (h.apply (Relay.setResult_invites (some peerId) fun p hp => ?_)).confirm stream
      cases hp
      exact ht peerId stream rfl
    · exact h.setPhase stream _

theorem Invited.step {n : Network ι} (h : n.Invited) (root : ι) (e : Event ι) : (n.step root e).Invited := by
  cases e with
  | updateState x addresses => exact h.apply (Relay.gossipUpdateState_invites addresses)
  | startRoot => exact h.apply (Relay.setResult_invites none (by simp))
  | triggerSpanningFormation =>
    rw [Network.step]
    split
    · exact h.apply (Relay.forwardTreeCheckPacket_invites root)
    · exact h
  | deliver k known =>
    rw [Network.step]
    split
    · exact h
    next d hd =>
      refine h.apply (Relay.datagramReceived_invites (fun hcheck => ?_) known)
      have hmem := List.mem_of_getElem? hd
      have heq := (h.checks d hmem hcheck).1
      have hid : d.id = d.addr := by rw [heq]; rfl
      rw [hid]
      change invitation d.addr d.target ∈ n.datagrams
      rwa [← heq]
  | resume k ok =>
    rw [Network.step]
    split
    · exact h
    next x t ht =>
      have hn : Invited { n with tasks := n.tasks.eraseIdx k } :=
        ⟨h.nodup,h.expected,h.parent,h.checks,fun y p j hy => h.tasks y p j (List.mem_of_mem_eraseIdx hy)⟩
      refine hn.resumeTask x ok fun p j heq => ?_
      subst heq
      exact h.tasks x p j (List.mem_of_getElem? ht)
  | accept k =>
    rw [Network.step]
    split
    next source target hs =>
      have he : Effect.Invites (n.asked target) target (n.relay target) _ :=
        Relay.gossipAddStreamLink_invites source k
      exact (h.apply he).setPhase _ _
    · exact h
  | linkOk k => exact h.confirm k
  | requestDowngrade x p =>
    refine ⟨h.nodup,fun y q hq => ?_,h.parent,fun d hd hcheck => ?_,h.tasks⟩
    · obtain ⟨hasked,hlink⟩ := h.expected y q hq
      exact ⟨List.mem_append_left _ hasked,hlink⟩
    · obtain hd | hd := List.mem_append.mp hd
      · exact h.checks d hd hcheck
      · rw [List.mem_singleton.mp hd] at hcheck
        cases hcheck
  | lag x p => exact h.apply (Relay.invites_of_same rfl rfl fun _ hp => hp)
  | cancel x => exact h.apply Relay.cancelParent_invites

theorem invited_run (root : ι) (fanout : ι → ℤ) (events : List (Event ι)) :
    ((init fanout).run root events).Invited := by
  induction events using List.reverseRecOn with
  | nil => exact invited_init fanout
  | append_singleton events e ih =>
    rw [run, List.foldl_append]
    exact ih.step root e

/-- A tree check has been sent to a peer once if its link is active, and else not at all. -/
structure Once (n : Network ι) : Prop where
  once : ∀ p x, n.datagrams.count (invitation p x) ≤ if x ∈ (n.relay p).activeLinks then 1 else 0
  downgrades : ∀ d ∈ n.datagrams, d.header ≠ .gossipDowngradeConn

theorem Once.apply {n : Network ι} (h : n.Once) {x : ι} {e : Effect ι} (he : e.Spares x (n.relay x)) :
    (n.apply x e).Once where
  once p y := by
    change (n.datagrams ++ e.send).count (invitation p y) ≤ _
    rw [List.count_append]
    have hold := h.once p y
    by_cases hp : p = x
    · subst hp
      rw [apply_relay_self]
      have hnew := he.once y
      omega
    · have hzero : e.send.count (invitation p y) = 0 :=
        List.count_eq_zero.mpr fun hmem => hp (he.own _ hmem rfl)
      rw [hzero, apply_relay_ne hp]
      exact hold
  downgrades d hd := (List.mem_append.mp hd).elim (h.downgrades d) (he.downgrades d)

theorem Once.setPhase {n : Network ι} (h : n.Once) (k : ℕ) (phase : StreamPhase) :
    (n.setPhase k phase).Once := ⟨h.once,h.downgrades⟩

theorem Once.confirm {n : Network ι} (h : n.Once) (k : ℕ) : (n.confirm k).Once := by
  unfold Network.confirm
  split
  · exact h.setPhase k _
  · exact h

/-- A handler that leaves the active links as they are and sends nothing. -/
theorem Once.silent {n : Network ι} (h : n.Once) {x : ι} {r : Relay ι}
    (hactive : r.activeLinks = (n.relay x).activeLinks) : (n.apply x { relay := r }).Once :=
  h.apply (Relay.spares_of_silent (by rw [hactive]) (by simp))

theorem Once.step {n : Network ι} (h : n.Once) (hi : n.Invited) (root : ι) {e : Event ι}
    (he : ∀ x p, e ≠ .requestDowngrade x p) : (n.step root e).Once := by
  cases e with
  | updateState x addresses =>
    refine h.silent ?_
    unfold Relay.gossipUpdateState
    split <;> rfl
  | startRoot =>
    refine h.silent ?_
    unfold Relay.setResult
    split <;> rfl
  | triggerSpanningFormation =>
    rw [Network.step]
    split
    · exact h.apply (Relay.forwardTreeCheckPacket_spares root (hi.nodup root))
    · exact h
  | deliver k known =>
    rw [Network.step]
    split
    · exact h
    next d hd =>
      exact h.apply (Relay.datagramReceived_spares (h.downgrades d (List.mem_of_getElem? hd)) known
        (hi.nodup d.target))
  | resume k ok =>
    rw [Network.step]
    split
    · exact h
    next x t ht =>
      have hn : Once { n with tasks := n.tasks.eraseIdx k } := ⟨h.once,h.downgrades⟩
      cases t with
      | awaitParent senderId rounds => exact hn.apply (Relay.resumeAwaitParent_spares senderId rounds (hi.nodup x))
      | connect peerId =>
        rw [Network.resumeTask]
        split
        · exact ⟨h.once,h.downgrades⟩
        · exact hn
      | handshake peerId stream =>
        rw [Network.resumeTask]
        split
        · exact hn.silent rfl
        · exact hn
      | confirm peerId stream =>
        rw [Network.resumeTask]
        split
        · refine (hn.silent ?_).confirm stream
          unfold Relay.setResult
          split <;> rfl
        · exact hn.setPhase stream _
  | accept k =>
    rw [Network.step]
    split
    next source target hs =>
      have he : Effect.Spares target (n.relay target) _ := Relay.gossipAddStreamLink_spares source k
      exact (h.apply he).setPhase _ _
    · exact h
  | linkOk k => exact h.confirm k
  | requestDowngrade x p => exact absurd rfl (he x p)
  | lag x p => exact h.silent rfl
  | cancel x =>
    refine h.silent ?_
    unfold Relay.cancelParent
    split <;> rfl

theorem once_run (root : ι) (fanout : ι → ℤ) {events : List (Event ι)}
    (h : ∀ x p, .requestDowngrade x p ∉ events) : ((init fanout).run root events).Once := by
  induction events using List.reverseRecOn with
  | nil => exact ⟨by simp [run, init],by simp [run, init]⟩
  | append_singleton events e ih =>
    have hrest := ih fun x p hmem => h x p (List.mem_append_left _ hmem)
    rw [run, List.foldl_append]
    refine hrest.step (invited_run root fanout events) root fun x p he => ?_
    subst he
    exact h x p (List.mem_append_right _ (List.mem_singleton_self _))

/-- In every run the parent of a relay is a neighbour that has sent it a tree check, as to a neighbour of
its own. While nobody asks for a link to be given up, no relay sends another one more than one tree check, and
none sends more of them than it has neighbours. -/
theorem parents_invited (root : ι) (fanout : ι → ℤ) (events : List (Event ι)) :
    let n := (init fanout).run root events
    (∀ x p, n.parentOf x p →
      invitation p x ∈ n.datagrams ∧ p ∈ (n.relay x).allLinks ∧ x ∈ (n.relay p).allLinks) ∧
    ((∀ x p, .requestDowngrade x p ∉ events) →
      (∀ p x, n.datagrams.count (invitation p x) ≤ 1) ∧
      ∀ p, n.datagrams.countP (fun d => d.header = .gossipTreeCheck ∧ d.addr = p) ≤
        (n.relay p).allLinks.length) := by
  intro n
  have hi : n.Invited := invited_run root fanout events
  refine ⟨fun x p hp => ?_,fun h => ?_⟩
  · obtain ⟨hasked,hlink⟩ := hi.expected x p (hi.parent x p hp)
    exact ⟨hasked,hlink,(hi.checks _ hasked rfl).2⟩
  · have hcount : ∀ p x, n.datagrams.count (invitation p x) ≤ 1 := by
      intro p x
      refine ((once_run root fanout h).once p x).trans ?_
      split
      · exact le_rfl
      · exact Nat.zero_le 1
    refine ⟨hcount,fun p => ?_⟩
    set sent := n.datagrams.filter fun d => d.header = .gossipTreeCheck ∧ d.addr = p with hsent
    have hof : ∀ d ∈ sent, d = invitation p d.target ∧ d.target ∈ (n.relay p).allLinks := by
      intro d hmem
      obtain ⟨hd,hboth⟩ := List.mem_filter.mp hmem
      obtain ⟨hcheck,haddr⟩ := of_decide_eq_true hboth
      have hof := hi.checks d hd hcheck
      rwa [haddr] at hof
    have hnodup : sent.Nodup := by
      refine List.nodup_iff_count_le_one.mpr fun d => ?_
      by_cases hd : d ∈ sent
      · rw [(hof d hd).1]
        exact (List.filter_sublist.count_le _).trans (hcount p d.target)
      · rw [List.count_eq_zero.mpr hd]
        exact Nat.zero_le 1
    have hsub : sent ⊆ (n.relay p).allLinks.map (invitation p) := fun d hd =>
      List.mem_map.mpr ⟨d.target,(hof d hd).2,(hof d hd).1.symm⟩
    rw [List.countP_eq_length_filter, ← hsent]
    exact (hnodup.subperm hsub).length_le.trans (List.length_map _).le

end Network
end PeerConnect.PalmTree
