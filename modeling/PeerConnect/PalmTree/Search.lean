import PeerConnect.PalmTree.Relay

/-! The search of a relay for children: whom it sends tree checks, window by window of its neighbours, and
who rejects them. -/
namespace PeerConnect.PalmTree
open Library

variable {ι : Type} {r : Relay ι}

/-- Whom a handler sends a tree check. -/
def Effect.checks (e : Effect ι) : List ι :=
  (e.send.filter fun d => d.header = .gossipTreeCheck).map Datagram.target

/-- The handler keeps the neighbours, the fanout and a parent link, and sends tree checks to neighbours
only. -/
structure Local (r : Relay ι) (e : Effect ι) : Prop where
  allLinks : e.relay.allLinks = r.allLinks
  fanout : e.relay.fanout = r.fanout
  checks : ∀ p ∈ e.checks, p ∈ r.allLinks
  parent : ∀ link, r.parentLinkFut = .resolved link → e.relay.parentLinkFut = .resolved link

theorem Local.of_eq {r' : Relay ι} {e : Effect ι} (h : Local r' e) (hall : r'.allLinks = r.allLinks)
    (hfanout : r'.fanout = r.fanout)
    (hparent : ∀ link, r.parentLinkFut = .resolved link → r'.parentLinkFut = .resolved link) : Local r e where
  allLinks := h.allLinks.trans hall
  fanout := h.fanout.trans hfanout
  checks := fun p hp => hall ▸ h.checks p hp
  parent := fun link hlink => h.parent link (hparent link hlink)

theorem allLinks_cancelParent (r : Relay ι) : r.cancelParent.allLinks = r.allLinks := by
  unfold Relay.cancelParent
  split <;> rfl

theorem fanout_cancelParent (r : Relay ι) : r.cancelParent.fanout = r.fanout := by
  unfold Relay.cancelParent
  split <;> rfl

theorem resolved_cancelParent {link : Option ι} (h : r.parentLinkFut = .resolved link) :
    r.cancelParent.parentLinkFut = .resolved link := by
  simp only [Relay.cancelParent, h]

theorem local_setResult (link : Option ι) (r : Relay ι) : Local r { relay := r.setResult link } := by
  unfold Relay.setResult
  split
  next hpending =>
    refine ⟨rfl,rfl,nofun,fun link' hlink => ?_⟩
    rw [hpending] at hlink
    cases hlink
  next => exact ⟨rfl,rfl,nofun,fun _ h => h⟩

theorem local_cancelParent (r : Relay ι) : Local r { relay := r.cancelParent } :=
  ⟨allLinks_cancelParent r,fanout_cancelParent r,nofun,fun _ h => resolved_cancelParent h⟩

variable [DecidableEq ι]

/-- A relay, with the peers it has sent a tree check and those that have rejected one. -/
structure Search (ι : Type) where
  relay : Relay ι
  checked : Finset ι := ∅
  rejected : Finset ι := ∅

/-- What happens to a relay once its links are initialized. -/
inductive SearchEvent (ι : Type)
  /-- the root's future is resolved -/
  | startRoot
  /-- the root triggers the formation -/
  | trigger
  /-- a datagram arrives, of a peer that is known or is not -/
  | received (d : Datagram ι) (known : Bool)
  /-- a tree check goes on, with the rounds it may still make -/
  | resume (senderId : ι) (rounds : ℕ)
  /-- a peer connects a stream -/
  | stream (id : ι)
  /-- the answer to the stream of a peer has been sent -/
  | answered (id : ι)
  /-- the stream to a child has been connected -/
  | activated (id : ι)
  /-- a child turns out to be slow -/
  | lag (id : ι)
  /-- somebody who waits for the parent link is cancelled -/
  | cancel

namespace Search

/-- The relay as it is told its neighbours. -/
def init (fanout : ℤ) (addresses : List ι) : Search ι where
  relay := Relay.gossipUpdateState addresses { fanout := fanout }

def apply (s : Search ι) (e : Effect ι) : Search ι :=
  { s with relay := e.relay, checked := s.checked ∪ e.checks.toFinset }

def step (this : ι) (s : Search ι) : SearchEvent ι → Search ι
  | .startRoot => s.apply { relay := s.relay.setResult none }
  | .trigger => s.apply (s.relay.forwardTreeCheckPacket this this)
  | .received d known =>
    { s.apply (s.relay.datagramReceived { d with target := this } known) with
      rejected := if d.header = .gossipTreeReject then insert d.id s.rejected else s.rejected }
  | .resume senderId rounds => s.apply (s.relay.resumeAwaitParent this senderId rounds)
  | .stream id => s.apply (s.relay.gossipAddStreamLink id 0).1
  | .answered id => s.apply { relay := s.relay.setResult (some id) }
  | .activated id => s.apply { relay := s.relay.setLink id fun _ => ⟨.online,.outgoing⟩ }
  | .lag id => s.apply { relay := s.relay.setLink id fun l => { l with status := .lagging } }
  | .cancel => s.apply { relay := s.relay.cancelParent }

def run (this : ι) (s : Search ι) (events : List (SearchEvent ι)) : Search ι := events.foldl (step this) s

end Search

section Handlers

theorem checks_forwardTreeCheckPacket (this senderId : ι) (r : Relay ι) :
    (r.forwardTreeCheckPacket this senderId).checks =
      (sliceInt r.allLinks r.treeCheckWindowIndex
        ((r.forwardTreeCheckPacket this senderId).relay.treeCheckWindowIndex+1)).filter
        fun p => p ≠ senderId ∧ p ∉ r.activeLinks := by
  simp [Effect.checks, Relay.forwardTreeCheckPacket, List.filter_map, Function.comp_def]

theorem activeLinks_forwardTreeCheckPacket (this senderId : ι) (r : Relay ι) :
    (r.forwardTreeCheckPacket this senderId).relay.activeLinks =
      r.activeLinks ∪ (r.forwardTreeCheckPacket this senderId).checks.toFinset := by
  rw [checks_forwardTreeCheckPacket]
  rfl

theorem local_forwardTreeCheckPacket (this senderId : ι) (r : Relay ι) :
    Local r (r.forwardTreeCheckPacket this senderId) := by
  refine ⟨rfl,rfl,fun p hp => ?_,fun _ => id⟩
  rw [checks_forwardTreeCheckPacket] at hp
  exact mem_of_mem_sliceInt (List.mem_of_mem_filter hp)

theorem local_finishTreeCheck (this senderId : ι) (r : Relay ι) :
    Local r (r.finishTreeCheck this senderId) := by
  obtain ⟨hall,hfanout,hchecks,hparent⟩ := local_forwardTreeCheckPacket this senderId r
  exact ⟨hall,hfanout,hchecks,hparent⟩

theorem local_sendUpgradePacket (this senderId : ι) (rounds : ℕ) (r : Relay ι) :
    Local r (r.sendUpgradePacket this senderId rounds) := by
  cases rounds with
  | zero => exact ⟨rfl,rfl,nofun,fun _ h => h⟩
  | succ rounds =>
    rw [Relay.sendUpgradePacket]
    split
    · exact local_finishTreeCheck this senderId r
    · exact ⟨rfl,rfl,nofun,fun _ h => h⟩

theorem local_gossipTreeCheck (this id addr : ι) (known : Bool) (r : Relay ι) :
    Local r (r.gossipTreeCheck this id addr known) := by
  unfold Relay.gossipTreeCheck
  split
  · exact ⟨rfl,rfl,nofun,fun _ h => h⟩
  · split
    · exact ⟨rfl,rfl,nofun,fun _ h => h⟩
    · exact (local_sendUpgradePacket this id _ _).of_eq rfl rfl fun _ h => h

theorem local_resumeAwaitParent (this senderId : ι) (rounds : ℕ) (r : Relay ι) :
    Local r (r.resumeAwaitParent this senderId rounds) := by
  unfold Relay.resumeAwaitParent
  split
  · exact (local_finishTreeCheck this senderId _).of_eq rfl rfl fun _ h => h
  · exact ⟨rfl,rfl,nofun,fun _ h => h⟩
  · exact (local_sendUpgradePacket this senderId rounds _).of_eq (allLinks_cancelParent r) (fanout_cancelParent r)
      fun _ => resolved_cancelParent

theorem local_gossipTreeReject (this id : ι) (r : Relay ι) : Local r (r.gossipTreeReject this id) := by
  unfold Relay.gossipTreeReject
  split
  · exact ⟨rfl,rfl,nofun,fun _ h => h⟩
  · split
    · exact ⟨rfl,rfl,nofun,fun _ h => h⟩
    · exact local_forwardTreeCheckPacket this id r

theorem local_gossipUpgradeConnection (id : ι) (r : Relay ι) : Local r (r.gossipUpgradeConnection id) := by
  unfold Relay.gossipUpgradeConnection
  split
  · exact ⟨rfl,rfl,nofun,fun _ h => h⟩
  · split <;> exact ⟨rfl,rfl,nofun,fun _ h => h⟩

theorem local_gossipDowngradeConnection (id : ι) (r : Relay ι) :
    Local r { relay := r.gossipDowngradeConnection id } := by
  unfold Relay.gossipDowngradeConnection
  split <;> exact ⟨rfl,rfl,nofun,fun _ h => h⟩

theorem local_gossipAddStreamLink (id : ι) (stream : ℕ) (r : Relay ι) :
    Local r (r.gossipAddStreamLink id stream).1 := by
  unfold Relay.gossipAddStreamLink
  split
  · exact ⟨rfl,rfl,nofun,fun _ h => h⟩
  · split
    · exact ⟨rfl,rfl,nofun,fun _ h => h⟩
    · split
      · exact ⟨rfl,rfl,nofun,fun _ h => h⟩
      · split <;> exact ⟨rfl,rfl,nofun,fun _ h => h⟩

theorem local_datagramReceived (d : Datagram ι) (known : Bool) (r : Relay ι) :
    Local r (r.datagramReceived d known) := by
  unfold Relay.datagramReceived
  cases d.header with
  | gossipTreeCheck => exact local_gossipTreeCheck _ _ _ known r
  | gossipTreeReject => exact local_gossipTreeReject _ _ r
  | gossipUpgradeConn => exact local_gossipUpgradeConnection _ r
  | gossipDowngradeConn => exact local_gossipDowngradeConnection _ r

end Handlers

namespace Search
variable {this : ι} {s : Search ι}

/-- Neighbours, fanout and a parent link stay, and only neighbours are sent a tree check. -/
structure Grows (s s' : Search ι) : Prop where
  allLinks : s'.relay.allLinks = s.relay.allLinks
  fanout : s'.relay.fanout = s.relay.fanout
  checked : s.checked ⊆ s'.checked
  neighbours : s.checked ⊆ s.relay.allLinks.toFinset → s'.checked ⊆ s.relay.allLinks.toFinset
  parent : ∀ link, s.relay.parentLinkFut = .resolved link → s'.relay.parentLinkFut = .resolved link

theorem grows_apply {e : Effect ι} (h : Local s.relay e) : Grows s (s.apply e) where
  allLinks := h.allLinks
  fanout := h.fanout
  checked := Finset.subset_union_left
  neighbours := fun hs => Finset.union_subset hs fun p hp =>
    List.mem_toFinset.mpr (h.checks p (List.mem_toFinset.mp hp))
  parent := h.parent

theorem grows_step (this : ι) (s : Search ι) (e : SearchEvent ι) : Grows s (s.step this e) := by
  cases e with
  | startRoot => exact grows_apply (local_setResult none _)
  | trigger => exact grows_apply (local_forwardTreeCheckPacket this this _)
  | received d known =>
    obtain ⟨hall,hfanout,hchecked,hneighbours,hparent⟩ :=
      grows_apply (local_datagramReceived { d with target := this } known s.relay)
    exact ⟨hall,hfanout,hchecked,hneighbours,hparent⟩
  | resume senderId rounds => exact grows_apply (local_resumeAwaitParent this senderId rounds _)
  | stream id => exact grows_apply (local_gossipAddStreamLink id 0 _)
  | answered id => exact grows_apply (local_setResult (some id) _)
  | activated id => exact grows_apply ⟨rfl,rfl,nofun,fun _ h => h⟩
  | lag id => exact grows_apply ⟨rfl,rfl,nofun,fun _ h => h⟩
  | cancel => exact grows_apply (local_cancelParent _)

theorem grows_run (this : ι) (s : Search ι) (events : List (SearchEvent ι)) :
    Grows s (s.run this events) := by
  induction events generalizing s with
  | nil => exact ⟨rfl,rfl,Finset.Subset.rfl,id,fun _ h => h⟩
  | cons e events ih =>
    obtain ⟨hall,hfanout,hchecked,hneighbours,hparent⟩ := grows_step this s e
    obtain ⟨hall',hfanout',hchecked',hneighbours',hparent'⟩ := ih (s.step this e)
    refine ⟨hall'.trans hall,hfanout'.trans hfanout,hchecked.trans hchecked',fun hs => ?_,
      fun link hlink => hparent' link (hparent link hlink)⟩
    rw [← hall] at hs ⊢
    exact hneighbours' (hall ▸ hneighbours (hall ▸ hs))

/-- The relay has as many children as its fanout, or fewer. -/
def Bounded (s : Search ι) : Prop := ((s.relay.activeLinks ∩ s.checked).card : ℤ) ≤ s.relay.fanout

theorem nodup_insertKeys {keys : List ι} (h : keys.Nodup) (more : List ι) :
    (Relay.insertKeys keys more).Nodup := by
  induction more generalizing keys with
  | nil => exact h
  | cons p more ih =>
    refine ih ?_
    change (if p ∈ keys then keys else keys ++ [p]).Nodup
    split
    next => exact h
    next hp => exact List.nodup_append.mpr ⟨h,List.nodup_singleton p,fun a ha b hb hab => hp (by
        rw [List.mem_singleton.mp hb] at hab
        exact hab ▸ ha)⟩

theorem mem_insertKeys {keys more : List ι} {p : ι} :
    p ∈ Relay.insertKeys keys more ↔ p ∈ keys ∨ p ∈ more := by
  induction more generalizing keys with
  | nil => simp [Relay.insertKeys]
  | cons q more ih =>
    rw [Relay.insertKeys, List.foldl_cons, ← Relay.insertKeys, ih, List.mem_cons]
    split
    next hq => exact ⟨fun h => h.imp_right .inr,fun h => by
      rcases h with h | rfl | h
      · exact .inl h
      · exact .inl hq
      · exact .inr h⟩
    next => rw [List.mem_append, List.mem_singleton, or_assoc]

theorem init_relay (fanout : ℤ) (addresses : List ι) : (init fanout addresses).relay =
    { fanout := min (Relay.insertKeys [] addresses).length fanout
      allLinks := Relay.insertKeys [] addresses
      state := .linksInitialized } := by
  have hstate : ¬ RelayState.linksInitialized.value ≤ RelayState.sessionInit.value := by decide
  have hlink : (fun p => if p ∈ addresses then ({} : TreeLink) else {}) = fun _ => {} := by
    funext p
    split <;> rfl
  simp only [init, Relay.gossipUpdateState, if_neg hstate, hlink]

/-- The first window reaches one neighbour too far. -/
theorem checks_first (this senderId : ι) {r : Relay ι} (hindex : r.treeCheckWindowIndex = 0)
    (honline : ∀ p ∈ r.activeLinks, ¬ ((r.link p).isOnline = true ∧ (r.link p).isOutgoing = true))
    (hfanout : 0 ≤ r.fanout) (hle : r.fanout ≤ r.allLinks.length) :
    (r.forwardTreeCheckPacket this senderId).checks =
      (r.allLinks.take (r.fanout.toNat+1)).filter fun p => p ≠ senderId ∧ p ∉ r.activeLinks := by
  have hnone : r.activeLinks.filter (fun p => (r.link p).isOnline ∧ (r.link p).isOutgoing) = ∅ :=
    Finset.filter_eq_empty_iff.mpr fun _ hp => honline _ hp
  have hend : (r.forwardTreeCheckPacket this senderId).relay.treeCheckWindowIndex = r.fanout := by
    simp only [Relay.forwardTreeCheckPacket, hnone, hindex]
    simp only [Finset.card_empty]
    omega
  have hslice : sliceInt r.allLinks 0 (r.fanout+1) = r.allLinks.take (r.fanout.toNat+1) := by
    have hlast : clampIndex r.allLinks.length (r.fanout+1) = min (r.fanout.toNat+1) r.allLinks.length := by
      rw [clampIndex, if_neg (by omega)]
      congr 1
      omega
    rw [sliceInt, hlast, clampIndex, if_neg (by omega), slice]
    simp [List.take_eq_take_min]
  rw [checks_forwardTreeCheckPacket, hend, hindex, hslice]

theorem checked_apply (r : Relay ι) (e : Effect ι) : (apply { relay := r } e).checked = e.checks.toFinset :=
  Finset.empty_union _

theorem checked_subset_trigger (this : ι) (fanout : ℤ) (addresses : List ι) :
    ((init fanout addresses).step this .trigger).checked ⊆
      ((init fanout addresses).step this .trigger).relay.activeLinks := by
  have hactive := activeLinks_forwardTreeCheckPacket this this (init fanout addresses).relay
  refine (checked_apply (init fanout addresses).relay _).subset.trans ?_
  rw [step, apply, hactive]
  exact Finset.subset_union_right

/-- What the root's trigger does. -/
theorem checked_trigger {fanout : ℤ} {addresses : List ι} (hthis : this ∉ addresses)
    (hfanout : 0 ≤ (init fanout addresses).relay.fanout) :
    ((init fanout addresses).step this .trigger).checked =
      ((init fanout addresses).relay.allLinks.take ((init fanout addresses).relay.fanout.toNat+1)).toFinset := by
  have hchecks := checks_first this this (r := (init fanout addresses).relay)
    (by rw [init_relay]) (by rw [init_relay]; simp) hfanout (by rw [init_relay]; exact min_le_left _ _)
  rw [step, apply, hchecks]
  have hall : ∀ p ∈ (init fanout addresses).relay.allLinks, p ≠ this ∧ p ∉ (init fanout addresses).relay.activeLinks := by
    rw [init_relay]
    intro p hp
    refine ⟨?_,Finset.notMem_empty p⟩
    rintro rfl
    exact hthis ((mem_insertKeys.mp hp).resolve_left (List.not_mem_nil))
  rw [List.filter_eq_self.mpr fun p hp => by simpa using hall p (List.mem_of_mem_take hp)]
  exact Finset.empty_union _

/-- The number of children stays within the fanout exactly if the fanout does not limit it. -/
theorem bounded_iff {addresses : List ι} (hthis : this ∉ addresses) (fanout : ℤ) :
    (∀ events, ((init fanout addresses).run this events).Bounded) ↔
      ((init fanout addresses).relay.allLinks.length : ℤ) ≤ fanout := by
  have hfanout : (init fanout addresses).relay.fanout =
      min ((init fanout addresses).relay.allLinks.length : ℤ) fanout := by rw [init_relay]
  constructor
  · intro h
    by_contra hlt
    have hmin : (init fanout addresses).relay.fanout = fanout := by omega
    rcases lt_or_ge fanout 0 with hneg | hpos
    · have h₀ : ((_ : ℕ) : ℤ) ≤ (init fanout addresses).relay.fanout := h []
      omega
    · have h₁ := h [.trigger]
      have hchecked := checked_trigger hthis (hmin ▸ hpos)
      have hnodup : ((init fanout addresses).relay.allLinks.take (fanout.toNat+1)).Nodup := by
        refine List.Nodup.sublist (List.take_sublist _ _) ?_
        rw [init_relay]
        exact nodup_insertKeys List.nodup_nil addresses
      have hactive := checked_subset_trigger this fanout addresses
      have hcard : ((init fanout addresses).step this .trigger).checked.card = fanout.toNat+1 := by
        rw [hchecked, hmin, List.toFinset_card_of_nodup hnodup, List.length_take]
        omega
      have hbound : (((init fanout addresses).step this .trigger).relay.activeLinks ∩
          ((init fanout addresses).step this .trigger).checked).card ≤
            ((init fanout addresses).step this .trigger).relay.fanout := h₁
      rw [Finset.inter_eq_right.mpr hactive, hcard, (grows_step this _ _).fanout, hmin] at hbound
      omega
  · intro hle events
    obtain ⟨_,hkept,_,hneighbours,_⟩ := grows_run this (init fanout addresses) events
    have hsub := hneighbours (Finset.empty_subset _)
    have hcard := (Finset.card_le_card (Finset.inter_subset_right.trans hsub :
      ((init fanout addresses).run this events).relay.activeLinks ∩ _ ⊆ _)).trans (List.toFinset_card_le _)
    rw [Bounded, hkept, hfanout]
    omega

theorem bounded_two : 0 ∉ [1,2] ∧ ∀ events, ((init 2 [1,2]).run 0 events).Bounded :=
  ⟨by decide,(bounded_iff (by decide) 2).mpr (by decide)⟩

/-- Two neighbours and a fanout of one: both are sent a tree check. -/
theorem not_bounded_one : ¬ ((init 1 [1,2]).run 0 [.trigger]).Bounded := by
  unfold Bounded
  decide

end Search
end PeerConnect.PalmTree
