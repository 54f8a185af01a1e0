import PeerConnect.PalmTree.Search
import PeerConnect.Library.Run

/-! The tables of active and of passive links: what each handler moves between them, and when they are
the two parts of all links. -/
namespace PeerConnect.PalmTree
open Library

variable {ι : Type} [DecidableEq ι]

/-- What happens to a relay: it is told its neighbours, and then anything else. -/
inductive RelayEvent (ι : Type)
  | updateState (addresses : List ι)
  | search (e : SearchEvent ι)

namespace Relay

/-- A relay whose session has been initialized. -/
def fresh (fanout : ℤ) : Relay ι := { fanout := fanout }

def step (this : ι) (r : Relay ι) : RelayEvent ι → Relay ι
  | .updateState addresses => r.gossipUpdateState addresses
  | .search e => (Search.step this { relay := r } e).relay

/-- Once the tree check is done, every link is active or passive, and none is both. -/
structure Parted (r : Relay ι) : Prop where
  disjoint : Disjoint r.activeLinks r.passiveLinks
  union : r.activeLinks ∪ r.passiveLinks = r.allLinks.toFinset

def Partitioned (r : Relay ι) : Prop := r.state = .treeCheckDone → r.Parted

/-- The neighbours in the next window. -/
def nextWindow (r : Relay ι) : List ι :=
  let windowStart := r.treeCheckWindowIndex
  let windowEnd := min (r.allLinks.length : ℤ) (windowStart+r.fanout) -
    (r.activeLinks.filter fun p => (r.link p).isOnline ∧ (r.link p).isOutgoing).card
  sliceInt r.allLinks windowStart (windowEnd+1)

/-- Tree checks are forwarded: from which relay, past whom, and whether this completes a tree check. -/
structure Forwarding (ι : Type) where
  relay : Relay ι
  senderId : ι
  completes : Bool

/-- The passive peers stand in front of the window, but for one that tree checks are not forwarded to. -/
def Passed (senderId : ι) (r : Relay ι) : Prop :=
  ∀ p ∈ r.passiveLinks, p ≠ senderId → p ∈ r.allLinks.take r.treeCheckWindowIndex.toNat

/-- What can make links active. -/
inductive Move (ι : Type)
  | keep
  | accept (id : ι)
  | forward (f : Forwarding ι)

/-- What an event does: a tree check is accepted, or tree checks are forwarded. -/
def move (this : ι) (r : Relay ι) : RelayEvent ι → Move ι
  | .search .trigger => .forward ⟨r,this,false⟩
  | .search (.received d _) =>
    match d.header with
    | .gossipTreeCheck => if r.rejectReason d.id = [] then .accept d.id else .keep
    | .gossipTreeReject =>
      if (r.allLinks.length : ℤ) ≤ r.treeCheckWindowIndex ∨ r.fanout ≤ r.activeLinks.card then .keep
      else .forward ⟨r,d.id,false⟩
    | _ => .keep
  | .search (.resume senderId rounds) =>
    match r.parentLinkFut,rounds with
    | .resolved _,_ =>
      .forward ⟨r.setLink senderId fun l => { l with direction := .incoming },senderId,true⟩
    | .pending,_+1 => .forward ⟨r.cancelParent,senderId,true⟩
    | _,_ => .keep
  | _ => .keep

/-- The move makes no passive link active. -/
def Spares (r : Relay ι) : Move ι → Prop
  | .keep => True
  | .accept id => id ∉ r.passiveLinks
  | .forward f => r.Passed f.senderId

/-- No tree check is accepted from a peer whose link is passive; and tree checks are triggered, go on and
are repeated for a rejection that is not ignored only once the window has passed the passive peers. -/
def Orderly (this : ι) (r : Relay ι) : RelayEvent ι → Prop
  | .search .trigger => r.Passed this
  | .search (.received d _) =>
    match d.header with
    | .gossipTreeCheck => r.rejectReason d.id = [] → d.id ∉ r.passiveLinks
    | .gossipTreeReject =>
      (r.allLinks.length : ℤ) ≤ r.treeCheckWindowIndex ∨ r.fanout ≤ r.activeLinks.card ∨ r.Passed d.id
    | _ => True
  | .search (.resume senderId rounds) =>
    r.parentLinkFut = .cancelled ∨ r.parentLinkFut = .pending ∧ rounds = 0 ∨ r.Passed senderId
  | _ => True

instance Passed.decidable (senderId : ι) (r : Relay ι) : Decidable (r.Passed senderId) :=
  inferInstanceAs (Decidable (∀ p ∈ r.passiveLinks, _ → _))

instance Orderly.decidable (this : ι) (r : Relay ι) : ∀ e, Decidable (r.Orderly this e)
  | .search .trigger => inferInstanceAs (Decidable (r.Passed this))
  | .search (.received ⟨_,_,.gossipTreeCheck,id⟩ _) =>
    inferInstanceAs (Decidable (r.rejectReason id = [] → id ∉ r.passiveLinks))
  | .search (.received ⟨_,_,.gossipTreeReject,_⟩ _) => inferInstanceAs (Decidable (_ ∨ _ ∨ _))
  | .search (.resume _ _) => inferInstanceAs (Decidable (_ ∨ _ ∧ _ ∨ _))
  | .search (.received ⟨_,_,.gossipUpgradeConn,_⟩ _) | .search (.received ⟨_,_,.gossipDowngradeConn,_⟩ _)
  | .search .startRoot | .search (.stream _) | .search (.answered _) | .search (.activated _)
  | .search (.lag _) | .search .cancel | .updateState _ => .isTrue trivial

/-- The peers that tree checks are forwarded to. -/
def Forwarding.sampled (f : Forwarding ι) : Finset ι :=
  (f.relay.nextWindow.filter fun p => p ≠ f.senderId ∧ p ∉ f.relay.activeLinks).toFinset

theorem activeLinks_forward (this : ι) (f : Forwarding ι) :
    (f.relay.forwardTreeCheckPacket this f.senderId).relay.activeLinks =
      f.relay.activeLinks ∪ f.sampled := rfl

/-- A change of the tables, from one relay to another. -/
inductive Changes (r r' : Relay ι) : Move ι → Prop
  | kept {m : Move ι} (hall : r'.allLinks = r.allLinks) (hactive : r'.activeLinks = r.activeLinks)
    (hpassive : r'.passiveLinks = r.passiveLinks) (hstate : r'.state = r.state) : Changes r r' m
  | told (hall : r.allLinks ⊆ r'.allLinks) (hnodup : r.allLinks.Nodup → r'.allLinks.Nodup)
    (hactive : r'.activeLinks = r.activeLinks) (hpassive : r'.passiveLinks = r.passiveLinks)
    (hstate : r'.state = .linksInitialized) : Changes r r' .keep
  | accepted (id : ι) (hid : id ∈ r.allLinks) (hall : r'.allLinks = r.allLinks)
    (hactive : r'.activeLinks = insert id r.activeLinks) (hpassive : r'.passiveLinks = r.passiveLinks)
    (hstate : r'.state = r.state) (hdone : r.state ≠ .treeCheckDone) : Changes r r' (.accept id)
  | downgraded (id : ι) (hid : id ∈ r.activeLinks) (hall : r'.allLinks = r.allLinks)
    (hactive : r'.activeLinks = r.activeLinks.erase id)
    (hpassive : r'.passiveLinks = insert id r.passiveLinks) (hstate : r'.state = r.state) :
    Changes r r' .keep
  | forwarded (f : Forwarding ι) (hsame : f.relay.allLinks = r.allLinks)
    (hkept : f.relay.passiveLinks = r.passiveLinks)
    (hindex : f.relay.treeCheckWindowIndex = r.treeCheckWindowIndex) (hall : r'.allLinks = r.allLinks)
    (hactive : r'.activeLinks = r.activeLinks ∪ f.sampled)
    (hpassive : r'.passiveLinks = if f.completes then
      r.passiveLinks ∪ (r.allLinks.toFinset \ r'.activeLinks) else r.passiveLinks)
    (hstate : r'.state = if f.completes then .treeCheckDone else r.state) : Changes r r' (.forward f)

variable {this : ι} {r : Relay ι}

theorem changes_forward (this : ι) (f : Forwarding ι) (hactive : f.relay.activeLinks = r.activeLinks)
    (hall : f.relay.allLinks = r.allLinks) (hindex : f.relay.treeCheckWindowIndex = r.treeCheckWindowIndex)
    (hpassive : f.relay.passiveLinks = r.passiveLinks) (hstate : f.relay.state = r.state)
    (hkept : f.completes = false) :
    Changes r (f.relay.forwardTreeCheckPacket this f.senderId).relay (.forward f) := by
  refine .forwarded f hall hpassive hindex hall ?_ ?_ ?_
  · rw [← hactive]
    exact activeLinks_forward this f
  · rw [hkept]
    exact hpassive
  · rw [hkept]
    exact hstate

theorem changes_finish (f : Forwarding ι) (hactive : f.relay.activeLinks = r.activeLinks)
    (hall : f.relay.allLinks = r.allLinks) (hindex : f.relay.treeCheckWindowIndex = r.treeCheckWindowIndex)
    (hpassive : f.relay.passiveLinks = r.passiveLinks) (hcompletes : f.completes = true) :
    Changes r (f.relay.finishTreeCheck this f.senderId).relay (.forward f) := by
  refine .forwarded f hall hpassive hindex hall ?_ ?_ ?_
  · rw [← hactive]
    exact activeLinks_forward this f
  · rw [hcompletes, ← hpassive, ← hall]
    rfl
  · rw [hcompletes]
    rfl

theorem changes_gossipUpdateState (addresses : List ι) (r : Relay ι) :
    Changes r (r.gossipUpdateState addresses) .keep := by
  unfold gossipUpdateState
  split
  · exact .kept rfl rfl rfl rfl
  · refine .told (fun p hp => ?_) (fun hr => ?_) rfl rfl rfl
    · exact Search.mem_insertKeys.mpr (.inl hp)
    · exact Search.nodup_insertKeys hr addresses

/-- Without a parent link there is an upgrade to wait for, or no round left. -/
theorem sendUpgradePacket_relay {senderId : ι} {rounds : ℕ} (h : r.parentLinkFut.done = false) :
    (sendUpgradePacket this senderId rounds r).relay = r := by
  cases rounds with
  | zero => rfl
  | succ rounds =>
    have hdone : ¬ r.parentLinkFut.done = true := by
      rw [h]
      exact Bool.false_ne_true
    rw [sendUpgradePacket, if_neg hdone]

theorem changes_gossipTreeCheck (id addr : ι) (known : Bool) (r : Relay ι) :
    Changes r (r.gossipTreeCheck this id addr known).relay
      (if r.rejectReason id = [] then .accept id else .keep) := by
  unfold gossipTreeCheck
  by_cases hknown : known = false
  · rw [if_pos hknown]
    exact .kept rfl rfl rfl rfl
  · by_cases hreason : r.rejectReason id = []
    · rw [if_neg hknown, if_neg (not_not.mpr hreason), if_pos hreason]
      obtain ⟨hid,hparent,hstate⟩ := rejectReason_nil hreason
      have hwaits : (sendUpgradePacket this id maxRetries { r with
          expectedParentPeers := insert id r.expectedParentPeers
          activeLinks := insert id r.activeLinks }).relay = _ := sendUpgradePacket_relay hparent
      rw [hwaits]
      exact .accepted id hid rfl rfl rfl rfl hstate
    · rw [if_neg hknown, if_pos hreason]
      exact .kept rfl rfl rfl rfl

theorem changes_gossipTreeReject (id : ι) (r : Relay ι) :
    Changes r (r.gossipTreeReject this id).relay
      (if (r.allLinks.length : ℤ) ≤ r.treeCheckWindowIndex ∨ r.fanout ≤ r.activeLinks.card then .keep
        else .forward ⟨r,id,false⟩) := by
  unfold gossipTreeReject
  by_cases hindex : (r.allLinks.length : ℤ) ≤ r.treeCheckWindowIndex
  · rw [if_pos hindex]
    exact .kept rfl rfl rfl rfl
  · by_cases hfanout : r.fanout ≤ r.activeLinks.card
    · rw [if_neg hindex, if_pos hfanout]
      exact .kept rfl rfl rfl rfl
    · rw [if_neg hindex, if_neg hfanout, if_neg (not_or.mpr ⟨hindex,hfanout⟩)]
      exact changes_forward this ⟨r,id,false⟩ rfl rfl rfl rfl rfl rfl

theorem changes_gossipUpgradeConnection (id : ι) (r : Relay ι) :
    Changes r (r.gossipUpgradeConnection id).relay .keep := by
  unfold gossipUpgradeConnection
  split
  · exact .kept rfl rfl rfl rfl
  · split <;> exact .kept rfl rfl rfl rfl

theorem changes_gossipDowngradeConnection (id : ι) (r : Relay ι) :
    Changes r (r.gossipDowngradeConnection id) .keep := by
  unfold gossipDowngradeConnection
  split
  next hid => exact .downgraded id hid rfl rfl rfl rfl
  next => exact .kept rfl rfl rfl rfl

theorem changes_resume (senderId : ι) (rounds : ℕ) (r : Relay ι) :
    Changes r (r.resumeAwaitParent this senderId rounds).relay
      (r.move this (.search (.resume senderId rounds))) := by
  unfold resumeAwaitParent move
  cases hparent : r.parentLinkFut with
  | resolved link =>
    exact changes_finish ⟨r.setLink senderId fun l => { l with direction := .incoming },senderId,true⟩
      rfl rfl rfl rfl rfl
  | cancelled => exact .kept rfl rfl rfl rfl
  | pending =>
    have hcancel : r.cancelParent = { r with parentLinkFut := .cancelled } := by
      unfold cancelParent
      rw [hparent]
    dsimp only
    rw [hcancel]
    cases rounds with
    | zero => exact .kept rfl rfl rfl rfl
    | succ rounds =>
      exact changes_finish ⟨{ r with parentLinkFut := .cancelled },senderId,true⟩ rfl rfl rfl rfl rfl

theorem changes_gossipAddStreamLink (id : ι) (stream : ℕ) (r : Relay ι) :
    Changes r (r.gossipAddStreamLink id stream).1.relay .keep := by
  unfold gossipAddStreamLink
  split
  · exact .kept rfl rfl rfl rfl
  · split
    · exact .kept rfl rfl rfl rfl
    · split
      · exact .kept rfl rfl rfl rfl
      · split <;> exact .kept rfl rfl rfl rfl

theorem changes_received (d : Datagram ι) (known : Bool) (r : Relay ι) :
    Changes r (r.datagramReceived { d with target := this } known).relay
      (r.move this (.search (.received d known))) := by
  obtain ⟨addr,target,header,id⟩ := d
  cases header with
  | gossipTreeCheck => exact changes_gossipTreeCheck id addr known r
  | gossipTreeReject => exact changes_gossipTreeReject id r
  | gossipUpgradeConn => exact changes_gossipUpgradeConnection id r
  | gossipDowngradeConn => exact changes_gossipDowngradeConnection id r

theorem changes_setResult (link : Option ι) (r : Relay ι) : Changes r (r.setResult link) .keep := by
  unfold setResult
  split <;> exact .kept rfl rfl rfl rfl

/-- What an event changes in the tables. -/
theorem step_changes (this : ι) (r : Relay ι) (e : RelayEvent ι) :
    Changes r (r.step this e) (r.move this e) := by
  cases e with
  | updateState addresses => exact changes_gossipUpdateState addresses r
  | search e =>
    cases e with
    | trigger => exact changes_forward this ⟨r,this,false⟩ rfl rfl rfl rfl rfl rfl
    | received d known => exact changes_received d known r
    | resume senderId rounds => exact changes_resume senderId rounds r
    | stream id => exact changes_gossipAddStreamLink id 0 r
    | startRoot => exact changes_setResult none r
    | answered id => exact changes_setResult (some id) r
    | activated id => exact .kept rfl rfl rfl rfl
    | lag id => exact .kept rfl rfl rfl rfl
    | cancel =>
      change Changes r r.cancelParent .keep
      unfold cancelParent
      split <;> exact .kept rfl rfl rfl rfl

/-- An orderly event makes no passive link active. -/
theorem Orderly.spares {e : RelayEvent ι} (h : r.Orderly this e) : r.Spares (r.move this e) := by
  cases e with
  | updateState addresses => trivial
  | search e =>
    cases e with
    | trigger => exact h
    | received d known =>
      obtain ⟨addr,target,header,id⟩ := d
      cases header with
      | gossipTreeCheck =>
        change r.Spares (if r.rejectReason id = [] then .accept id else .keep)
        split
        next hreason => exact h hreason
        next => trivial
      | gossipTreeReject =>
        change r.Spares (if _ then .keep else .forward ⟨r,id,false⟩)
        split
        next => trivial
        next hguards =>
          obtain ⟨hindex,hfanout⟩ := not_or.mp hguards
          exact (h.resolve_left hindex).resolve_left hfanout
      | gossipUpgradeConn => trivial
      | gossipDowngradeConn => trivial
    | resume senderId rounds =>
      unfold move
      rcases h with hcancelled | ⟨hpending,rfl⟩ | hpassed
      · rw [hcancelled]
        trivial
      · rw [hpending]
        trivial
      · cases r.parentLinkFut with
        | resolved link => exact hpassed
        | cancelled => trivial
        | pending =>
          cases rounds with
          | zero => trivial
          | succ rounds => exact hpassed
    | stream id => trivial
    | startRoot => trivial
    | answered id => trivial
    | activated id => trivial
    | lag id => trivial
    | cancel => trivial

/-- Every link of the tables is one of all links. -/
structure Valid (r : Relay ι) : Prop where
  active : r.activeLinks ⊆ r.allLinks.toFinset
  passive : r.passiveLinks ⊆ r.allLinks.toFinset
  nodup : r.allLinks.Nodup

/-- No link is in both tables, and once the tree check is done every link is in one. -/
structure Divided (r : Relay ι) : Prop where
  disjoint : Disjoint r.activeLinks r.passiveLinks
  union : r.state = .treeCheckDone → r.activeLinks ∪ r.passiveLinks = r.allLinks.toFinset

theorem valid_fresh (fanout : ℤ) : (fresh fanout : Relay ι).Valid := ⟨subset_rfl,subset_rfl,List.nodup_nil⟩

theorem divided_fresh (fanout : ℤ) : (fresh fanout : Relay ι).Divided :=
  ⟨Finset.disjoint_empty_left ∅,fun h => by cases h⟩

theorem mem_sampled {f : Forwarding ι} {p : ι} :
    p ∈ f.sampled ↔ p ∈ f.relay.nextWindow ∧ p ≠ f.senderId ∧ p ∉ f.relay.activeLinks := by
  simp [Forwarding.sampled]

theorem sampled_subset (f : Forwarding ι) : f.sampled ⊆ f.relay.allLinks.toFinset := by
  intro p hp
  exact List.mem_toFinset.mpr (mem_of_mem_sliceInt (mem_sampled.mp hp).1)

/-- The window goes on from where it stands. -/
theorem disjoint_sampled {f : Forwarding ι} (hnodup : f.relay.allLinks.Nodup)
    (h : f.relay.Passed f.senderId) : Disjoint f.sampled f.relay.passiveLinks := by
  refine Finset.disjoint_left.mpr fun p hp hpassive => ?_
  obtain ⟨hwindow,hsender,-⟩ := mem_sampled.mp hp
  exact notMem_sliceInt hnodup (h p hpassive hsender) hwindow

variable {r' : Relay ι} {m : Move ι}

theorem Changes.valid (h : Changes r r' m) (hr : r.Valid) : r'.Valid := by
  obtain ⟨hactive,hpassive,hnodup⟩ := hr
  cases h with
  | kept hall hactive' hpassive' _ =>
    refine ⟨?_,?_,hall ▸ hnodup⟩
    · rwa [hall, hactive']
    · rwa [hall, hpassive']
  | told hall hnodup' hactive' hpassive' _ =>
    have hsub : r.allLinks.toFinset ⊆ r'.allLinks.toFinset := by
      intro p hp
      exact List.mem_toFinset.mpr (hall (List.mem_toFinset.mp hp))
    refine ⟨?_,?_,hnodup' hnodup⟩
    · rw [hactive']
      exact hactive.trans hsub
    · rw [hpassive']
      exact hpassive.trans hsub
  | accepted id hid hall hactive' hpassive' _ _ =>
    refine ⟨?_,?_,hall ▸ hnodup⟩
    · rw [hall, hactive', Finset.insert_subset_iff]
      exact ⟨List.mem_toFinset.mpr hid,hactive⟩
    · rwa [hall, hpassive']
  | downgraded id hid hall hactive' hpassive' _ =>
    refine ⟨?_,?_,hall ▸ hnodup⟩
    · rw [hall, hactive']
      exact (Finset.erase_subset id _).trans hactive
    · rw [hall, hpassive', Finset.insert_subset_iff]
      exact ⟨hactive hid,hpassive⟩
  | forwarded f hsame _ _ hall hactive' hpassive' _ =>
    refine ⟨?_,?_,hall ▸ hnodup⟩
    · rw [hall, hactive']
      exact Finset.union_subset hactive (hsame ▸ sampled_subset f)
    · rw [hall, hpassive']
      split
      · exact Finset.union_subset hpassive Finset.sdiff_subset
      · exact hpassive

/-- A downgrade moves a link from one part to the other. -/
theorem Divided.downgraded {id : ι} (h : r.Divided) (hid : id ∈ r.activeLinks)
    (hall : r'.allLinks = r.allLinks) (hactive : r'.activeLinks = r.activeLinks.erase id)
    (hpassive : r'.passiveLinks = insert id r.passiveLinks) (hstate : r'.state = r.state) : r'.Divided := by
  constructor
  · rw [hactive, hpassive, Finset.disjoint_insert_right]
    exact ⟨Finset.notMem_erase id _,h.disjoint.mono_left (Finset.erase_subset id _)⟩
  · intro hdone
    rw [hall, hactive, hpassive, ← h.union (hstate ▸ hdone), Finset.union_insert, ← Finset.insert_union,
      Finset.insert_erase hid]

/-- The links that are not active are passive, once a tree check is completed. -/
theorem divided_completed {passive : Finset ι} (hactive : r'.activeLinks ⊆ r'.allLinks.toFinset)
    (hsub : passive ⊆ r'.allLinks.toFinset) (hdisjoint : Disjoint r'.activeLinks passive)
    (hpassive : r'.passiveLinks = passive ∪ (r'.allLinks.toFinset \ r'.activeLinks)) : r'.Divided := by
  constructor
  · rw [hpassive, Finset.disjoint_union_right]
    exact ⟨hdisjoint,Finset.disjoint_sdiff⟩
  · intro _
    rw [hpassive, Finset.union_left_comm, Finset.union_sdiff_of_subset hactive]
    exact Finset.union_eq_right.mpr hsub

/-- Links that become active add nothing to all links. -/
theorem Divided.forwarded (h : r.Divided) (hactive : r'.activeLinks ⊆ r'.allLinks.toFinset)
    (hmore : r.activeLinks ⊆ r'.activeLinks) (hdisjoint : Disjoint r'.activeLinks r.passiveLinks)
    (hall : r'.allLinks = r.allLinks) (hpassive : r'.passiveLinks = r.passiveLinks)
    (hstate : r'.state = r.state) : r'.Divided := by
  refine ⟨hpassive ▸ hdisjoint,fun hdone => ?_⟩
  have hunion := h.union (hstate ▸ hdone)
  refine subset_antisymm (Finset.union_subset hactive ?_) ?_
  · rw [hpassive, hall, ← hunion]
    exact Finset.subset_union_right
  · rw [hall, ← hunion, hpassive]
    exact Finset.union_subset_union_left hmore

/-- What makes no passive link active keeps the tables apart. -/
theorem Changes.divided (h : Changes r r' m) (hr : r.Valid) (hd : r.Divided) (hm : r.Spares m) :
    r'.Divided := by
  have hvalid := h.valid hr
  cases h with
  | kept hall hactive hpassive hstate =>
    constructor
    · rw [hactive, hpassive]
      exact hd.disjoint
    · rw [hactive, hpassive, hall, hstate]
      exact hd.union
  | told hall hnodup hactive hpassive hstate =>
    refine ⟨?_,fun hdone => ?_⟩
    · rw [hactive, hpassive]
      exact hd.disjoint
    · rw [hstate] at hdone
      cases hdone
  | accepted id hid hall hactive hpassive hstate hbefore =>
    refine ⟨?_,fun hdone => ?_⟩
    · rw [hactive, hpassive, Finset.disjoint_insert_left]
      exact ⟨hm,hd.disjoint⟩
    · exact absurd (hstate ▸ hdone) hbefore
  | downgraded id hid hall hactive hpassive hstate =>
    exact hd.downgraded hid hall hactive hpassive hstate
  | forwarded f hsame hkept hindex hall hactive hpassive hstate =>
    have hsampled : Disjoint f.sampled r.passiveLinks := by
      rw [← hkept]
      exact disjoint_sampled (hsame ▸ hr.nodup) (by rwa [Passed, hkept, hsame, hindex])
    have hdisjoint : Disjoint r'.activeLinks r.passiveLinks := by
      rw [hactive, Finset.disjoint_union_left]
      exact ⟨hd.disjoint,hsampled⟩
    cases hcompletes : f.completes with
    | true =>
      rw [hcompletes, if_pos rfl, ← hall] at hpassive
      exact divided_completed hvalid.active (hall ▸ hr.passive) hdisjoint hpassive
    | false =>
      rw [hcompletes, if_neg Bool.false_ne_true] at hpassive hstate
      have hmore : r.activeLinks ⊆ r'.activeLinks := hactive ▸ Finset.subset_union_left
      exact hd.forwarded hvalid.active hmore hdisjoint hall hpassive hstate

/-- In every state of an orderly run, the links of a relay whose tree check is done are parted. -/
theorem partitioned_of_orderly (this : ι) (fanout : ℤ) {es : List (RelayEvent ι)}
    (h : Along (step this) (Orderly this) (fresh fanout) es) :
    ∀ es', es' <+: es → (after (step this) (fresh fanout) es').Partitioned := by
  rintro es' ⟨rest,rfl⟩
  have hkept : ∀ r e, Orderly this r e → r.Valid ∧ r.Divided → (r.step this e).Valid ∧ (r.step this e).Divided := by
    rintro r e he ⟨hvalid,hdivided⟩
    have hchanges := step_changes this r e
    exact ⟨hchanges.valid hvalid,hchanges.divided hvalid hdivided he.spares⟩
  have hdivided := ((along_append.mp h).1.invariant hkept ⟨valid_fresh fanout,divided_fresh fanout⟩).2
  exact fun hdone => ⟨hdivided.disjoint,hdivided.union hdone⟩

/-- A relay with three neighbours and a fanout of one has taken a tree check from 1 and sent one to 2, which
downgrades its connection. -/
def downgraded : List (RelayEvent ℕ) :=
  [.updateState [1,2,3],
    .search (.received ⟨1,0,.gossipTreeCheck,1⟩ true),.search (.stream 1),.search (.answered 1),
    .search (.resume 1 2),
    .search (.received ⟨2,0,.gossipDowngradeConn,2⟩ true)]

/-- Then 2 rejects the tree check, which is ignored. -/
def downgradedRejected : List (RelayEvent ℕ) :=
  downgraded ++ [.search (.received ⟨2,0,.gossipTreeReject,2⟩ true)]

theorem downgradedRejected_partitioned : (after (step 0) (fresh 1) downgradedRejected).state = .treeCheckDone ∧
    ∀ es', es' <+: downgradedRejected → (after (step 0) (fresh 1) es').Partitioned :=
  ⟨by decide,partitioned_of_orderly 0 1 (by decide)⟩

/-- But before that 1 downgrades its connection too. -/
def downgradedThenRejected : List (RelayEvent ℕ) :=
  downgraded ++ [.search (.received ⟨1,0,.gossipDowngradeConn,1⟩ true),
    .search (.received ⟨2,0,.gossipTreeReject,2⟩ true)]

/-- The tree check goes on to 3, which is then in both tables. -/
theorem downgradedThenRejected_not_partitioned :
    ¬ ∀ es', es' <+: downgradedThenRejected → (after (step 0) (fresh 1) es').Partitioned := by
  intro h
  have hparted := h downgradedThenRejected List.prefix_rfl (by decide)
  exact absurd hparted.disjoint (by decide)

end Relay
end PeerConnect.PalmTree
