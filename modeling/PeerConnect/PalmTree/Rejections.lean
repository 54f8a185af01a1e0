import PeerConnect.PalmTree.Search
import PeerConnect.Library.Run

/-! Tree checks that are rejected. A peer that rejects one stays an active link, so that nobody is looked
for in its place. -/
namespace PeerConnect.PalmTree.Search
open Library

variable {ι : Type} [DecidableEq ι] {this : ι} {parent : Option ι}

/-- How a relay comes to send its first tree checks: as the root, or with a parent. -/
def formation (this : ι) : Option ι → List (SearchEvent ι)
  | none => [.trigger]
  | some p =>
    [.received ⟨p,this,.gossipTreeCheck,p⟩ true,.stream p,.answered p,.resume p (Relay.maxRetries-1)]

/-- Every neighbour but the parent has been sent a tree check. -/
def Covered (s : Search ι) : Prop :=
  ∀ q ∈ s.relay.allLinks, s.relay.parentLinkFut ≠ .resolved (some q) → q ∈ s.checked

/-- The search may stop: enough peers have not rejected, or there is no neighbour left. -/
def Exhausted (s : Search ι) : Prop := s.relay.fanout ≤ (s.checked \ s.rejected).card ∨ s.Covered

/-- Once a peer has rejected its tree check, the search has gone on until it may stop. -/
def MadeUpFor (s : Search ι) : Prop := (s.checked ∩ s.rejected).Nonempty → s.Exhausted

/-- The relay sends its first tree checks as the root, before it has accepted one itself, or once the stream of
the only peer has come that it has accepted one from; and nobody rejects what it has not been sent. -/
def Orderly (parent : Option ι) (s : Search ι) : SearchEvent ι → Prop
  | .trigger => parent = none ∧ s.relay.expectedParentPeers = ∅
  | .resume p rounds =>
    s.relay.parentLinkFut = .cancelled ∨ s.relay.parentLinkFut = .pending ∧ rounds = 0 ∨
      parent = some p ∧ s.relay.parentLinkFut = .resolved (some p) ∧ s.relay.expectedParentPeers = {p}
  | .received d _ => d.header = .gossipTreeReject → d.id ∈ s.checked
  | _ => True

instance Orderly.decidable (parent : Option ι) (s : Search ι) : ∀ e, Decidable (Orderly parent s e)
  | .trigger => inferInstanceAs (Decidable (_ ∧ _))
  | .resume _ _ => inferInstanceAs (Decidable (_ ∨ _ ∧ _ ∨ _ ∧ _ ∧ _))
  | .received _ _ => inferInstanceAs (Decidable (_ → _))
  | .startRoot | .stream _ | .answered _ | .activated _ | .lag _ | .cancel => .isTrue trivial

/-- The relay that has its parent, before it goes on. -/
def withParent (p : ι) (fanout : ℤ) (addresses : List ι) : Relay ι :=
  { fanout := (init fanout addresses).relay.fanout
    allLinks := (init fanout addresses).relay.allLinks
    state := .linksInitialized
    expectedParentPeers := {p}
    activeLinks := {p}
    link := Function.update (fun _ => {}) p ⟨.online,.incoming⟩
    parentLinkFut := .resolved (some p) }

/-- The relay that has accepted the tree check of a peer. -/
def accepted (p : ι) (fanout : ℤ) (addresses : List ι) : Relay ι :=
  { fanout := (init fanout addresses).relay.fanout
    allLinks := (init fanout addresses).relay.allLinks
    state := .linksInitialized
    expectedParentPeers := {p}
    activeLinks := {p} }

theorem step_received {p : ι} {fanout : ℤ} {addresses : List ι}
    (h : (init fanout addresses).relay.rejectReason p = []) :
    (init fanout addresses).step this (.received ⟨p,this,.gossipTreeCheck,p⟩ true) =
      { relay := accepted p fanout addresses } := by
  have hcheck : (init fanout addresses).relay.gossipTreeCheck this p p true =
      { relay := accepted p fanout addresses
        send := [⟨this,p,.gossipUpgradeConn,this⟩]
        tasks := [.awaitParent p (Relay.maxRetries-1)] } := by
    rw [Relay.gossipTreeCheck, if_neg (by simp), if_neg (by simp [h]), accepted, init_relay]
    rfl
  simp only [step, Relay.datagramReceived, hcheck]
  rfl

theorem step_stream (p : ι) (fanout : ℤ) (addresses : List ι) :
    step this { relay := accepted p fanout addresses } (.stream p) =
      { relay := { accepted p fanout addresses with link := Function.update (fun _ => {}) p ⟨.online,.outgoing⟩ } } := by
  have hactive : ¬ p ∉ (accepted p fanout addresses).activeLinks := by simp [accepted]
  have hlink : ¬ (((accepted p fanout addresses).link p).isOnline = true ∨
      ((accepted p fanout addresses).link p).isLagging = true) := by
    simp [accepted, TreeLink.isOnline, TreeLink.isLagging]
  have hfut : ¬ (accepted p fanout addresses).parentLinkFut.done = true := by
    simp [accepted, ParentFuture.done]
  have hexpected : p ∈ (accepted p fanout addresses).expectedParentPeers := by simp [accepted]
  simp only [step, Relay.gossipAddStreamLink, if_neg hactive, if_neg hlink, if_neg hfut, if_pos hexpected]
  rfl

theorem step_answered (p : ι) (r : Relay ι) (h : r.parentLinkFut = .pending) :
    step this { relay := r } (.answered p) = { relay := { r with parentLinkFut := .resolved (some p) } } := by
  have hresult : r.setResult (some p) = { r with parentLinkFut := .resolved (some p) } := by
    simp only [Relay.setResult, h]
  rw [step, hresult]
  rfl

theorem run_formation_parent (this : ι) {p : ι} {fanout : ℤ} {addresses : List ι}
    (h : (init fanout addresses).relay.rejectReason p = []) :
    (init fanout addresses).run this (formation this (some p)) =
      apply { relay := withParent p fanout addresses } ((withParent p fanout addresses).finishTreeCheck this p) := by
  simp only [formation, run, List.foldl_cons, List.foldl_nil]
  rw [step_received h, step_stream, step_answered _ _ rfl, step]
  have hwith : Relay.setLink p (fun l => { l with direction := .incoming })
      { accepted p fanout addresses with
        link := Function.update (fun _ => {}) p ⟨.online,.outgoing⟩
        parentLinkFut := .resolved (some p) } = withParent p fanout addresses := by
    simp only [Relay.setLink, Function.update_self, Function.update_idem]
    rfl
  rw [Relay.resumeAwaitParent]
  simp only [hwith]
  rfl

/-- After its first tree checks, the relay has sent one to each neighbour of the first window but its
parent, and these and the parent are its active links. -/
structure Opened (parent : Option ι) (s₀ s : Search ι) : Prop where
  allLinks : s.relay.allLinks = s₀.relay.allLinks
  fanout : s.relay.fanout = s₀.relay.fanout
  checked : ∀ q, q ∈ s.checked ↔ q ∈ s₀.relay.allLinks.take (s₀.relay.fanout.toNat+1) ∧ parent ≠ some q
  active : s.checked ⊆ s.relay.activeLinks ∧ ∀ p, parent = some p → p ∈ s.relay.activeLinks
  parent : ∀ p, s.relay.parentLinkFut = .resolved (some p) → parent = some p

theorem opened_formation {addresses : List ι} {fanout : ℤ} (hthis : this ∉ addresses)
    (hparent : ∀ p, parent = some p → (init fanout addresses).relay.rejectReason p = [])
    (hfanout : 0 ≤ (init fanout addresses).relay.fanout) :
    Opened parent (init fanout addresses) ((init fanout addresses).run this (formation this parent)) := by
  have hle : (init fanout addresses).relay.fanout ≤ (init fanout addresses).relay.allLinks.length := by
    rw [init_relay]
    exact min_le_left _ _
  cases parent with
  | none =>
    refine ⟨(grows_run this _ _).allLinks,(grows_run this _ _).fanout,fun q => ?_,
      ⟨checked_subset_trigger this fanout addresses,nofun⟩,fun p hp => ?_⟩
    · change q ∈ ((init fanout addresses).step this .trigger).checked ↔ _
      rw [checked_trigger hthis hfanout, List.mem_toFinset]
      simp
    · change (init fanout addresses).relay.parentLinkFut = .resolved (some p) at hp
      rw [init_relay] at hp
      cases hp
  | some p =>
    have hrun := run_formation_parent this (hparent p rfl)
    have hchecks := checks_first this p (r := withParent p fanout addresses) rfl
      (fun q hq => by
        obtain rfl := Finset.mem_singleton.mp hq
        simp [withParent, TreeLink.isOutgoing]) hfanout hle
    have hsame : ((withParent p fanout addresses).finishTreeCheck this p).checks =
        ((withParent p fanout addresses).forwardTreeCheckPacket this p).checks := rfl
    have hactive : ((withParent p fanout addresses).finishTreeCheck this p).relay.activeLinks =
        {p} ∪ ((withParent p fanout addresses).finishTreeCheck this p).checks.toFinset :=
      activeLinks_forwardTreeCheckPacket this p (withParent p fanout addresses)
    rw [hrun]
    refine ⟨rfl,rfl,fun q => ?_,⟨?_,fun q hq => ?_⟩,fun q hq => ParentFuture.resolved.inj hq⟩
    · rw [checked_apply, hsame, hchecks, List.mem_toFinset, List.mem_filter]
      have hne : decide (q ≠ p ∧ q ∉ (withParent p fanout addresses).activeLinks) = true ↔ some p ≠ some q := by
        rw [decide_eq_true_iff, withParent, Finset.mem_singleton, and_self_iff, Option.some_inj.ne, ne_comm]
      exact and_congr_right fun _ => hne
    · rw [checked_apply]
      change _ ⊆ ((withParent p fanout addresses).finishTreeCheck this p).relay.activeLinks
      rw [hactive]
      exact Finset.subset_union_right
    · obtain rfl := Option.some.inj hq
      change p ∈ ((withParent p fanout addresses).finishTreeCheck this p).relay.activeLinks
      rw [hactive]
      exact Finset.mem_union_left _ (Finset.mem_singleton_self _)

section
variable {s₀ s : Search ι}

theorem card_window (hnodup : s₀.relay.allLinks.Nodup)
    (hlength : s₀.relay.fanout.toNat+1 ≤ s₀.relay.allLinks.length) :
    (s₀.relay.allLinks.take (s₀.relay.fanout.toNat+1)).toFinset.card = s₀.relay.fanout.toNat+1 := by
  rw [List.toFinset_card_of_nodup (hnodup.sublist (List.take_sublist _ _)), List.length_take]
  omega

/-- All of a full window is active. -/
theorem Opened.full (h : Opened parent s₀ s) (hnodup : s₀.relay.allLinks.Nodup)
    (hlength : s₀.relay.fanout.toNat+1 ≤ s₀.relay.allLinks.length) :
    s.relay.fanout ≤ s.relay.activeLinks.card := by
  have hwindow : (s₀.relay.allLinks.take (s₀.relay.fanout.toNat+1)).toFinset ⊆ s.relay.activeLinks := by
    intro p hp
    by_cases hparent : parent = some p
    · exact h.active.2 p hparent
    · exact h.active.1 ((h.checked p).mpr ⟨List.mem_toFinset.mp hp,hparent⟩)
  have hle := Finset.card_le_card hwindow
  rw [card_window hnodup hlength] at hle
  rw [h.fanout]
  omega

/-- Of the two peers in a window at least, one is not the parent. -/
theorem Opened.asked (h : Opened parent s₀ s) (hnodup : s₀.relay.allLinks.Nodup)
    (hlength : s₀.relay.fanout.toNat+1 ≤ s₀.relay.allLinks.length) (hpos : 0 < s₀.relay.fanout) :
    s.checked.Nonempty := by
  have hcard := card_window hnodup hlength
  have htwo : 1 < (s₀.relay.allLinks.take (s₀.relay.fanout.toNat+1)).toFinset.card := by omega
  obtain ⟨a,ha,b,hb,hab⟩ := Finset.one_lt_card.mp htwo
  rw [List.mem_toFinset] at ha hb
  by_cases hparent : parent = some a
  · have hne : parent ≠ some b := fun hb' => hab (Option.some.inj (hparent.symm.trans hb'))
    exact ⟨b,(h.checked b).mpr ⟨hb,hne⟩⟩
  · exact ⟨a,(h.checked a).mpr ⟨ha,hparent⟩⟩

end

/-- A rejection changes nothing once there are as many active links as the fanout. -/
theorem step_reject {s : Search ι} (h : s.relay.fanout ≤ s.relay.activeLinks.card) (q : ι) :
    s.step this (.received ⟨q,this,.gossipTreeReject,q⟩ true) = { s with rejected := insert q s.rejected } := by
  have hsame : s.relay.gossipTreeReject this q = { relay := s.relay } := by
    unfold Relay.gossipTreeReject
    split
    · rfl
    · rfl
  rw [step]
  simp only [Relay.datagramReceived, hsame]
  have hchecked : s.checked ∪ (Effect.checks ({ relay := s.relay } : Effect ι)).toFinset = s.checked :=
    Finset.union_empty _
  simp only [apply, hchecked]
  rfl

/-- All of these reject. -/
theorem run_rejects (this : ι) {s : Search ι} (h : s.relay.fanout ≤ s.relay.activeLinks.card) (qs : List ι) :
    s.run this (qs.map fun q => .received ⟨q,this,.gossipTreeReject,q⟩ true) =
      { s with rejected := qs.toFinset ∪ s.rejected } := by
  induction qs generalizing s with
  | nil => simp [run]
  | cons q qs ih =>
    rw [List.map_cons, run, List.foldl_cons, step_reject h, ← run]
    refine (ih (s := { s with rejected := insert q s.rejected }) h).trans ?_
    simp [Finset.union_insert, Finset.insert_union]

/-- Each of them has been sent a tree check. -/
theorem along_rejects (this : ι) {s : Search ι} (h : s.relay.fanout ≤ s.relay.activeLinks.card) {qs : List ι}
    (hqs : ∀ q ∈ qs, q ∈ s.checked) :
    Along (step this) (Orderly parent) s (qs.map fun q => .received ⟨q,this,.gossipTreeReject,q⟩ true) := by
  induction qs generalizing s with
  | nil => trivial
  | cons q qs ih =>
    refine ⟨fun _ => hqs q List.mem_cons_self,?_⟩
    rw [step_reject h]
    exact ih h fun q' hq' => hqs q' (List.mem_cons_of_mem q hq')

theorem along_formation {addresses : List ι} {fanout : ℤ}
    (hparent : ∀ p, parent = some p → (init fanout addresses).relay.rejectReason p = []) :
    Along (step this) (Orderly parent) (init fanout addresses) (formation this parent) := by
  cases parent with
  | none =>
    refine ⟨⟨rfl,?_⟩,trivial⟩
    rw [init_relay]
  | some p =>
    have hreceived : Orderly (some p) (init fanout addresses) (.received ⟨p,this,.gossipTreeCheck,p⟩ true) :=
      fun h => by cases h
    refine ⟨hreceived,trivial,trivial,?_,trivial⟩
    rw [step_received (hparent p rfl), step_stream, step_answered _ _ rfl]
    exact .inr (.inr ⟨rfl,rfl,rfl⟩)

/-- What comes before the first tree checks: only peers are active that one has been accepted from. -/
structure Idle (s : Search ι) : Prop where
  checked : s.checked = ∅
  index : s.relay.treeCheckWindowIndex = 0
  active : s.relay.activeLinks ⊆ s.relay.expectedParentPeers

/-- A handler that sends no tree check keeps what comes before the first of them. -/
structure Quiet (r : Relay ι) (e : Effect ι) : Prop where
  checks : e.checks = []
  index : e.relay.treeCheckWindowIndex = r.treeCheckWindowIndex
  active : r.activeLinks ⊆ r.expectedParentPeers → e.relay.activeLinks ⊆ e.relay.expectedParentPeers

theorem Idle.apply {s : Search ι} {e : Effect ι} (hs : s.Idle) (h : Quiet s.relay e) : (s.apply e).Idle where
  checked := by
    rw [Search.apply, h.checks, hs.checked]
    rfl
  index := h.index.trans hs.index
  active := h.active hs.active

theorem quiet_gossipTreeCheck (this id addr : ι) (known : Bool) (r : Relay ι) :
    Quiet r (r.gossipTreeCheck this id addr known) := by
  unfold Relay.gossipTreeCheck
  split
  · exact ⟨rfl,rfl,fun h => h⟩
  · split
    · exact ⟨rfl,rfl,fun h => h⟩
    next hreason =>
      have hdone := (Relay.rejectReason_nil (not_not.mp hreason)).2.1
      rw [Relay.maxRetries, Relay.sendUpgradePacket, if_neg (by simp [hdone])]
      exact ⟨rfl,rfl,Finset.insert_subset_insert id⟩

theorem quiet_gossipUpgradeConnection (id : ι) (r : Relay ι) : Quiet r (r.gossipUpgradeConnection id) := by
  unfold Relay.gossipUpgradeConnection
  split
  · exact ⟨rfl,rfl,fun h => h⟩
  · split <;> exact ⟨rfl,rfl,fun h => h⟩

theorem quiet_gossipDowngradeConnection (id : ι) (r : Relay ι) :
    Quiet r { relay := r.gossipDowngradeConnection id } := by
  unfold Relay.gossipDowngradeConnection
  split
  · exact ⟨rfl,rfl,(Finset.erase_subset id _).trans⟩
  · exact ⟨rfl,rfl,fun h => h⟩

theorem quiet_gossipAddStreamLink (id : ι) (stream : ℕ) (r : Relay ι) :
    Quiet r (r.gossipAddStreamLink id stream).1 := by
  unfold Relay.gossipAddStreamLink
  split
  · exact ⟨rfl,rfl,fun h => h⟩
  · split
    · exact ⟨rfl,rfl,fun h => h⟩
    · split
      · exact ⟨rfl,rfl,fun h => h⟩
      · split <;> exact ⟨rfl,rfl,fun h => h⟩

omit [DecidableEq ι] in
theorem quiet_setResult (link : Option ι) (r : Relay ι) : Quiet r { relay := r.setResult link } := by
  unfold Relay.setResult
  split <;> exact ⟨rfl,rfl,fun h => h⟩

omit [DecidableEq ι] in
theorem quiet_cancelParent (r : Relay ι) : Quiet r { relay := r.cancelParent } := by
  unfold Relay.cancelParent
  split <;> exact ⟨rfl,rfl,fun h => h⟩

/-- A tree check that cannot go on. -/
theorem quiet_resumeAwaitParent (this senderId : ι) {rounds : ℕ} {r : Relay ι}
    (h : r.parentLinkFut = .cancelled ∨ r.parentLinkFut = .pending ∧ rounds = 0) :
    Quiet r (r.resumeAwaitParent this senderId rounds) := by
  rcases h with hcancelled | ⟨hpending,rfl⟩
  · simp only [Relay.resumeAwaitParent, hcancelled]
    exact ⟨rfl,rfl,fun h => h⟩
  · simp only [Relay.resumeAwaitParent, hpending, Relay.sendUpgradePacket, Relay.cancelParent]
    exact ⟨rfl,rfl,fun h => h⟩

theorem Covered.step {s : Search ι} (h : s.Covered) (this : ι) (e : SearchEvent ι) : (s.step this e).Covered := by
  obtain ⟨hall,_,hchecked,_,hparent⟩ := grows_step this s e
  intro q hq hne
  rw [hall] at hq
  exact hchecked (h q hq fun hresolved => hne (hparent _ hresolved))

/-- The first window reaches everybody but the parent. -/
def FirstReaches (parent : Option ι) (s : Search ι) : Prop :=
  ∀ q ∈ s.relay.allLinks.drop (s.relay.fanout.toNat+1), parent = some q

omit [DecidableEq ι] in
theorem FirstReaches.mem {s : Search ι} (h : s.FirstReaches parent) {q : ι} (hq : q ∈ s.relay.allLinks)
    (hne : parent ≠ some q) : q ∈ s.relay.allLinks.take (s.relay.fanout.toNat+1) := by
  rw [← List.take_append_drop (s.relay.fanout.toNat+1) s.relay.allLinks] at hq
  exact (List.mem_append.mp hq).resolve_right fun hd => hne (h q hd)

/-- The root's first tree checks go to everybody. -/
theorem covered_trigger {s : Search ι} (hs : s.Idle) (hthis : this ∉ s.relay.allLinks)
    (hfanout : 0 ≤ s.relay.fanout) (hle : s.relay.fanout ≤ s.relay.allLinks.length)
    (hreaches : s.FirstReaches none) (hexpected : s.relay.expectedParentPeers = ∅) :
    (s.step this .trigger).Covered := by
  have hactive : s.relay.activeLinks = ∅ := Finset.subset_empty.mp (hexpected ▸ hs.active)
  have hchecks := checks_first this this hs.index (by simp [hactive]) hfanout hle
  intro q hq _
  have hq' : q ∈ s.relay.allLinks := hq
  have hne : q ≠ this := fun heq => hthis (heq ▸ hq')
  rw [step, apply, hchecks]
  refine Finset.mem_union_right _ (List.mem_toFinset.mpr (List.mem_filter.mpr ⟨hreaches.mem hq' (Option.some_ne_none q).symm,?_⟩))
  exact decide_eq_true ⟨hne,by simp [hactive]⟩

/-- Those of a relay with a parent go to everybody else. -/
theorem covered_resume {s : Search ι} {p : ι} (hs : s.Idle) (hfanout : 0 ≤ s.relay.fanout)
    (hle : s.relay.fanout ≤ s.relay.allLinks.length) (hreaches : s.FirstReaches (some p))
    (hparent : s.relay.parentLinkFut = .resolved (some p)) (hexpected : s.relay.expectedParentPeers = {p})
    (rounds : ℕ) : (s.step this (.resume p rounds)).Covered := by
  have hactive : s.relay.activeLinks ⊆ {p} := hexpected ▸ hs.active
  set r := s.relay.setLink p fun l => { l with direction := .incoming } with hr
  have hresume : s.relay.resumeAwaitParent this p rounds = r.finishTreeCheck this p := by
    simp only [Relay.resumeAwaitParent, hparent, hr]
  have hincoming : ∀ q ∈ r.activeLinks, ¬ ((r.link q).isOnline = true ∧ (r.link q).isOutgoing = true) := by
    intro q hq
    obtain rfl := Finset.mem_singleton.mp (hactive hq)
    simp [hr, Relay.setLink, TreeLink.isOutgoing]
  have hchecks : (r.finishTreeCheck this p).checks = _ := checks_first this p hs.index hincoming hfanout hle
  intro q hq hne
  rw [step, hresume] at hq hne
  rw [step, hresume, apply, hchecks]
  have hq' : q ∈ s.relay.allLinks := hq
  have hne' : p ≠ q := fun heq => hne (heq ▸ hparent)
  refine Finset.mem_union_right _ (List.mem_toFinset.mpr (List.mem_filter.mpr ⟨?_,?_⟩))
  · exact hreaches.mem hq' fun heq => hne' (Option.some.inj heq)
  · exact decide_eq_true ⟨hne'.symm,fun hq => hne' (Finset.mem_singleton.mp (hactive hq)).symm⟩

/-- Nobody has been sent a tree check, or everybody has. -/
theorem phase_step {s : Search ι} {e : SearchEvent ι} (hthis : this ∉ s.relay.allLinks)
    (hfanout : 0 ≤ s.relay.fanout) (hle : s.relay.fanout ≤ s.relay.allLinks.length)
    (hreaches : s.FirstReaches parent) (he : s.Orderly parent e) (h : s.Idle ∨ s.Covered) :
    (s.step this e).Idle ∨ (s.step this e).Covered := by
  rcases h with hs | hcovered
  · cases e with
    | startRoot => exact .inl (hs.apply (quiet_setResult none _))
    | trigger =>
      obtain ⟨rfl,hexpected⟩ := he
      exact .inr (covered_trigger hs hthis hfanout hle hreaches hexpected)
    | received d known =>
      left
      have hquiet : Quiet s.relay (s.relay.datagramReceived { d with target := this } known) := by
        obtain ⟨addr,target,header,id⟩ := d
        cases header with
        | gossipTreeCheck => exact quiet_gossipTreeCheck this id addr known _
        | gossipTreeReject =>
          have hid : id ∈ s.checked := he rfl
          rw [hs.checked] at hid
          cases hid
        | gossipUpgradeConn => exact quiet_gossipUpgradeConnection id _
        | gossipDowngradeConn => exact quiet_gossipDowngradeConnection id _
      obtain ⟨hchecked,hindex,hactive⟩ := hs.apply hquiet
      exact ⟨hchecked,hindex,hactive⟩
    | resume p rounds =>
      rcases he with hcancelled | hpending | ⟨rfl,hparent,hexpected⟩
      · exact .inl (hs.apply (quiet_resumeAwaitParent this p (.inl hcancelled)))
      · exact .inl (hs.apply (quiet_resumeAwaitParent this p (.inr hpending)))
      · exact .inr (covered_resume hs hfanout hle hreaches hparent hexpected rounds)
    | stream id => exact .inl (hs.apply (quiet_gossipAddStreamLink id 0 _))
    | answered id => exact .inl (hs.apply (quiet_setResult (some id) _))
    | activated id => exact .inl (hs.apply ⟨rfl,rfl,fun h => h⟩)
    | lag id => exact .inl (hs.apply ⟨rfl,rfl,fun h => h⟩)
    | cancel => exact .inl (hs.apply (quiet_cancelParent _))
  · exact .inr (hcovered.step this e)

/-- In an orderly run whose first window reaches everybody, nobody or everybody has been sent a tree check. -/
theorem phase_run {addresses : List ι} {fanout : ℤ} (hthis : this ∉ addresses)
    (hfanout : 0 ≤ (init fanout addresses).relay.fanout) (hreaches : (init fanout addresses).FirstReaches parent)
    {events : List (SearchEvent ι)} (h : Along (step this) (Orderly parent) (init fanout addresses) events) :
    ((init fanout addresses).run this events).Idle ∨ ((init fanout addresses).run this events).Covered := by
  have hstart : (init fanout addresses).Idle := by
    refine ⟨rfl,?_,?_⟩
    · rw [init_relay]
    · rw [init_relay]
  have hle : (init fanout addresses).relay.fanout ≤ (init fanout addresses).relay.allLinks.length := by
    rw [init_relay]
    exact min_le_left _ _
  have hthis' : this ∉ (init fanout addresses).relay.allLinks := by
    rw [init_relay]
    exact fun hmem => hthis ((mem_insertKeys.mp hmem).resolve_left List.not_mem_nil)
  let Kept (s : Search ι) : Prop := s.relay.allLinks = (init fanout addresses).relay.allLinks ∧
    s.relay.fanout = (init fanout addresses).relay.fanout ∧ (s.Idle ∨ s.Covered)
  have hkept : ∀ s e, Orderly parent s e → Kept s → Kept (s.step this e) := by
    rintro s e he ⟨hall,hsame,hs⟩
    have hreaches' : s.FirstReaches parent := by
      rw [FirstReaches, hall, hsame]
      exact hreaches
    have hle' : s.relay.fanout ≤ s.relay.allLinks.length := by rwa [hall, hsame]
    exact ⟨(grows_step this s e).allLinks.trans hall,(grows_step this s e).fanout.trans hsame,
      phase_step (hall ▸ hthis') (hsame ▸ hfanout) hle' hreaches' he hs⟩
  exact (h.invariant hkept ⟨rfl,rfl,.inl hstart⟩).2.2

/-- Every orderly run makes up for the rejections exactly if the first window leaves nobody over but the
parent, or there is nothing to look for. -/
theorem madeUpFor_iff {addresses : List ι} (hthis : this ∉ addresses) (fanout : ℤ)
    (hparent : ∀ p, parent = some p → (init fanout addresses).relay.rejectReason p = []) :
    (∀ events, Along (step this) (Orderly parent) (init fanout addresses) events →
      ((init fanout addresses).run this events).MadeUpFor) ↔
    (init fanout addresses).relay.fanout ≤ 0 ∨ (init fanout addresses).FirstReaches parent := by
  set s₀ := init fanout addresses with hs₀
  set s₁ := s₀.run this (formation this parent) with hs₁
  constructor
  · intro h
    refine or_iff_not_imp_left.mpr fun hpos q hq => ?_
    by_contra hne
    rw [not_le] at hpos
    have hopened : Opened parent s₀ s₁ := opened_formation hthis hparent hpos.le
    have hnodup : s₀.relay.allLinks.Nodup := by
      rw [hs₀, init_relay]
      exact nodup_insertKeys List.nodup_nil addresses
    have hlength : s₀.relay.fanout.toNat+1 < s₀.relay.allLinks.length := by
      by_contra hge
      rw [List.drop_eq_nil_of_le (not_lt.mp hge)] at hq
      cases hq
    have hfull := hopened.full hnodup hlength.le
    have hasked := hopened.asked hnodup hlength.le hpos
    have hrejects := run_rejects this hfull s₁.checked.toList
    have horderly : Along (step this) (Orderly parent) s₀ (formation this parent ++
        s₁.checked.toList.map fun q => .received ⟨q,this,.gossipTreeReject,q⟩ true) :=
      along_append.mpr ⟨along_formation hparent,along_rejects this hfull fun q hq => Finset.mem_toList.mp hq⟩
    have hbad := h _ horderly
    rw [run, List.foldl_append, ← run, ← run, hrejects] at hbad
    have hall' : s₁.checked ⊆ s₁.checked.toList.toFinset ∪ s₁.rejected := by
      rw [Finset.toList_toFinset]
      exact Finset.subset_union_left
    rcases hbad (by rwa [Finset.inter_eq_left.mpr hall']) with hcount | hcovered
    · have hle : s₁.relay.fanout ≤ (s₁.checked \ (s₁.checked.toList.toFinset ∪ s₁.rejected)).card := hcount
      rw [Finset.sdiff_eq_empty_iff_subset.mpr hall', hopened.fanout, Finset.card_empty] at hle
      omega
    · have hmem : q ∈ s₁.checked := hcovered q (hopened.allLinks ▸ List.mem_of_mem_drop hq) fun heq =>
        hne (hopened.parent q heq)
      exact List.disjoint_take_drop hnodup le_rfl ((hopened.checked q).mp hmem).1 hq
  · rintro h events horderly
    obtain ⟨hall,hfanout,-,-,-⟩ := grows_run this s₀ events
    intro hrejected
    rcases le_or_gt s₀.relay.fanout 0 with hle | hpos
    · left
      rw [hfanout]
      omega
    · rcases phase_run hthis hpos.le (h.resolve_left (not_le.mpr hpos)) horderly with hidle | hcovered
      · rw [hidle.checked, Finset.empty_inter] at hrejected
        exact absurd hrejected Finset.not_nonempty_empty
      · exact .inr hcovered

/-- A relay with the parent 3, behind the first window, is rejected by both others. -/
def bothReject : List (SearchEvent ℕ) :=
  formation 0 (some 3) ++ [.received ⟨1,0,.gossipTreeReject,1⟩ true,.received ⟨2,0,.gossipTreeReject,2⟩ true]

theorem madeUpFor_three : ((init 1 [1,2,3]).run 0 bothReject).MadeUpFor := by
  have hparent : ∀ p, some 3 = some p → (init 1 [1,2,3]).relay.rejectReason p = [] := by
    intro p hp
    obtain rfl := Option.some.inj hp
    decide
  have hreaches : (init 1 [1,2,3]).FirstReaches (some 3) := by
    unfold FirstReaches
    decide
  exact (madeUpFor_iff (by decide) 1 hparent).mpr (.inr hreaches) bothReject (by decide)

/-- Two of four neighbours are sent a tree check and reject it; the others are never asked. -/
theorem not_madeUpFor_four : ¬ ∀ events, ((init 1 [1,2,3,4]).run 0 events).MadeUpFor := by
  intro h
  have := h [.trigger,.received ⟨1,0,.gossipTreeReject,1⟩ true,.received ⟨2,0,.gossipTreeReject,2⟩ true]
  revert this
  unfold MadeUpFor Exhausted Covered
  decide

end PeerConnect.PalmTree.Search
