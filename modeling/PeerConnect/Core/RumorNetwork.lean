import PeerConnect.Core.SearchNetwork

/-! Rumors in the network of the searches: how many datagrams one rumor can cause, and that every one of
them has the bytes that it began with. -/
namespace PeerConnect.Transfers.RumorMongerProtocol
open Library Wire

variable {μ ι π : Type} [DecidableEq ι] [DecidableEq π]
variable {rumor : Rumor μ ι} {env : Surroundings π} {message : μ} {s s' s'' : RumorMongerProtocol μ ι π}

/-- The peers that have been told a message of the list. -/
def told (s : RumorMongerProtocol μ ι π) (k : ι) : Finset π :=
  match s.messageList.lookup k with
  | some item => item.peerList
  | none => ∅

/-- What has been sent is about the message of that id. -/
def about (rumor : Rumor μ ι) (k : ι) (x : μ × π) : Bool := (rumor.id x.1).toOption = some k

omit [DecidableEq π] in
theorem told_of_lookup {k : ι} {item : RumorMessageItem ι π} (h : s.messageList.lookup k = some item) :
    s.told k = item.peerList := by
  rw [told, h]

omit [DecidableEq π] in
theorem told_of_not_mem {k : ι} (h : k ∉ s.messageList) : s.told k = ∅ := by
  rw [told, AList.lookup_eq_none.mpr h]

omit [DecidableEq π] in
theorem told_congr {k : ι} (h : s'.messageList.lookup k = s.messageList.lookup k) :
    s'.told k = s.told k := by
  rw [told, told, h]

/-- Whatever is sent about a message is sent to peers that have not been told it, of those that are
known, and only such messages are new in the list. -/
structure Spends (rumor : Rumor μ ι) (peerIds : List π) (new : ι → Prop) (s s' : RumorMongerProtocol μ ι π) :
    Prop where
  cost : ∀ k, s'.sent.countP (about rumor k)+(s.told k).card ≤
    s.sent.countP (about rumor k)+(s'.told k).card
  known : ∀ k, s'.told k ⊆ s.told k ∪ peerIds.toFinset
  entered : ∀ k ∈ s'.messageList, k ∈ s.messageList ∨ new k

namespace Spends

variable {peerIds : List π} {new new' : ι → Prop}

theorem refl (rumor : Rumor μ ι) (peerIds : List π) (new : ι → Prop) (s : RumorMongerProtocol μ ι π) :
    Spends rumor peerIds new s s :=
  ⟨fun _ => le_rfl,fun _ => Finset.subset_union_left,fun _ => .inl⟩

theorem mono (h : Spends rumor peerIds new s s') (hnew : ∀ k, new k → new' k) :
    Spends rumor peerIds new' s s' :=
  ⟨h.cost,h.known,fun k hk => (h.entered k hk).imp_right (hnew k)⟩

theorem trans (h : Spends rumor peerIds new s s') (h' : Spends rumor peerIds new s' s'') :
    Spends rumor peerIds new s s'' where
  cost k := by
    have hfirst := h.cost k
    have hsecond := h'.cost k
    omega
  known k := by
    refine (h'.known k).trans (Finset.union_subset (h.known k) Finset.subset_union_right)
  entered k hk := (h'.entered k hk).elim (h.entered k) .inr

end Spends

theorem gossipForward_spends (rumor : Rumor μ ι) (env : Surroundings π) (message : μ)
    (s : RumorMongerProtocol μ ι π) :
    Spends rumor env.peerIds (fun k => rumor.id message = .ok k) s
      (gossipForward rumor env message s).state := by
  rcases gossipForward_cases rumor env message s with hs | ⟨k,item,part,hid,hl,hpart,hs⟩
  · rw [hs]
    exact .refl _ _ _ _
  · rw [hs]
    set peers := sampled env item with hpeers
    have hnodup : peers.Nodup := sampled_nodup env item
    have hold : s.told k = item.peerList := told_of_lookup hl
    have hnew : (s.enter k item peers).told k = item.peerList ∪ peers.toFinset := by
      rw [told, enter, AList.lookup_insert]
    have hother : ∀ k' ≠ k, (s.enter k item peers).told k' = s.told k' := fun k' hk' =>
      told_congr (AList.lookup_insert_ne hk')
    have hdisjoint : Disjoint item.peerList peers.toFinset := by
      rw [Finset.disjoint_right]
      exact fun p hp => not_mem_of_sampled (List.mem_toFinset.mp hp)
    refine ⟨fun k' => ?_,fun k' => ?_,fun k' hk' => ?_⟩
    · change (s.sent ++ part.map fun p => (message,p)).countP (about rumor k')+_ ≤
        _+((s.enter k item peers).told k').card
      rw [List.countP_append]
      by_cases hk' : k' = k
      · subst hk'
        have hle : (part.map fun p => (message,p)).countP (about rumor k') ≤ peers.length :=
          List.countP_le_length.trans ((List.length_map _).trans_le hpart.length_le)
        rw [hold, hnew, Finset.card_union_of_disjoint hdisjoint, List.toFinset_card_of_nodup hnodup]
        omega
      · have hzero : (part.map fun p => (message,p)).countP (about rumor k') = 0 := by
          refine List.countP_eq_zero.mpr fun x hx => ?_
          obtain ⟨p,-,rfl⟩ := List.mem_map.mp hx
          simpa [about, hid, Except.toOption] using Ne.symm hk'
        rw [hzero, hother k' hk']
        omega
    · change (s.enter k item peers).told k' ⊆ _
      by_cases hk' : k' = k
      · subst hk'
        rw [hold, hnew]
        refine Finset.union_subset_union_right fun p hp => ?_
        have hmem := List.mem_filter.mp (Reservoir.mem_of_mem_sample (List.mem_toFinset.mp hp))
        exact List.mem_toFinset.mpr hmem.1
      · rw [hother k' hk']
        exact Finset.subset_union_left
    · rcases (AList.mem_insert _).mp hk' with rfl | hk'
      · exact .inr hid
      · exact .inl hk'

/-- A message that is not in the list yet is entered with nobody that has been told it. -/
theorem insert_spends {k : ι} (hnew : k ∉ s.messageList) (item : RumorMessageItem ι π)
    (hitem : item.peerList = ∅) (peerIds : List π) :
    Spends rumor peerIds (fun k' => k' = k) s { s with messageList := s.messageList.insert k item } := by
  have htold : ∀ k', RumorMongerProtocol.told { s with messageList := s.messageList.insert k item } k' =
      s.told k' := by
    intro k'
    by_cases hk' : k' = k
    · subst hk'
      rw [told_of_not_mem hnew, told, AList.lookup_insert]
      exact hitem
    · exact told_congr (AList.lookup_insert_ne hk')
  refine ⟨fun k' => ?_,fun k' => ?_,fun k' hk' => ?_⟩
  · rw [htold]
  · rw [htold]
    exact Finset.subset_union_left
  · exact ((AList.mem_insert _).mp hk').symm

theorem gossipMessage_spends (hnew : ∀ k, rumor.id message = .ok k → k ∉ s.messageList) :
    Spends rumor env.peerIds (fun k => rumor.id message = .ok k) s
      (gossipMessage rumor env message s).state := by
  by_cases hr : rumor.repr message = .ok ()
  · by_cases hid : ∃ k, rumor.id message = .ok k
    · obtain ⟨k,hid⟩ := hid
      rw [gossipMessage_of_id hr hid]
      refine Spends.trans ((insert_spends (hnew k hid) _ rfl _).mono ?_) (gossipForward_spends rumor env message _)
      rintro k' rfl
      exact hid
    · cases he : rumor.id message with
      | error e => simpa [gossipMessage, hr, push, he] using Spends.refl _ _ _ _
      | ok k => exact absurd ⟨k,he⟩ hid
  · cases he : rumor.repr message with
    | error e => simpa [gossipMessage, he] using Spends.refl _ _ _ _
    | ok _ => exact absurd he hr

/-- Only a message with the fields that are checked is entered when it arrives. -/
theorem messageArrived_spends (rumor : Rumor μ ι) (env : Surroundings π) (message : μ)
    (s : RumorMongerProtocol μ ι π) :
    Spends rumor env.peerIds (fun k => rumor.id message = .ok k ∧ rumor.fieldsCheck message = true) s
      (messageArrived rumor env message s).state := by
  cases hf : rumor.fieldsCheck message with
  | false =>
    rw [show messageArrived rumor env message s = .done () s by simp [messageArrived, hf]]
    exact .refl _ _ _ _
  | true =>
    rcases messageArrived_cases rumor env message s with hs | ⟨k,hid,-,hs⟩
    · rw [hs]
      exact .refl _ _ _ _
    · rw [hs]
      refine (?_ : Spends rumor env.peerIds (fun k => rumor.id message = .ok k) s _).mono
        fun k hk => ⟨hk,rfl⟩
      split
      · exact gossipForward_spends rumor env message s
      next hl =>
        refine gossipMessage_spends fun k' hk' => ?_
        rw [hid] at hk'
        cases hk'
        exact hl

end PeerConnect.Transfers.RumorMongerProtocol

namespace PeerConnect.Core
open Library Wire Kademlia Transfers

namespace GossipSearch
variable {ι : Type} [DecidableEq ι]

/-- The rumor that a datagram carries, by the key of its id. Replies carry none. -/
def rumorOf (u : Umsgpack) (key : Value → Except Exn ι) (d : Posted Address) : Option ι :=
  match d.event? u with
  | some event =>
    match event.request.header with
    | .str [ '\x02'] => none
    | _ => (key event.request.id).toOption
  | none => none

/-- What a node does about one message is paid for by new peers that are told. -/
def Pays (u : Umsgpack) (key : Value → Except Exn ι) (m : GossipMessage) (c : Circumstances)
    (s s' : GossipNode ι) : Prop :=
  RumorMongerProtocol.Spends (rumor u key) c.peerIds (fun k => key m.id = .ok k ∧ m.fieldsCheck = true)
    s.globalGossip s'.globalGossip

variable {u : Umsgpack} {printer : Printer} {key : Value → Except Exn ι} {me : RemotePeer}
variable {m : GossipMessage} {c : Circumstances} {fromAddr : Address} {s s' : GossipNode ι}
variable {d : Posted Address} {event : RequestEvent} {k : ι} {n : Address}

instance : Std.Refl (Pays u key m c : GossipNode ι → GossipNode ι → Prop) := ⟨fun _ => .refl _ _ _ _⟩

instance : IsTrans (GossipNode ι) (Pays u key m c) := ⟨fun _ _ _ h h' => RumorMongerProtocol.Spends.trans h h'⟩

theorem messageArrived_pays (u : Umsgpack) (key : Value → Except Exn ι) (m : GossipMessage)
    (c : Circumstances) : Coro.Moves (Pays u key m c)
    (gossiper (RumorMongerProtocol.messageArrived (rumor u key) c.toSurroundings m)) :=
  Coro.Moves.zoom fun s => RumorMongerProtocol.messageArrived_spends _ _ _ s.globalGossip

theorem globalGossipMessageHandler_pays (u : Umsgpack) (key : Value → Except Exn ι) (m : GossipMessage)
    (c : Circumstances) : Coro.Moves (Pays u key m c) (globalGossipMessageHandler u key m c) :=
  .bind (.ofExcept _) fun _ => messageArrived_pays u key m c

theorem answer_pays : Coro.Moves (Pays u key m c) (answer u me m fromAddr c) := by
  intro s
  refine Coro.Moves.bind_at ?_ fun reply t hr => ?_
  · rw [(requestArrived_cases u me m fromAddr c s).1]
    exact Std.Refl.refl s
  · cases reply with
    | none => exact Std.Refl.refl t
    | some data => exact .refl _ _ _ _

theorem searchReqHandler_pays : Coro.Moves (Pays u key m c) (searchReqHandler u key me m fromAddr c) := by
  refine .bind ?_ fun _ => answer_pays
  exact .bind (.ofExcept _) fun id => .bind (.get _) fun isSeen =>
    .ite (fun _ => .pure ()) fun _ => globalGossipMessageHandler_pays u key m c

theorem searchReplyHandler_pays : Coro.Moves (Pays u key m c) (searchReplyHandler u printer key m c) := by
  refine .bind (.ofExcept _) fun _ => .bind (messageArrived_pays u key m c) fun _ => ?_
  refine .bind (.ofExcept _) fun id => .bind (.get _) fun resultIter => ?_
  cases resultIter with
  | none => exact .pure ()
  | some it => exact .bind (.ofExcept _) fun r => .modify fun s => .refl _ _ _ _

theorem submit_pays (u : Umsgpack) (printer : Printer) (key : Value → Except Exn ι) (me : RemotePeer)
    (m : GossipMessage) (fromAddr : Address) (c : Circumstances) :
    Coro.Moves (Pays u key m c) (submit u printer key me m fromAddr c) := by
  rcases submit_cases u printer key me m fromAddr c with ⟨-,h⟩ | ⟨-,h⟩ | ⟨-,h⟩ | ⟨e,h⟩
  · rw [h]
    exact globalGossipMessageHandler_pays u key m c
  · rw [h]
    exact searchReqHandler_pays
  · rw [h]
    exact searchReplyHandler_pays
  · rw [h]
    exact .raise e

/-! What one event at a node costs. -/

/-- The datagram carries the rumor of that key. -/
def carries (u : Umsgpack) (key : Value → Except Exn ι) (k : ι) (d : Posted Address) : Bool :=
  rumorOf u key d = some k

theorem carries_iff : carries u key k d = true ↔ ∃ event, d.event? u = some event ∧
    event.request.header ≠ GossipHeaders.searchReply ∧ key event.request.id = .ok k := by
  unfold carries rumorOf
  cases d.event? u with
  | none => simp
  | some event =>
    simp only [decide_eq_true_eq, Option.some.injEq, exists_eq_left', GossipHeaders.searchReply]
    split
    next hh => simp [hh]
    next hh =>
      have hne : event.request.header ≠ .str [ '\x02'] := hh
      cases key event.request.id <;> simp [Except.toOption, hne]

/-- All the datagrams that a node sends about a rumor are paid for by peers that it has not told it yet. -/
structure Affords (u : Umsgpack) (key : Value → Except Exn ι) (peerIds : List (List Char)) (new : ι → Prop)
    (s : GossipNode ι) (r : Reaction (GossipNode ι) (Posted Address)) : Prop where
  cost : ∀ k, r.sends.countP (carries u key k)+(s.globalGossip.told k).card ≤
    (r.state.globalGossip.told k).card
  known : ∀ k, r.state.globalGossip.told k ⊆ s.globalGossip.told k ∪ peerIds.toFinset
  entered : ∀ k ∈ r.state.globalGossip.messageList, k ∈ s.globalGossip.messageList ∨ new k

theorem Affords.silent {peerIds : List (List Char)} {new : ι → Prop}
    {r : Reaction (GossipNode ι) (Posted Address)} (hsends : r.sends = [])
    (hstate : r.state.globalGossip = s.globalGossip) : Affords u key peerIds new s r where
  cost k := by
    rw [hsends, hstate, List.countP_nil, Nat.zero_add]
  known k := by
    rw [hstate]
    exact Finset.subset_union_left
  entered k hk := by
    rw [hstate] at hk
    exact .inl hk

/-- A reply carries no rumor. -/
theorem not_carries_reply {id : Value} {serialized : Bytes} {t : ℚ}
    (h : datagramOf u GossipTransport.new (prepareReply id serialized t).actualData = .ok d.data) :
    ¬ carries u key k d = true := by
  rw [carries_iff]
  rintro ⟨event,he,hheader,-⟩
  rw [(event_of_gossip h he).1] at hheader
  exact hheader rfl

/-- The datagrams that carry a rumor are sent by the protocol. -/
theorem countP_posts_le (hreplies : ∀ r ∈ s.replies, ∃ id serialized t,
      datagramOf u GossipTransport.new (prepareReply id serialized t).actualData = .ok r.2) :
    (posts u n c s).countP (carries u key k) ≤
      s.globalGossip.sent.countP (RumorMongerProtocol.about (rumor u key) k) := by
  have hzero : (s.replies.map fun r => (⟨n,r.1,r.2⟩ : Posted Address)).countP (carries u key k) = 0 := by
    refine List.countP_eq_zero.mpr fun d hd => ?_
    obtain ⟨r,hr,rfl⟩ := List.mem_map.mp hd
    obtain ⟨id,serialized,t,hdata⟩ := hreplies r hr
    exact not_carries_reply hdata
  rw [posts, List.countP_append, hzero, Nat.add_zero, List.countP_filterMap]
  refine List.countP_mono_left fun x _ hx => ?_
  cases hdata : datagramOf u GossipTransport.new x.1.actualData with
  | error e =>
    rw [hdata] at hx
    cases hx
  | ok data =>
    rw [hdata] at hx
    obtain ⟨event,he,-,hk⟩ := carries_iff.mp hx
    rw [(event_of_gossip (d := ⟨n,c.reqUri x.2,data⟩) hdata he).1] at hk
    simp [RumorMongerProtocol.about, rumor, gossipRumor, show key x.1.id = .ok k from hk, Except.toOption]

theorem Affords.of_posts {new : ι → Prop} {r : Reaction (GossipNode ι) (Posted Address)}
    (h : RumorMongerProtocol.Spends (rumor u key) c.peerIds new (fresh s).globalGossip s'.globalGossip)
    (hreplies : ∀ r ∈ s'.replies, ∃ id serialized t,
      datagramOf u GossipTransport.new (prepareReply id serialized t).actualData = .ok r.2)
    (hsends : r.sends = posts u n c s') (hstate : r.state.globalGossip = s'.globalGossip) :
    Affords u key c.peerIds new s r where
  cost k := by
    have hcost : s'.globalGossip.sent.countP (RumorMongerProtocol.about (rumor u key) k)+
        (s.globalGossip.told k).card ≤ 0+(s'.globalGossip.told k).card := h.cost k
    have hle : (posts u n c s').countP (carries u key k) ≤
        s'.globalGossip.sent.countP (RumorMongerProtocol.about (rumor u key) k) := countP_posts_le hreplies
    rw [hsends, hstate]
    omega
  known k := by
    rw [hstate]
    exact h.known k
  entered k hk := by
    rw [hstate] at hk
    exact h.entered k hk

/-- A datagram costs what the rumor in it does, and enters it only with the fields that are checked. -/
theorem onDatagram_affords (u : Umsgpack) (printer : Printer) (key : Value → Except Exn ι)
    (me : Address → RemotePeer) (n : Address) (d : Posted Address) (c : Circumstances)
    (s : GossipNode ι) :
    Affords u key c.peerIds (fun k => ∃ event, d.event? u = some event ∧ key event.request.id = .ok k ∧
      (⟨event.request⟩ : GossipMessage).fieldsCheck = true) s (onDatagram u printer key me n d c s) := by
  unfold onDatagram
  split
  · exact .silent rfl rfl
  next event he =>
    split
    · exact .silent rfl rfl
    · split
      · exact .silent rfl rfl
      · split
        · have hpays := submit_pays u printer key (me n) ⟨event.request⟩ event.fromAddr c (fresh s)
          have hhandled : Handled u printer key (me n) ⟨event.request⟩ event.fromAddr c (fresh s)
              (submit u printer key (me n) ⟨event.request⟩ event.fromAddr c (fresh s)).state :=
            submit_handled (fresh s)
          refine .of_posts (hpays.mono fun k hk => ⟨event,he,hk⟩) (fun r hr => ?_) task_eq.2 ?_
          · obtain ⟨-,-,-,serialized,-,hdata⟩ := (hhandled.replies r hr).resolve_left List.not_mem_nil
            exact ⟨_,serialized,c.time,hdata⟩
          · unfold task
            cases submit u printer key (me n) ⟨event.request⟩ event.fromAddr c (fresh s) <;> rfl
        · exact .silent rfl rfl

/-- The message that an input begins to spread. -/
def message? : Input ι → Option GossipMessage
  | .searchFor q id c => some (prepareSearchMessage q id c.time)
  | .gossipMessage m _ => some m
  | _ => none

/-- The key of the rumor that an input begins. -/
def inputKey? (key : Value → Except Exn ι) (i : Input ι) : Option ι :=
  (message? i).bind fun m => (key m.id).toOption

omit [DecidableEq ι] in
theorem inputKey?_of_message {i : Input ι} (h : message? i = some m) (hk : key m.id = .ok k) :
    inputKey? key i = some k := by
  rw [inputKey?, h, Option.bind_some, hk]
  rfl

/-- The peers that an input finds. -/
def inputPeers : Input ι → List (List Char)
  | .searchFor _ _ c | .gossipMessage _ c => c.peerIds
  | _ => []

/-- So does an input that begins a rumor which the node has not met. -/
theorem onInput_affords (n : Address) (s : GossipNode ι) (i : Input ι)
    (hnew : ∀ k, inputKey? key i = some k → k ∉ s.globalGossip.messageList) :
    Affords u key (inputPeers i) (fun k => inputKey? key i = some k) s (onInput u key n s i) := by
  have hgossip : ∀ (m : GossipMessage) (c : Circumstances),
      (∀ k, key m.id = .ok k → k ∉ s.globalGossip.messageList) →
      RumorMongerProtocol.Spends (rumor u key) c.peerIds (fun k => key m.id = .ok k) (fresh s).globalGossip
        (gossiper (RumorMongerProtocol.gossipMessage (rumor u key) c.toSurroundings m) (fresh s)).state.globalGossip ∧
      (gossiper (RumorMongerProtocol.gossipMessage (rumor u key) c.toSurroundings m) (fresh s)).state.replies = [] := by
    intro m c hm
    rw [gossiper, Coro.zoom_apply, Run.state_within]
    exact ⟨@RumorMongerProtocol.gossipMessage_spends _ _ _ _ _ _ c.toSurroundings _ _ hm,rfl⟩
  have hread : ∀ id f, Affords u key [] (fun k => (none : Option ι) = some k) s ⟨read id f s,[]⟩ := by
    intro id f
    refine .silent rfl ?_
    unfold read
    dsimp only
    split <;> rfl
  cases i with
  | searchFor q id c =>
    obtain ⟨hspends,hreplies⟩ := hgossip (prepareSearchMessage q id c.time) c fun k hk =>
      hnew k (inputKey?_of_message rfl hk)
    obtain ⟨t,ht,-,hs⟩ := searchFor_cases u key q id c (fresh s)
    rw [← ht] at hspends hreplies
    refine Affords.of_posts ?_ (fun r hr => ?_)
      (rfl : _ = posts u n c (searchFor u key q id c (fresh s)).state) rfl
    · have hsame : (searchFor u key q id c (fresh s)).state.globalGossip = t.globalGossip := by
        rcases hs with hs | ⟨k,-,hs⟩ <;> rw [hs]
      rw [hsame]
      exact hspends.mono fun k hk => inputKey?_of_message rfl hk
    · have hsame : (searchFor u key q id c (fresh s)).state.replies = t.replies := by
        rcases hs with hs | ⟨k,-,hs⟩ <;> rw [hs]
      rw [hsame, hreplies] at hr
      cases hr
  | gossipMessage m c =>
    obtain ⟨hspends,hreplies⟩ := hgossip m c fun k hk => hnew k (inputKey?_of_message rfl hk)
    refine Affords.of_posts (n := n) (hspends.mono fun k hk => inputKey?_of_message rfl hk)
      (fun r hr => ?_) rfl rfl
    rw [hreplies] at hr
    cases hr
  | aiter id now => exact hread id _
  | anext id now => exact hread id _
  | wake id => exact hread id _
  | expire id now => exact hread id _

/-! The network. -/

/-- The key of the rumor that an event begins. -/
def begun? (key : Value → Except Exn ι) : Event ι → Option ι
  | .act _ i => inputKey? key i
  | .deliver _ _ _ => none

/-- The peers that a node finds at an event. -/
def found (n : Address) : Event ι → List (List Char)
  | .act m i => if m = n then inputPeers i else []
  | .deliver m _ c => if m = n then c.peerIds else []

/-- All the peers that a node has known at one time or another. -/
def known (n : Address) (es : List (Event ι)) : Finset (List Char) := (es.flatMap (found n)).toFinset

/-- Somebody gossips this message, be it as the request of a search. -/
def Begins (es : List (Event ι)) (m : GossipMessage) : Prop := ∃ n i, .act n i ∈ es ∧ message? i = some m

variable {es : List (Event ι)} {m' : GossipMessage}

omit [DecidableEq ι] in
theorem Begins.mem_begun (h : Begins es m) (hk : key m.id = .ok k) : k ∈ es.filterMap (begun? key) := by
  obtain ⟨n,i,hmem,hm⟩ := h
  exact List.mem_filterMap.mpr ⟨_,hmem,inputKey?_of_message hm hk⟩

omit [DecidableEq ι] in
/-- With ids of their own, there is one message for each rumor. -/
theorem Begins.unique (hes : (es.filterMap (begun? key)).Nodup) (h : Begins es m) (h' : Begins es m')
    (hk : key m.id = .ok k) (hk' : key m'.id = .ok k) : m' = m := by
  induction es with
  | nil =>
    obtain ⟨n,i,hmem,-⟩ := h
    cases hmem
  | cons e es ih =>
    have hrest : (es.filterMap (begun? key)).Nodup := hes.sublist ((List.sublist_cons_self e es).filterMap _)
    have hsplit : ∀ {m₁ : GossipMessage}, Begins (e::es) m₁ → Begins [e] m₁ ∨ Begins es m₁ := by
      rintro m₁ ⟨n,i,hmem,hm⟩
      rcases List.mem_cons.mp hmem with he | hmem
      · exact .inl ⟨n,i,List.mem_singleton.mpr he,hm⟩
      · exact .inr ⟨n,i,hmem,hm⟩
    have hapart : ∀ {m₁ m₂ : GossipMessage}, Begins [e] m₁ → Begins es m₂ → key m₁.id = .ok k →
        key m₂.id ≠ .ok k := by
      intro m₁ m₂ h₁ h₂ hk₁ hk₂
      obtain ⟨n,i,hmem,hm⟩ := h₁
      obtain rfl := List.mem_singleton.mp hmem
      have hbegun : begun? key (.act n i : Event ι) = some k := inputKey?_of_message hm hk₁
      rw [List.filterMap_cons_some hbegun, List.nodup_cons] at hes
      exact hes.1 (h₂.mem_begun hk₂)
    rcases hsplit h with h | h
    · rcases hsplit h' with h' | h'
      · obtain ⟨n,i,hmem,hm⟩ := h
        obtain ⟨n',i',hmem',hm'⟩ := h'
        cases (List.mem_singleton.mp hmem).trans (List.mem_singleton.mp hmem').symm
        exact Option.some.inj (hm'.symm.trans hm)
      · exact absurd hk' (hapart h h' hk)
    · rcases hsplit h' with h' | h'
      · exact absurd hk (hapart h' h hk')
      · exact ih hrest h h'

variable {me : Address → RemotePeer}

/-- Whatever reaches a node has been sent as somebody has begun it, or is a reply. -/
theorem content_cause : ∀ d ∈ (run u printer key me es).sent, ∀ event, d.event? u = some event →
    (∃ m, Begins es m ∧ event.request = m.actualData ∧
      datagramOf u GossipTransport.new m.actualData = .ok d.data) ∨
    ∃ id serialized t, event.request = (prepareReply id serialized t).actualData := by
  refine (Datagrams.run_invariant (fun _ _ => True) _ (fun n i => .act n i ∈ es) ?_ ?_
    (fun _ => trivial) (fun d hd => absurd hd List.not_mem_nil) fun _ _ h => h).2
  · intro n i s hi _
    refine ⟨trivial,fun d hd event he => .inl ?_⟩
    obtain ⟨m,c,p,hm,-,-,-,hdata⟩ := onInput_sends hd
    refine ⟨m,⟨n,i,hi,?_⟩,(event_of_gossip hdata he).1,hdata⟩
    rcases hm with rfl | ⟨q,id,rfl,rfl⟩ <;> rfl
  · intro n d c s _ hd _
    refine ⟨trivial,fun d' hd' event' he' => ?_⟩
    obtain ⟨event,he,⟨-,hdata⟩ | ⟨-,-,-,serialized,-,hdata⟩⟩ := onDatagram_sends hd'
    · have hw := (event_of_gossip hdata he').1
      rw [hw]
      refine (hd event he).imp_left ?_
      rintro ⟨m,hm,hrequest,-⟩
      exact ⟨m,hm,hrequest,by rw [← hrequest]; exact hdata⟩
    · exact .inr ⟨_,serialized,c.time,(event_of_gossip (d := d') hdata he').1⟩

theorem carried_cause (hd : d ∈ (run u printer key me es).sent) (hk : rumorOf u key d = some k) :
    ∃ m, Begins es m ∧ key m.id = .ok k ∧ datagramOf u GossipTransport.new m.actualData = .ok d.data := by
  obtain ⟨event,he,hheader,hid⟩ := carries_iff.mp (decide_eq_true hk)
  rcases content_cause d hd event he with ⟨m,hm,hrequest,hdata⟩ | ⟨id,serialized,t,hrequest⟩
  · rw [hrequest] at hid
    exact ⟨m,hm,hid,hdata⟩
  · rw [hrequest] at hheader
    exact absurd rfl hheader

/-- A node sends from its own address. -/
theorem source_of_sends {x : Stimulus (Input ι) Circumstances (Posted Address)}
    (h : d ∈ ((parties u printer key me).react n x s).sends) : d.source = n := by
  cases x with
  | input i =>
    obtain ⟨m,c,p,-,-,hsource,-,-⟩ := onInput_sends h
    exact hsource
  | datagram d' c =>
    rcases onDatagram_cases u printer key me n d' c s with ⟨-,hnone⟩ | ⟨event,s',-,-,-,hposts⟩
    · change d ∈ (onDatagram u printer key me n d' c s).sends at h
      rw [hnone] at h
      cases h
    · change d ∈ (onDatagram u printer key me n d' c s).sends at h
      rw [hposts, mem_posts] at h
      rcases h with ⟨y,-,data,-,rfl⟩ | ⟨r,-,rfl⟩ <;> rfl

/-- The datagram carries the rumor of that key from that node. -/
def carriesFrom (u : Umsgpack) (key : Value → Except Exn ι) (n : Address) (k : ι) (d : Posted Address) :
    Bool := decide (d.source = n) && carries u key k d

/-- The peers that a node has told a rumor pay for the datagrams it has sent about it, and only rumors that
have been begun are in its list. -/
structure Spread (u : Umsgpack) (key : Value → Except Exn ι) (es : List (Event ι))
    (net : Datagrams Address (GossipNode ι) (Posted Address)) : Prop where
  cost : ∀ n k, net.sent.countP (carriesFrom u key n k) ≤ ((net.node n).globalGossip.told k).card
  known : ∀ n k, (net.node n).globalGossip.told k ⊆ known n es
  begun : ∀ n, ∀ k ∈ (net.node n).globalGossip.messageList, k ∈ es.filterMap (begun? key)

omit [DecidableEq ι] in
theorem known_concat (n : Address) (es : List (Event ι)) (e : Event ι) :
    known n (es ++ [e]) = known n es ∪ (found n e).toFinset := by
  simp [known, List.toFinset_append]

/-- A node that affords what it does keeps the network so. -/
theorem Spread.apply {net : Datagrams Address (GossipNode ι) (Posted Address)} {e : Event ι}
    {peerIds : List (List Char)} {new : ι → Prop} {r : Reaction (GossipNode ι) (Posted Address)}
    (h : Spread u key es net) (hr : Affords u key peerIds new (net.node n) r)
    (hsource : ∀ d ∈ r.sends, d.source = n) (hfound : peerIds = found n e)
    (hnew : ∀ k, new k → k ∈ (es ++ [e]).filterMap (begun? key)) :
    Spread u key (es ++ [e]) (net.apply n r) := by
  have hother : ∀ n' ≠ n, ∀ k, r.sends.countP (carriesFrom u key n' k) = 0 := by
    refine fun n' hn' k => List.countP_eq_zero.mpr fun d hd hc => hn' ?_
    rw [carriesFrom, Bool.and_eq_true, decide_eq_true_eq] at hc
    exact hc.1.symm.trans (hsource d hd)
  have hself : ∀ k, r.sends.countP (carriesFrom u key n k) ≤ r.sends.countP (carries u key k) := by
    refine fun k => List.countP_mono_left fun d _ hc => ?_
    rw [carriesFrom, Bool.and_eq_true] at hc
    exact hc.2
  refine ⟨fun n' k => ?_,fun n' k => ?_,fun n' k hk => ?_⟩
  · change (net.sent ++ r.sends).countP _ ≤ _
    rw [List.countP_append]
    have hbefore := h.cost n' k
    by_cases hn : n' = n
    · subst hn
      rw [Datagrams.apply_node_self]
      have hcost := hr.cost k
      have hle := hself k
      omega
    · rw [Datagrams.apply_node_ne hn, hother n' hn k]
      exact hbefore
  · rw [known_concat]
    by_cases hn : n' = n
    · subst hn
      rw [Datagrams.apply_node_self]
      refine (hr.known k).trans ?_
      rw [hfound]
      exact Finset.union_subset_union_left (h.known n' k)
    · rw [Datagrams.apply_node_ne hn]
      exact (h.known n' k).trans Finset.subset_union_left
  · by_cases hn : n' = n
    · subst hn
      rw [Datagrams.apply_node_self] at hk
      rcases hr.entered k hk with hk | hk
      · rw [List.filterMap_append]
        exact List.mem_append_left _ (h.begun n' k hk)
      · exact hnew k hk
    · rw [Datagrams.apply_node_ne hn] at hk
      rw [List.filterMap_append]
      exact List.mem_append_left _ (h.begun n' k hk)

theorem Spread.mono {net : Datagrams Address (GossipNode ι) (Posted Address)} (h : Spread u key es net)
    (e : Event ι) : Spread u key (es ++ [e]) net where
  cost := h.cost
  known n k := by
    rw [known_concat]
    exact (h.known n k).trans Finset.subset_union_left
  begun n k hk := by
    rw [List.filterMap_append]
    exact List.mem_append_left _ (h.begun n k hk)

theorem spread_start (u : Umsgpack) (key : Value → Except Exn ι) : Spread u key [] start where
  cost _ _ := Nat.zero_le _
  known n k := by
    rw [RumorMongerProtocol.told_of_not_mem (AList.notMem_empty k)]
    exact Finset.empty_subset _
  begun n k hk := absurd hk (AList.notMem_empty k)

theorem spread_run (u : Umsgpack) (printer : Printer) (key : Value → Except Exn ι)
    (me : Address → RemotePeer) (hes : (es.filterMap (begun? key)).Nodup) :
    Spread u key es (run u printer key me es) := by
  induction es using List.reverseRecOn with
  | nil => exact spread_start u key
  | append_singleton es e ih =>
    have hes' : (es.filterMap (begun? key)).Nodup := hes.sublist ((List.sublist_append_left es [e]).filterMap _)
    have hspread := ih hes'
    rw [run, Datagrams.run_append]
    change Spread u key (es ++ [e]) (Datagrams.step (parties u printer key me) (run u printer key me es) e)
    cases hs : Datagrams.stirred (parties u printer key me) (run u printer key me es) e with
    | none =>
      simp only [Datagrams.step, hs]
      exact hspread.mono e
    | some nx =>
      obtain ⟨n,x⟩ := nx
      rw [Datagrams.step_of_stirred hs]
      rcases Datagrams.stirred_cases hs with ⟨i,rfl,rfl⟩ | ⟨j,d,c,rfl,rfl,hd,-⟩
      · refine hspread.apply (onInput_affords n _ i fun k hk hin => ?_) (fun d hd => source_of_sends hd)
          (if_pos rfl).symm fun k hk => ?_
        · rw [List.filterMap_append, List.nodup_append] at hes
          refine hes.2.2 k (hspread.begun n k hin) k ?_ rfl
          exact List.mem_filterMap.mpr ⟨_,List.mem_singleton_self _,hk⟩
        · rw [List.filterMap_append]
          exact List.mem_append_right _ (List.mem_filterMap.mpr ⟨_,List.mem_singleton_self _,hk⟩)
      · refine hspread.apply (onDatagram_affords u printer key me n d c _) (fun d hd => source_of_sends hd)
          (if_pos rfl).symm fun k hk => ?_
        obtain ⟨event,he,hid,hf⟩ := hk
        rw [List.filterMap_append]
        refine List.mem_append_left _ ?_
        rcases content_cause d hd event he with ⟨m,hm,hrequest,-⟩ | ⟨id,serialized,t,hrequest⟩
        · rw [hrequest] at hid
          exact hm.mem_begun hid
        · rw [hrequest] at hf
          exact absurd (prepareReply_fieldsCheck id serialized t) (by rw [hf]; exact Bool.true_eq_false.mp)

/-- A rumor is the same wherever it is met: all the datagrams that carry it have the bytes of the message
that somebody has begun. -/
theorem rumors_unaltered (u : Umsgpack) (printer : Printer) (key : Value → Except Exn ι)
    (me : Address → RemotePeer) (es : List (Event ι)) (hes : (es.filterMap (begun? key)).Nodup)
    (d : Posted Address) (hd : d ∈ (run u printer key me es).sent) (k : ι)
    (hk : rumorOf u key d = some k) :
    ∃ m, Begins es m ∧ key m.id = .ok k ∧
      ∀ d' ∈ (run u printer key me es).sent, rumorOf u key d' = some k →
        datagramOf u GossipTransport.new m.actualData = .ok d'.data := by
  obtain ⟨m,hm,hid,-⟩ := carried_cause hd hk
  refine ⟨m,hm,hid,fun d' hd' hk' => ?_⟩
  obtain ⟨m',hm',hid',hdata'⟩ := carried_cause hd' hk'
  rwa [hm.unique hes hm' hid hid'] at hdata'

/-- However often a rumor comes back, and whatever is lost, repeated or reordered, a node sends it no more
often than it has known peers. -/
theorem rumors_bounded (u : Umsgpack) (printer : Printer) (key : Value → Except Exn ι)
    (me : Address → RemotePeer) (es : List (Event ι)) (hes : (es.filterMap (begun? key)).Nodup)
    (n : Address) (k : ι) :
    (run u printer key me es).sent.countP (carriesFrom u key n k) ≤ (known n es).card := by
  have hspread := spread_run u printer key me hes
  exact (hspread.cost n k).trans (Finset.card_le_card (hspread.known n k))

/-! A rumor that one node begins and the other passes on, back to where it comes from and to a third. -/

def carol : Address := (['c'],3)

def news : GossipMessage where
  actualData :=
    { header := GossipHeaders.message
      id := .str ['s']
      version := .float (.finite 1)
      body := [("message".toList,.str ['h','i']),("created".toList,.float (.finite 0)),
        ("ttl".toList,.int 3),("id".toList,.str ['s'])]
      peerId := .nil }

def newsBytes : Bytes :=
  [0x95,0xa1,0,0xa1,0x73,0xcb,0x3f,0xf0,0,0,0,0,0,0,0x84,0xa7,0x6d,0x65,0x73,0x73,0x61,0x67,0x65,0xa2,0x68,0x69,
    0xa7,0x63,0x72,0x65,0x61,0x74,0x65,0x64,0xcb,0,0,0,0,0,0,0,0,0xa3,0x74,0x74,0x6c,3,0xa2,0x69,0x64,0xa1,0x73,
    0xc0]

/-- A package that knows the rumor. -/
def newsPacker : Umsgpack :=
  Umsgpack.table
    (fun
      | .array [.str h,.str i,.float (.finite v),
          .map [(.str a,.str m),(.str b,.float (.finite t)),(.str c,.int n),(.str d,.str j)],.nil] =>
        if h = ['\x00'] ∧ i = ['s'] ∧ v = 1 ∧ a = "message".toList ∧ m = ['h','i'] ∧ b = "created".toList ∧
          t = 0 ∧ c = "ttl".toList ∧ n = 3 ∧ d = "id".toList ∧ j = ['s'] then some 0 else none
      | _ => none)
    ![.array [GossipHeaders.message,.str ['s'],.float (.finite 1),
        .map [(.str "message".toList,.str ['h','i']),(.str "created".toList,.float (.finite 0)),
          (.str "ttl".toList,.int 3),(.str "id".toList,.str ['s'])],.nil]]
    ![newsBytes]
    (by
      intro v i h
      split at h
      · split at h
        next hv =>
          obtain ⟨rfl,rfl,rfl,rfl,rfl,rfl,rfl,rfl,rfl,rfl,rfl⟩ := hv
          cases h
          rfl
        · cases h
      · cases h)
    (by decide)

/-- The other node knows the first one and the third. -/
def twoKnown : Circumstances :=
  ⟨⟨[['p'],['q']],by decide,Fin.last,0,0,0⟩,fun id => if id = ['p'] then searcher else carol,true⟩

def newsEvents : List (Event (List Char)) :=
  [.act searcher (.gossipMessage news bobKnown),.deliver bob 0 twoKnown,.deliver searcher 1 bobKnown,
    .deliver carol 2 bobKnown]

/-- The rumor, as the other node has passed it on to the third. -/
def newsPosted : Posted Address := ⟨bob,carol,RequestsHeaders.gossip ++ [0,0,0,54] ++ newsBytes⟩

/-- The other node passes the rumor on. -/
theorem news_passed :
    (run newsPacker searchPrinter textKey (fun _ => bobPeer) newsEvents).sent[2]? = some newsPosted := by
  decide +kernel

theorem rumors_unaltered_bob : ∃ m, Begins newsEvents m ∧ textKey m.id = .ok ['s'] ∧
    ∀ d' ∈ (run newsPacker searchPrinter textKey (fun _ => bobPeer) newsEvents).sent,
      rumorOf newsPacker textKey d' = some ['s'] →
        datagramOf newsPacker GossipTransport.new m.actualData = .ok d'.data :=
  rumors_unaltered newsPacker searchPrinter textKey (fun _ => bobPeer) newsEvents
    (List.nodup_singleton _) newsPosted (List.mem_of_getElem? news_passed) ['s'] rfl

theorem rumors_bounded_bob :
    (run newsPacker searchPrinter textKey (fun _ => bobPeer) newsEvents).sent.countP
      (carriesFrom newsPacker textKey bob ['s']) ≤ (known bob newsEvents).card :=
  rumors_bounded newsPacker searchPrinter textKey (fun _ => bobPeer) newsEvents
    (List.nodup_singleton _) bob ['s']

end GossipSearch
end PeerConnect.Core
