import PeerConnect.Core.GossipSearch

/-! What one event at a node can send, and which answers it can add to an iterator. -/
namespace PeerConnect.Transfers.RumorMongerProtocol
open Library Wire

variable {μ ι π : Type} [DecidableEq ι] [DecidableEq π]
variable {rumor : Rumor μ ι} {env : Surroundings π} {message : μ} {s : RumorMongerProtocol μ ι π}

/-- A message that is gossiped goes to peers of a sample from all. -/
theorem gossipMessage_sent {x : μ × π} (h : x ∈ (gossipMessage rumor env message s).state.sent) :
    x ∈ s.sent ∨ x.1 = message ∧ x.2 ∈ Reservoir.sample alpha env.draw env.peerIds := by
  cases hr : rumor.repr message with
  | error e => exact .inl (by simpa [gossipMessage, hr] using h)
  | ok _ =>
    cases hid : rumor.id message with
    | error e => exact .inl (by simpa [gossipMessage, push, hr, hid] using h)
    | ok k =>
      set item : RumorMessageItem ι π := ⟨k,env.monotonic,rumor.created message,∅⟩ with hitem
      have hsampled : sampled env item = Reservoir.sample alpha env.draw env.peerIds := by
        rw [sampled, List.filter_eq_self.mpr fun p _ => decide_eq_true (Finset.notMem_empty p)]
      rw [gossipMessage_of_id hr hid, ← hitem, gossipForward_of_lookup hid (AList.lookup_insert _)] at h
      obtain ⟨part,hpart,hs⟩ := forwardAll_state rumor env message (sampled env item)
        (enter { s with messageList := s.messageList.insert k item } k item (sampled env item))
      rw [hs] at h
      rcases List.mem_append.mp h with h | h
      · exact .inl h
      · obtain ⟨p,hp,rfl⟩ := List.mem_map.mp h
        exact .inr ⟨rfl,hsampled ▸ hpart.subset hp⟩

/-- It goes to no more of them than the sample has. -/
theorem gossipMessage_sent_length (rumor : Rumor μ ι) (env : Surroundings π) (message : μ)
    (s : RumorMongerProtocol μ ι π) :
    (gossipMessage rumor env message s).state.sent.length ≤ s.sent.length+alpha := by
  cases hr : rumor.repr message with
  | error e => simp [gossipMessage, hr]
  | ok _ =>
    cases hid : rumor.id message with
    | error e => simp [gossipMessage, push, hr, hid]
    | ok k =>
      rw [gossipMessage_of_id hr hid, gossipForward_of_lookup hid (AList.lookup_insert _)]
      set item : RumorMessageItem ι π := ⟨k,env.monotonic,rumor.created message,∅⟩
      obtain ⟨part,hpart,hs⟩ := forwardAll_state rumor env message (sampled env item)
        (enter { s with messageList := s.messageList.insert k item } k item (sampled env item))
      have hlength : (sampled env item).length ≤ alpha := by
        rw [sampled, Reservoir.sample_length]
        exact min_le_left _ _
      rw [hs, List.length_append, List.length_map]
      exact Nat.add_le_add_left (hpart.length_le.trans hlength) _

/-- A message that arrives is all that is sent, and only if it has the fields that are checked. -/
theorem messageArrived_sent {x : μ × π} (h : x ∈ (messageArrived rumor env message s).state.sent) :
    x ∈ s.sent ∨ x.1 = message ∧ rumor.fieldsCheck message = true := by
  cases hf : rumor.fieldsCheck message with
  | false => exact .inl (by simpa [messageArrived, hf] using h)
  | true =>
    rcases messageArrived_cases rumor env message s with hs | ⟨k,hid,-,hs⟩
    · rw [hs] at h
      exact .inl h
    · rw [hs] at h
      split at h
      · rcases gossipForward_cases rumor env message s with hs' | ⟨k',item,part,-,-,-,hs'⟩
        · rw [hs'] at h
          exact .inl h
        · rw [hs'] at h
          rcases List.mem_append.mp h with h | h
          · exact .inl h
          · obtain ⟨p,-,rfl⟩ := List.mem_map.mp h
            exact .inr ⟨rfl,rfl⟩
      · exact (gossipMessage_sent h).imp_right fun h => ⟨h.1,rfl⟩

end PeerConnect.Transfers.RumorMongerProtocol

namespace PeerConnect.Core
open Library Wire Kademlia Transfers

namespace GossipSearch
variable {ι : Type} [DecidableEq ι]

/-- What has been sent besides is as it should be, and the iterators are the same. -/
structure Sends (P : GossipMessage × List Char → Prop) (Q : Address × Bytes → Prop)
    (s s' : GossipNode ι) : Prop where
  sent : ∀ x ∈ s'.globalGossip.sent, x ∈ s.globalGossip.sent ∨ P x
  replies : ∀ r ∈ s'.replies, r ∈ s.replies ∨ Q r
  iterators : s'.messageStateDict = s.messageStateDict

variable {P P' : GossipMessage × List Char → Prop} {Q Q' : Address × Bytes → Prop}
variable {s s' : GossipNode ι}

instance : Std.Refl (Sends P Q : GossipNode ι → GossipNode ι → Prop) := ⟨fun _ => ⟨fun _ => .inl,fun _ => .inl,rfl⟩⟩

instance : IsTrans (GossipNode ι) (Sends P Q) where
  trans s s' s'' h h' := by
    refine ⟨fun x hx => ?_,fun r hr => ?_,h'.iterators.trans h.iterators⟩
    · exact (h'.sent x hx).elim (h.sent x) .inr
    · exact (h'.replies r hr).elim (h.replies r) .inr

omit [DecidableEq ι] in
theorem Sends.mono (h : Sends P Q s s') (hP : ∀ x, P x → P' x) (hQ : ∀ r, Q r → Q' r) :
    Sends P' Q' s s' :=
  ⟨fun x hx => (h.sent x hx).imp_right (hP x),fun r hr => (h.replies r hr).imp_right (hQ r),h.iterators⟩

omit [DecidableEq ι] in
theorem gossiper_sends {x : Coro Exn (RumorMongerProtocol GossipMessage ι (List Char)) Unit}
    (h : ∀ g, ∀ y ∈ (x g).state.sent, y ∈ g.sent ∨ P y) : Coro.Moves (Sends P Q) (gossiper x) :=
  Coro.Moves.zoom fun s => ⟨h s.globalGossip,fun _ => .inl,rfl⟩

variable {u : Umsgpack} {printer : Printer} {key : Value → Except Exn ι} {me : RemotePeer}
variable {m : GossipMessage} {c : Circumstances} {fromAddr : Address}

/-- The message is passed on, having the fields that are checked. -/
def PassedOn (m : GossipMessage) (x : GossipMessage × List Char) : Prop :=
  x.1 = m ∧ m.fieldsCheck = true

/-- The reply is that of the peer to a request from the address. -/
def Answers (u : Umsgpack) (me : RemotePeer) (m : GossipMessage) (fromAddr : Address) (c : Circumstances)
    (r : Address × Bytes) : Prop :=
  r.1 = fromAddr ∧ (∃ q, m.message = .str q ∧ q <:+: me.username) ∧
    ∃ serialized, (PeerObject.ofRemotePeer me).toBytes u = some serialized ∧
      datagramOf u GossipTransport.new (prepareReply m.id serialized c.time).actualData = .ok r.2

theorem messageArrived_sends (u : Umsgpack) (key : Value → Except Exn ι) (m : GossipMessage)
    (c : Circumstances) : Coro.Moves (Sends (PassedOn m) Q)
    (gossiper (RumorMongerProtocol.messageArrived (rumor u key) c.toSurroundings m)) :=
  gossiper_sends fun _ _ hx => RumorMongerProtocol.messageArrived_sent hx

theorem globalGossipMessageHandler_sends :
    Coro.Moves (Sends (PassedOn m) Q) (globalGossipMessageHandler u key m c) :=
  .bind (.ofExcept _) fun _ => messageArrived_sends u key m c

omit [DecidableEq ι] in
/-- What is answered to a request, and that asking changes nothing. -/
theorem requestArrived_cases (u : Umsgpack) (me : RemotePeer) (m : GossipMessage) (fromAddr : Address)
    (c : Circumstances) (s : GossipNode ι) :
    (requestArrived u me m c s).state = s ∧ ∀ data s', requestArrived u me m c s = .done (some data) s' →
      Answers u me m fromAddr c (fromAddr,data) := by
  cases hrel : isRelevant me m.message with
  | error e => simp [requestArrived, hrel]
  | ok relevant =>
    cases relevant with
    | false => simp [requestArrived, hrel]
    | true =>
      cases hser : (PeerObject.ofRemotePeer me).toBytes u with
      | none => simp [requestArrived, hrel, hser]
      | some serialized =>
        cases hd : datagramOf u GossipTransport.new (prepareReply m.id serialized c.time).actualData with
        | error e => simp [requestArrived, hrel, hser, hd]
        | ok bs =>
          refine ⟨by simp [requestArrived, hrel, hser, hd],fun data s' h => ?_⟩
          simp only [requestArrived, hrel, hser, hd, Coro.bind_apply, Coro.ofExcept_ok, Run.bind_done,
            if_true, Coro.pure_apply, Run.done.injEq, Option.some.injEq] at h
          refine ⟨rfl,?_,serialized,hser,by rw [hd, h.1]⟩
          unfold isRelevant at hrel
          split at hrel
          next q hq => exact ⟨q,hq,of_decide_eq_true (Except.ok.inj hrel)⟩
          · cases hrel

omit [DecidableEq ι] in
theorem answer_sends : Coro.Moves (Sends P (Answers u me m fromAddr c))
    (answer u me m fromAddr c : Coro Exn (GossipNode ι) Unit) := by
  intro s
  obtain ⟨hstate,hanswer⟩ := requestArrived_cases u me m fromAddr c s
  refine Coro.Moves.bind_at ?_ fun reply t hr => ?_
  · rw [hstate]
    exact Std.Refl.refl s
  · cases reply with
    | none => exact Std.Refl.refl t
    | some data =>
      refine ⟨fun _ => .inl,fun r hr' => (List.mem_append.mp hr').imp_right fun h => ?_,rfl⟩
      rw [List.mem_singleton.mp h]
      exact hanswer data t hr

theorem searchReqHandler_sends : Coro.Moves (Sends (PassedOn m) (Answers u me m fromAddr c))
    (searchReqHandler u key me m fromAddr c) := by
  refine .bind ?_ fun _ => answer_sends
  exact .bind (.ofExcept _) fun id => .bind (.get _) fun isSeen =>
    .ite (fun _ => .pure ()) fun _ => globalGossipMessageHandler_sends

/-- What handling a message does: it may be passed on, a request for this peer may be answered, and a
reply may be added to the iterator of its search. -/
structure Handled (u : Umsgpack) (printer : Printer) (key : Value → Except Exn ι) (me : RemotePeer)
    (m : GossipMessage) (fromAddr : Address) (c : Circumstances) (s s' : GossipNode ι) : Prop where
  sent : ∀ x ∈ s'.globalGossip.sent, x ∈ s.globalGossip.sent ∨ PassedOn m x
  replies : ∀ r ∈ s'.replies, r ∈ s.replies ∨
    m.header = GossipHeaders.searchReq ∧ Answers u me m fromAddr c r
  iterators : s'.messageStateDict = s.messageStateDict ∨ m.header = GossipHeaders.searchReply ∧
    ∃ id it r, key m.id = .ok id ∧ s.messageStateDict.lookup id = some it ∧
      response u printer m.message = .ok r ∧
      s'.messageStateDict = s.messageStateDict.insert id (it.addPeer r)

theorem Sends.handled (h : Sends (PassedOn m) Q s s')
    (hQ : ∀ r, Q r → m.header = GossipHeaders.searchReq ∧ Answers u me m fromAddr c r) :
    Handled u printer key me m fromAddr c s s' :=
  ⟨h.sent,fun r hr => (h.replies r hr).imp_right (hQ r),.inl h.iterators⟩

/-- A reply adds to the iterator of its id, if there is one and it can be read. -/
theorem replyArrived_handled (hm : m.header = GossipHeaders.searchReply) (s : GossipNode ι) :
    Handled u printer key me m fromAddr c s (replyArrived u printer key m c s).state := by
  have hsends : ∀ t, Sends (PassedOn m) (fun _ => False) s t →
      Handled u printer key me m fromAddr c s t := fun t h => h.handled fun _ => False.elim
  have harrived := messageArrived_sends u key m c (Q := fun _ => False) s
  unfold replyArrived
  rw [Coro.bind_apply]
  cases hr : gossiper (RumorMongerProtocol.messageArrived (rumor u key) c.toSurroundings m) s with
  | raised e t => exact hsends t (by rwa [hr] at harrived)
  | blocked t => exact hsends t (by rwa [hr] at harrived)
  | done _ t =>
    rw [hr] at harrived
    change Sends _ _ s t at harrived
    rw [Run.bind_done, Coro.bind_apply]
    cases hk : key m.id with
    | error e => exact hsends t harrived
    | ok id =>
      rw [Coro.ofExcept_ok, Run.bind_done, Coro.bind_apply, Coro.get_apply, Run.bind_done]
      cases hit : t.messageStateDict.lookup id with
      | none => exact hsends t harrived
      | some it =>
        change Handled u printer key me m fromAddr c s
          ((Coro.ofExcept (response u printer m.message) >>= fun r => Coro.modify fun s =>
            { s with messageStateDict := s.messageStateDict.insert id (it.addPeer r) }) t).state
        rw [Coro.bind_apply]
        cases hresp : response u printer m.message with
        | error e => exact hsends t harrived
        | ok r =>
          refine ⟨harrived.sent,fun x hx => .inl ((harrived.replies x hx).resolve_right not_false),.inr ?_⟩
          refine ⟨hm,id,it,r,hk,by rw [← harrived.iterators, hit],hresp,?_⟩
          rw [← harrived.iterators]
          rfl

/-- The header chooses the handler. -/
theorem submit_cases (u : Umsgpack) (printer : Printer) (key : Value → Except Exn ι) (me : RemotePeer)
    (m : GossipMessage) (fromAddr : Address) (c : Circumstances) :
    m.header = GossipHeaders.message ∧
        submit u printer key me m fromAddr c = globalGossipMessageHandler u key m c ∨
      m.header = GossipHeaders.searchReq ∧
        submit u printer key me m fromAddr c = searchReqHandler u key me m fromAddr c ∨
      m.header = GossipHeaders.searchReply ∧
        submit u printer key me m fromAddr c = searchReplyHandler u printer key m c ∨
      ∃ e, submit u printer key me m fromAddr c = Coro.raise e := by
  unfold submit
  split
  next hm => exact .inl ⟨hm,rfl⟩
  next hm => exact .inr (.inl ⟨hm,rfl⟩)
  next hm => exact .inr (.inr (.inl ⟨hm,rfl⟩))
  · split
    · exact .inr (.inr (.inr ⟨_,rfl⟩))
    · exact .inr (.inr (.inr ⟨_,rfl⟩))

theorem submit_handled (s : GossipNode ι) :
    Handled u printer key me m fromAddr c s (submit u printer key me m fromAddr c s).state := by
  have hsame : Handled u printer key me m fromAddr c s s := ⟨fun _ => .inl,fun _ => .inl,.inl rfl⟩
  rcases submit_cases u printer key me m fromAddr c with ⟨-,h⟩ | ⟨hm,h⟩ | ⟨hm,h⟩ | ⟨e,h⟩
  · rw [h]
    exact (globalGossipMessageHandler_sends (Q := fun _ => False) s).handled fun _ => False.elim
  · rw [h]
    exact (searchReqHandler_sends s).handled fun r hr => ⟨hm,hr⟩
  · rw [h]
    unfold searchReplyHandler
    rw [Coro.bind_apply]
    cases m.repr with
    | error e => exact hsame
    | ok _ => exact replyArrived_handled hm s
  · rw [h]
    exact hsame

/-! The datagrams of an event. -/

variable {n : Address} {d d' : Posted Address} {x : Coro Exn (GossipNode ι) Unit}

omit [DecidableEq ι] in
theorem mem_posts : d ∈ posts u n c s ↔
    (∃ y ∈ s.globalGossip.sent, ∃ data, datagramOf u GossipTransport.new y.1.actualData = .ok data ∧
      d = ⟨n,c.reqUri y.2,data⟩) ∨ ∃ r ∈ s.replies, d = ⟨n,r.1,r.2⟩ := by
  simp only [posts, List.mem_append, List.mem_filterMap, List.mem_map, eq_comm (a := d)]
  refine or_congr_left (exists_congr fun y => and_congr_right fun _ => ?_)
  cases datagramOf u GossipTransport.new y.1.actualData <;> simp

omit [DecidableEq ι] in
/-- A task leaves the iterators and the datagrams as its handler does. -/
theorem task_eq : (task u n c x s).state.messageStateDict = (x (fresh s)).state.messageStateDict ∧
    (task u n c x s).sends = posts u n c (x (fresh s)).state := by
  unfold task
  cases x (fresh s) <;> exact ⟨rfl,rfl⟩

/-- A datagram does nothing to the iterators and sends nothing, or its message is handled. -/
theorem onDatagram_cases (u : Umsgpack) (printer : Printer) (key : Value → Except Exn ι)
    (me : Address → RemotePeer) (n : Address) (d : Posted Address) (c : Circumstances)
    (s : GossipNode ι) :
    ((onDatagram u printer key me n d c s).state.messageStateDict = s.messageStateDict ∧
      (onDatagram u printer key me n d c s).sends = []) ∨
    ∃ event s', d.event? u = some event ∧
      Handled u printer key (me n) ⟨event.request⟩ event.fromAddr c (fresh s) s' ∧
      (onDatagram u printer key me n d c s).state.messageStateDict = s'.messageStateDict ∧
      (onDatagram u printer key me n d c s).sends = posts u n c s' := by
  unfold onDatagram
  split
  · exact .inl ⟨rfl,rfl⟩
  next event he =>
    split
    · exact .inl ⟨rfl,rfl⟩
    · split
      · exact .inl ⟨rfl,rfl⟩
      · split
        · exact .inr ⟨event,_,he,submit_handled (fresh s),task_eq.1,task_eq.2⟩
        · exact .inl ⟨rfl,rfl⟩

/-- What a datagram makes a node send is its own message, if this has the fields that are checked, or the
answer to its request. -/
theorem onDatagram_sends {me : Address → RemotePeer}
    (h : d' ∈ (onDatagram u printer key me n d c s).sends) : ∃ event, d.event? u = some event ∧
      (((⟨event.request⟩ : GossipMessage).fieldsCheck = true ∧
          datagramOf u GossipTransport.new event.request = .ok d'.data) ∨
        event.request.header = GossipHeaders.searchReq ∧
          Answers u (me n) ⟨event.request⟩ event.fromAddr c (d'.destination,d'.data)) := by
  rcases onDatagram_cases u printer key me n d c s with
    ⟨-,hnone⟩ | ⟨event,s',he,hh,-,hposts⟩
  · rw [hnone] at h
    cases h
  · rw [hposts, mem_posts] at h
    refine ⟨event,he,?_⟩
    rcases h with ⟨y,hy,data,hdata,rfl⟩ | ⟨r,hr,rfl⟩
    · obtain ⟨hmessage,hf⟩ := (hh.sent y hy).resolve_left List.not_mem_nil
      rw [hmessage] at hdata
      exact .inl ⟨hf,hdata⟩
    · exact .inr ((hh.replies r hr).resolve_left List.not_mem_nil)

/-- The only thing that a datagram does to the iterators is to add a reply to one of them. -/
theorem onDatagram_iterators (u : Umsgpack) (printer : Printer) (key : Value → Except Exn ι)
    (me : Address → RemotePeer) (n : Address) (d : Posted Address) (c : Circumstances)
    (s : GossipNode ι) :
    (onDatagram u printer key me n d c s).state.messageStateDict = s.messageStateDict ∨
    ∃ event id it r, d.event? u = some event ∧ event.request.header = GossipHeaders.searchReply ∧
      key event.request.id = .ok id ∧ s.messageStateDict.lookup id = some it ∧
      response u printer (⟨event.request⟩ : GossipMessage).message = .ok r ∧
      (onDatagram u printer key me n d c s).state.messageStateDict =
        s.messageStateDict.insert id (it.addPeer r) := by
  rcases onDatagram_cases u printer key me n d c s with
    ⟨hsame,-⟩ | ⟨event,s',he,hh,hdict,-⟩
  · exact .inl hsame
  · rw [hdict]
    exact hh.iterators.imp_right fun ⟨hm,id,it,r,hk,hit,hr,hs⟩ => ⟨event,id,it,r,he,hm,hk,hit,hr,hs⟩

/-- What is gossiped goes to peers of a sample from those that are known. -/
def Gossiped (m : GossipMessage) (c : Circumstances) (y : GossipMessage × List Char) : Prop :=
  y.1 = m ∧ y.2 ∈ Reservoir.sample RumorMongerProtocol.alpha c.draw c.peerIds

theorem gossipMessage_sends (u : Umsgpack) (key : Value → Except Exn ι) (m : GossipMessage)
    (c : Circumstances) : Coro.Moves (Sends (Gossiped m c) fun _ => False) (gossiper
    (RumorMongerProtocol.gossipMessage (rumor u key) c.toSurroundings m)) :=
  gossiper_sends fun _ _ hy => RumorMongerProtocol.gossipMessage_sent hy

/-- A search gossips its request, and makes an iterator if it gets that far. -/
theorem searchFor_cases (u : Umsgpack) (key : Value → Except Exn ι) (q id : List Char) (c : Circumstances) (s : GossipNode ι) :
    ∃ t, t = (gossiper (RumorMongerProtocol.gossipMessage (rumor u key) c.toSurroundings
        (prepareSearchMessage q id c.time)) s).state ∧
      Sends (Gossiped (prepareSearchMessage q id c.time) c) (fun _ => False) s t ∧
      ((searchFor u key q id c s).state = t ∨ ∃ k, key (.str id) = .ok k ∧
        (searchFor u key q id c s).state =
          { t with messageStateDict := t.messageStateDict.insert k {} }) := by
  have hsends := gossipMessage_sends u key (prepareSearchMessage q id c.time) c s
  unfold searchFor
  rw [Coro.bind_apply]
  cases hr : gossiper (RumorMongerProtocol.gossipMessage (rumor u key) c.toSurroundings
    (prepareSearchMessage q id c.time)) s with
  | raised e t => exact ⟨t,rfl,by rwa [hr] at hsends,.inl rfl⟩
  | blocked t => exact ⟨t,rfl,by rwa [hr] at hsends,.inl rfl⟩
  | done _ t =>
    refine ⟨t,rfl,by rwa [hr] at hsends,?_⟩
    rw [Run.bind_done, Coro.bind_apply, show (prepareSearchMessage q id c.time).id = .str id from rfl]
    cases hk : key (.str id) with
    | error e => exact .inl rfl
    | ok k => exact .inr ⟨k,rfl,rfl⟩

/-- What an input makes a node send: the request of a search, or a message that is gossiped, to peers of a
sample from those it knows. -/
theorem onInput_sends {i : Input ι} (h : d ∈ (onInput u key n s i).sends) :
    ∃ m c p, (i = .gossipMessage m c ∨
        ∃ q id, i = .searchFor q id c ∧ m = prepareSearchMessage q id c.time) ∧
      p ∈ Reservoir.sample RumorMongerProtocol.alpha c.draw c.peerIds ∧ d.source = n ∧
      d.destination = c.reqUri p ∧ datagramOf u GossipTransport.new m.actualData = .ok d.data := by
  have hposts : ∀ (m : GossipMessage) (c : Circumstances) (t : GossipNode ι),
      Sends (Gossiped m c) (fun _ => False) (fresh s) t → d ∈ posts u n c t →
      ∃ p ∈ Reservoir.sample RumorMongerProtocol.alpha c.draw c.peerIds, d.source = n ∧
        d.destination = c.reqUri p ∧ datagramOf u GossipTransport.new m.actualData = .ok d.data := by
    intro m c t hs hd
    rcases mem_posts.mp hd with ⟨y,hy,data,hdata,rfl⟩ | ⟨r,hr,-⟩
    · obtain ⟨hmessage,hp⟩ := (hs.sent y hy).resolve_left List.not_mem_nil
      rw [hmessage] at hdata
      exact ⟨y.2,hp,rfl,rfl,hdata⟩
    · exact ((hs.replies r hr).resolve_left List.not_mem_nil).elim
  cases i with
  | searchFor q id c =>
    obtain ⟨t,-,ht,hs⟩ := searchFor_cases u key q id c (fresh s)
    have hd : d ∈ posts u n c t := by
      change d ∈ posts u n c (searchFor u key q id c (fresh s)).state at h
      rcases hs with hs | ⟨k,-,hs⟩
      · rwa [hs] at h
      · rwa [hs] at h
    obtain ⟨p,hp,hdest⟩ := hposts _ c t ht hd
    exact ⟨_,c,p,.inr ⟨q,id,rfl,rfl⟩,hp,hdest⟩
  | gossipMessage m c =>
    obtain ⟨p,hp,hd⟩ := hposts m c _ (gossipMessage_sends u key m c (fresh s)) h
    exact ⟨m,c,p,.inl rfl,hp,hd⟩
  | aiter id now => cases h
  | anext id now => cases h
  | wake id => cases h
  | expire id now => cases h

/-- A search sends no more than the sample has. -/
theorem searchFor_length (n : Address) (q id : List Char) (c : Circumstances) (s : GossipNode ι) :
    (onInput u key n s (.searchFor q id c)).sends.length ≤ 3 := by
  obtain ⟨t,ht,hsends,hs⟩ := searchFor_cases u key q id c (fresh s)
  have hposts : (onInput u key n s (.searchFor q id c)).sends = posts u n c t := by
    change posts u n c (searchFor u key q id c (fresh s)).state = _
    rcases hs with hs | ⟨k,-,hs⟩
    · rw [hs]
    · rw [hs]
      rfl
  have hlength : t.globalGossip.sent.length ≤ 3 := by
    have hle := RumorMongerProtocol.gossipMessage_sent_length (rumor u key) c.toSurroundings
      (prepareSearchMessage q id c.time) (fresh s).globalGossip
    rw [ht, gossiper, Coro.zoom_apply, Run.state_within]
    exact hle
  have hreplies : t.replies = [] := by
    refine List.eq_nil_iff_forall_not_mem.mpr fun r hr => ?_
    exact (hsends.replies r hr).elim List.not_mem_nil fun h => h
  rw [hposts, posts, hreplies, List.map_nil, List.append_nil]
  exact (List.length_filterMap_le _ _).trans hlength

end GossipSearch
end PeerConnect.Core
