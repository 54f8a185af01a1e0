import PeerConnect.Core.SearchSteps

/-! Searches in a network of nodes that lose, repeat and reorder each other's datagrams: who is asked, and
what can come back. -/
namespace PeerConnect.Core
open Library Wire Kademlia Transfers

/-- A package that packs anything into no bytes packs nothing else. -/
theorem eq_of_dumps_nil {u : Umsgpack} {v w : Value} {bs : Bytes} (hv : u.dumps v = some [])
    (hw : u.dumps w = some bs) : w = v := by
  have hload := u.loads_dumps hv
  by_cases hbs : bs = []
  · subst hbs
    rw [u.loads_dumps hw] at hload
    exact Option.some.inj hload
  · rw [u.loads_truncated hw List.nil_prefix (Ne.symm hbs)] at hload
    cases hload

namespace GossipSearch
variable {ι : Type} [DecidableEq ι]

/-- What happens in the network. -/
abbrev Event (ι : Type) : Type := Datagrams.Event Address (Input ι) Circumstances

/-- The nodes as they are made. -/
def start : Datagrams Address (GossipNode ι) (Posted Address) := ⟨fun _ => {},[]⟩

def run (u : Umsgpack) (printer : Printer) (key : Value → Except Exn ι) (me : Address → RemotePeer)
    (es : List (Event ι)) : Datagrams Address (GossipNode ι) (Posted Address) :=
  Datagrams.run (parties u printer key me) start es

def searchId? : Event ι → Option (List Char)
  | .act _ (.searchFor _ id _) => some id
  | _ => none

/-- Every search has an id of its own, and what is gossiped otherwise is a message. -/
structure Orderly (es : List (Event ι)) : Prop where
  ids : (es.filterMap searchId?).Nodup
  messages : ∀ n m c, .act n (.gossipMessage m c) ∈ es → m.header = GossipHeaders.message

/-- The peers that a search asks: a sample of those that are known. -/
def asked (c : Circumstances) : List Address :=
  (Reservoir.sample RumorMongerProtocol.alpha c.draw c.peerIds).map c.reqUri

theorem asked_length_le (c : Circumstances) : (asked c).length ≤ 3 := by
  rw [asked, List.length_map, Reservoir.sample_length]
  exact min_le_left _ _

/-- Neither a request nor a reply has the fields that a message needs to be passed on. -/
theorem prepareSearchMessage_fieldsCheck (q id : List Char) (t : ℚ) :
    (prepareSearchMessage q id t).fieldsCheck = false := by
  rw [← Bool.not_eq_true, GossipMessage.fieldsCheck_iff]
  intro h
  exact absurd h.1 (by decide : "id".toList ∉ ["message".toList,"created".toList])

theorem prepareReply_fieldsCheck (id : Value) (serialized : Bytes) (t : ℚ) :
    (prepareReply id serialized t).fieldsCheck = false := by
  rw [← Bool.not_eq_true, GossipMessage.fieldsCheck_iff]
  intro h
  exact absurd h.1 (by decide : "id".toList ∉ ["message".toList,"created".toList])

/-- What can be in a datagram that nobody has made up. -/
inductive Genuine (u : Umsgpack) (me : Address → RemotePeer) (m : GossipMessage) : Prop
  | message (h : m.header = GossipHeaders.message)
  | request (q id : List Char) (t : ℚ) (h : m = prepareSearchMessage q id t)
  | reply (n : Address) (id : List Char) (serialized : Bytes) (t : ℚ)
      (hs : (PeerObject.ofRemotePeer (me n)).toBytes u = some serialized) (hn : serialized ≠ [])
      (h : m = prepareReply (.str id) serialized t)

variable {u : Umsgpack} {printer : Printer} {key : Value → Except Exn ι} {me : Address → RemotePeer}
variable {es : List (Event ι)} {d d' : Posted Address} {event : RequestEvent} {w : WireData}

theorem event_of_gossip (h : datagramOf u GossipTransport.new w = .ok d.data)
    (he : d.event? u = some event) : event.request = w ∧ event.fromAddr = d.source := by
  have hevent := event_of_datagramOf h (show Posted.event? u ⟨d.source,d.destination,d.data⟩ = _ from he)
  rw [hevent]
  exact ⟨rfl,rfl⟩

/-- A reply that has been packed has a peer in it that is not empty. -/
theorem serialized_ne_nil {p : PeerObject} {serialized : Bytes} {id : Value} {t : ℚ} {bs : Bytes}
    (hs : p.toBytes u = some serialized)
    (h : datagramOf u GossipTransport.new (prepareReply id serialized t).actualData = .ok bs) :
    serialized ≠ [] := by
  rintro rfl
  unfold datagramOf at h
  split at h
  · cases h
  next data hdata =>
    have heq := eq_of_dumps_nil hs hdata
    injection heq with hlist
    have hlength := congrArg List.length hlist
    exact absurd hlength (by simp [PeerObject.attributes])

/-- Only genuine datagrams are in the network. -/
theorem genuine_of_sent (hmessages : ∀ n m c, .act n (.gossipMessage m c) ∈ es →
      m.header = GossipHeaders.message) :
    ∀ d ∈ (run u printer key me es).sent, ∀ event, d.event? u = some event →
      Genuine u me ⟨event.request⟩ := by
  have hinv := @Datagrams.run_invariant _ _ _ _ _ _ (parties u printer key me) start es (fun _ _ => True)
    (fun d => ∀ event, d.event? u = some event → Genuine u me ⟨event.request⟩)
    (fun _ i => ∀ m c, i = .gossipMessage m c → m.header = GossipHeaders.message)
    ?_ ?_ (fun _ => trivial) (fun d hd => absurd hd List.not_mem_nil) ?_
  · exact hinv.2
  · intro n i s hi _
    refine ⟨trivial,fun d hd event he => ?_⟩
    obtain ⟨m,c,p,hm,-,-,-,hdata⟩ := onInput_sends hd
    obtain ⟨hw,-⟩ := event_of_gossip hdata he
    rw [hw]
    rcases hm with hm | ⟨q,id,-,hm⟩
    · exact .message (hi m c hm)
    · exact .request q id c.time hm
  · intro n d c s _ hd _
    refine ⟨trivial,fun d' hd' event' he' => ?_⟩
    obtain ⟨event,he,⟨hf,hdata⟩ | ⟨hreq,-,-,serialized,hs,hdata⟩⟩ := onDatagram_sends hd'
    · obtain ⟨hw,-⟩ := event_of_gossip hdata he'
      rw [hw]
      exact hd event he
    · obtain ⟨hw,-⟩ := event_of_gossip (d := d') hdata he'
      have hne := serialized_ne_nil hs hdata
      rw [hw]
      cases hd event he with
      | message h => rw [show event.request.header = GossipHeaders.message from h] at hreq; cases hreq
      | request q id t h => exact .reply n id serialized c.time hs hne (by rw [h]; rfl)
      | reply n id s t _ _ h =>
        rw [show event.request.header = GossipHeaders.searchReply from congrArg GossipMessage.header h]
          at hreq
        cases hreq
  · intro n i hi m c hm
    subst hm
    exact hmessages n m c hi

theorem header_of_genuine {m : GossipMessage} (h : Genuine u me m) :
    (m.header = GossipHeaders.searchReq → ∃ q id t, m = prepareSearchMessage q id t) ∧
    (m.header = GossipHeaders.searchReply → m.fieldsCheck = false) := by
  cases h with
  | message h => exact ⟨fun hr => (by rw [h] at hr; cases hr),fun hr => (by rw [h] at hr; cases hr)⟩
  | request q id t h =>
    exact ⟨fun _ => ⟨q,id,t,h⟩,fun hr => (by rw [h] at hr; cases hr)⟩
  | reply n id serialized t _ _ h =>
    exact ⟨fun hr => (by rw [h] at hr; cases hr),fun _ => (by rw [h]; exact prepareReply_fieldsCheck _ _ _)⟩

/-- A request has been sent by who searches, to a peer that the search asks. -/
theorem request_cause (hmessages : ∀ n m c, .act n (.gossipMessage m c) ∈ es →
      m.header = GossipHeaders.message)
    (hd : d ∈ (run u printer key me es).sent) (he : d.event? u = some event)
    (hreq : event.request.header = GossipHeaders.searchReq) :
    ∃ q id c, .act d.source (.searchFor q id c) ∈ es ∧ d.destination ∈ asked c ∧
      event.request = (prepareSearchMessage q id c.time).actualData := by
  obtain ⟨es₁,e,es₂,n,x,rfl,hs,hsend⟩ := Datagrams.sent_cause hd List.not_mem_nil
  rcases Datagrams.stirred_cases hs with ⟨i,rfl,rfl⟩ | ⟨k,d₀,c,rfl,rfl,hd₀,hreach⟩
  · obtain ⟨m,c,p,hm,hp,hsource,hdest,hdata⟩ := onInput_sends hsend
    have hw := (event_of_gossip hdata he).1
    rcases hm with rfl | ⟨q,id,rfl,rfl⟩
    · have hheader := hmessages n m c (by simp)
      rw [hw, show m.actualData.header = GossipHeaders.message from hheader] at hreq
      cases hreq
    · refine ⟨q,id,c,by simp [hsource],?_,hw⟩
      rw [hdest]
      exact List.mem_map_of_mem hp
  · obtain ⟨event₀,he₀,⟨hf,hdata⟩ | ⟨-,-,-,serialized,-,hdata⟩⟩ := onDatagram_sends hsend
    · have hw := (event_of_gossip hdata he).1
      have hgen := genuine_of_sent (fun n m c h => hmessages n m c (List.mem_append_left _ h))
        d₀ hd₀ event₀ he₀
      obtain ⟨q,id,t,hm⟩ := (header_of_genuine hgen).1 (by rw [← hw]; exact hreq)
      rw [hm, prepareSearchMessage_fieldsCheck] at hf
      cases hf
    · have hw := (event_of_gossip (d := d) hdata he).1
      rw [hw] at hreq
      cases hreq

/-- A reply has been sent by a peer that a search has asked and that the search is for. -/
theorem reply_cause (hmessages : ∀ n m c, .act n (.gossipMessage m c) ∈ es →
      m.header = GossipHeaders.message)
    (hd : d ∈ (run u printer key me es).sent) (he : d.event? u = some event)
    (hrep : event.request.header = GossipHeaders.searchReply) :
    ∃ n q id c a serialized t, .act n (.searchFor q id c) ∈ es ∧ a ∈ asked c ∧
      q <:+: (me a).username ∧ (PeerObject.ofRemotePeer (me a)).toBytes u = some serialized ∧
      serialized ≠ [] ∧ d.destination = n ∧
      event.request = (prepareReply (.str id) serialized t).actualData := by
  obtain ⟨es₁,e,es₂,a,x,rfl,hs,hsend⟩ := Datagrams.sent_cause hd List.not_mem_nil
  have hmessages₁ : ∀ n m c, .act n (.gossipMessage m c) ∈ es₁ → m.header = GossipHeaders.message :=
    fun n m c h => hmessages n m c (List.mem_append_left _ h)
  rcases Datagrams.stirred_cases hs with ⟨i,rfl,rfl⟩ | ⟨k,d₀,c,rfl,rfl,hd₀,hreach⟩
  · obtain ⟨m,c,p,hm,-,-,-,hdata⟩ := onInput_sends hsend
    have hw := (event_of_gossip hdata he).1
    rcases hm with rfl | ⟨q,id,rfl,rfl⟩
    · have hheader := hmessages a m c (by simp)
      rw [hw, show m.actualData.header = GossipHeaders.message from hheader] at hrep
      cases hrep
    · rw [hw] at hrep
      cases hrep
  · obtain ⟨event₀,he₀,⟨hf,hdata⟩ | ⟨hreq,hdest,⟨q,hq,hin⟩,serialized,hser,hdata⟩⟩ :=
      onDatagram_sends hsend
    · have hw := (event_of_gossip hdata he).1
      have hgen := genuine_of_sent hmessages₁ d₀ hd₀ event₀ he₀
      rw [(header_of_genuine hgen).2 (by rw [← hw]; exact hrep)] at hf
      cases hf
    · have hw := (event_of_gossip (d := d) hdata he).1
      obtain ⟨q',id,c₀,hact,hasked,hrequest⟩ := request_cause hmessages₁ hd₀ he₀ hreq
      have ha : d₀.destination = a := of_decide_eq_true hreach
      have hqq : q' = q := by
        have hmessage : (⟨event₀.request⟩ : GossipMessage).message = .str q' := by
          rw [hrequest]
          rfl
        rw [hmessage] at hq
        injection hq
      subst hqq
      have hfrom : event₀.fromAddr = d₀.source :=
        ((datagramReceived_some_iff.mp (Posted.event?_eq_some.mp he₀)).2).2
      refine ⟨d₀.source,q',id,c₀,a,serialized,c.time,List.mem_append_left _ hact,ha ▸ hasked,hin,hser,
        serialized_ne_nil hser hdata,?_,?_⟩
      · rw [← hfrom]
        exact hdest
      · rw [hw, show (⟨event₀.request⟩ : GossipMessage).id = .str id by rw [hrequest]; rfl]

/-- What an input does to the iterators: it makes a new one for a search, or its reader goes on. -/
theorem onInput_iterators (u : Umsgpack) (key : Value → Except Exn ι) (n : Address) (s : GossipNode ι)
    (i : Input ι) (k : ι) :
    (onInput u key n s i).state.messageStateDict.lookup k = s.messageStateDict.lookup k ∨
    (∃ q id c, i = .searchFor q id c ∧ key (.str id) = .ok k ∧
      (onInput u key n s i).state.messageStateDict.lookup k = some {}) ∨
    ∃ it it', s.messageStateDict.lookup k = some it ∧
      (onInput u key n s i).state.messageStateDict.lookup k = some it' ∧ it'.received = it.received := by
  have hread : ∀ (id : ι) (f : SearchIterator SearchResponse → SearchIterator SearchResponse),
      (∀ it, (f it).received = it.received) →
      (read id f s).messageStateDict.lookup k = s.messageStateDict.lookup k ∨
      ∃ it it', s.messageStateDict.lookup k = some it ∧
        (read id f s).messageStateDict.lookup k = some it' ∧ it'.received = it.received := by
    intro id f hf
    unfold read
    cases hit : s.messageStateDict.lookup id with
    | none => exact .inl rfl
    | some it =>
      by_cases hk : k = id
      · subst hk
        exact .inr ⟨it,f it,hit,AList.lookup_insert _,hf it⟩
      · exact .inl (AList.lookup_insert_ne hk)
  cases i with
  | searchFor q id c =>
    obtain ⟨t,-,ht,hs⟩ := searchFor_cases u key q id c (fresh s)
    have hdict : t.messageStateDict = s.messageStateDict := ht.iterators
    rcases hs with hs | ⟨k',hk',hs⟩
    · left
      change (searchFor u key q id c (fresh s)).state.messageStateDict.lookup k = _
      rw [hs, hdict]
    · by_cases hk : k = k'
      · subst hk
        refine .inr (.inl ⟨q,id,c,rfl,hk',?_⟩)
        change (searchFor u key q id c (fresh s)).state.messageStateDict.lookup k = _
        rw [hs]
        exact AList.lookup_insert _
      · left
        change (searchFor u key q id c (fresh s)).state.messageStateDict.lookup k = _
        rw [hs, AList.lookup_insert_ne hk, hdict]
  | gossipMessage m c =>
    left
    have hdict := (gossipMessage_sends u key m c (fresh s)).iterators
    exact congrArg (fun dict => AList.lookup k dict) hdict
  | aiter id now => exact (hread id _ (SearchIterator.received_aiter now)).imp_right .inr
  | anext id now => exact (hread id _ (SearchIterator.received_anext now)).imp_right .inr
  | wake id => exact (hread id _ SearchIterator.received_wake).imp_right .inr
  | expire id now => exact (hread id _ (SearchIterator.received_expire now)).imp_right .inr

/-- The iterator of that key has received the answer. -/
def Received (k : ι) (r : SearchResponse) (s : GossipNode ι) : Prop :=
  ∃ it, s.messageStateDict.lookup k = some it ∧ r ∈ it.received

/-- An iterator has been made by a search. -/
theorem iterator_cause {n : Address} {k : ι}
    (h : k ∈ ((run u printer key me es).node n).messageStateDict) :
    ∃ q id c, .act n (.searchFor q id c) ∈ es ∧ key (.str id) = .ok k := by
  obtain ⟨es₁,e,es₂,x,rfl,hs,hbefore,hafter⟩ := Datagrams.node_cause
    (F := fun s : GossipNode ι => k ∈ s.messageStateDict) h (AList.notMem_empty k)
  set s := (Datagrams.run (parties u printer key me) start es₁).node n with hsdef
  have hnone : s.messageStateDict.lookup k = none := AList.lookup_eq_none.mpr hbefore
  rcases Datagrams.stirred_cases hs with ⟨i,rfl,rfl⟩ | ⟨j,d,c,rfl,rfl,hd,-⟩
  · change k ∈ (onInput u key n s i).state.messageStateDict at hafter
    rcases onInput_iterators u key n s i k with hsame | ⟨q,id,c,rfl,hk,-⟩ | ⟨it,-,hit,-⟩
    · rw [← AList.lookup_isSome, hsame, hnone] at hafter
      cases hafter
    · exact ⟨q,id,c,by simp,hk⟩
    · rw [hnone] at hit
      cases hit
  · change k ∈ (onDatagram u printer key me n d c s).state.messageStateDict at hafter
    rcases onDatagram_iterators u printer key me n d c s with
      hsame | ⟨event,id,it,r,-,-,-,hit,-,hdict⟩
    · rw [hsame] at hafter
      exact absurd hafter hbefore
    · rw [hdict] at hafter
      rcases (AList.mem_insert _).mp hafter with rfl | hafter
      · rw [hnone] at hit
        cases hit
      · exact absurd hafter hbefore

/-- An answer that an iterator has received has come in a reply with the id of the iterator. -/
theorem received_cause {n : Address} {k : ι} {r : SearchResponse}
    (h : Received k r ((run u printer key me es).node n)) :
    ∃ d ∈ (run u printer key me es).sent, ∃ event, d.event? u = some event ∧
      event.request.header = GossipHeaders.searchReply ∧ key event.request.id = .ok k ∧
      response u printer (⟨event.request⟩ : GossipMessage).message = .ok r := by
  have hempty : ¬ Received k r ((start : Datagrams Address (GossipNode ι) (Posted Address)).node n) := by
    rintro ⟨it,hit,-⟩
    cases hit
  obtain ⟨es₁,e,es₂,x,rfl,hs,hbefore,hafter⟩ := Datagrams.node_cause h hempty
  set s := (Datagrams.run (parties u printer key me) start es₁).node n with hsdef
  rcases Datagrams.stirred_cases hs with ⟨i,rfl,rfl⟩ | ⟨j,d,c,rfl,rfl,hd,-⟩
  · obtain ⟨it,hit,hr⟩ := hafter
    change (onInput u key n s i).state.messageStateDict.lookup k = some it at hit
    rcases onInput_iterators u key n s i k with
      hsame | ⟨q,id,c,-,-,hnew⟩ | ⟨it₁,it₂,hit₁,hit₂,hsame⟩
    · rw [hsame] at hit
      exact absurd ⟨it,hit,hr⟩ hbefore
    · rw [hnew] at hit
      cases hit
      cases hr
    · rw [hit₂] at hit
      cases hit
      rw [hsame] at hr
      exact absurd ⟨it₁,hit₁,hr⟩ hbefore
  · obtain ⟨it,hit,hr⟩ := hafter
    change (onDatagram u printer key me n d c s).state.messageStateDict.lookup k = some it at hit
    rcases onDatagram_iterators u printer key me n d c s with
      hsame | ⟨event,id,it₁,r₁,he,hrep,hid,hit₁,hresp,hdict⟩
    · rw [hsame] at hit
      exact absurd ⟨it,hit,hr⟩ hbefore
    · rw [hdict] at hit
      by_cases hk : k = id
      · subst hk
        rw [AList.lookup_insert] at hit
        cases hit
        rw [SearchIterator.received_addPeer] at hr
        rcases List.mem_append.mp hr with hr | hr
        · exact absurd ⟨it₁,hit₁,hr⟩ hbefore
        · rw [List.mem_singleton.mp hr]
          exact ⟨d,Datagrams.mem_sent_append hd _,event,he,hrep,hid,hresp⟩
      · rw [AList.lookup_insert_ne hk] at hit
        exact absurd ⟨it,hit,hr⟩ hbefore

omit [DecidableEq ι] in
/-- A search with an id of its own is the only one with that id. -/
theorem searchFor_unique (h : (es.filterMap searchId?).Nodup) {n n' : Address} {q q' id : List Char}
    {c c' : Circumstances} (hn : .act n (.searchFor q id c) ∈ es)
    (hn' : .act n' (.searchFor q' id c') ∈ es) : n = n' ∧ q = q' ∧ c = c' := by
  obtain ⟨es₁,es₂,rfl⟩ := List.append_of_mem hn
  rw [List.filterMap_append, List.filterMap_cons_some (rfl : searchId? _ = some id),
    List.nodup_middle, List.nodup_cons] at h
  have hout : ∀ e ∈ es₁ ++ es₂, searchId? e ≠ some id := fun e he hid =>
    h.1 (by rw [← List.filterMap_append]; exact List.mem_filterMap.mpr ⟨e,he,hid⟩)
  have hcases : (Datagrams.Event.act n' (.searchFor q' id c') : Event ι) = .act n (.searchFor q id c) := by
    by_contra hne
    refine hout (.act n' (.searchFor q' id c')) ?_ rfl
    rcases List.mem_append.mp hn' with hm | hm
    · exact List.mem_append_left _ hm
    · exact List.mem_append_right _ ((List.mem_cons.mp hm).resolve_left hne)
  cases hcases
  exact ⟨rfl,rfl,rfl⟩

/-- The datagram is a request of the search with that id. -/
def isRequest (u : Umsgpack) (id : List Char) (d : Posted Address) : Bool :=
  match d.event? u with
  | some event =>
    match event.request.header, event.request.id with
    | .str header,.str id' => header = [ '\x01'] ∧ id' = id
    | _,_ => false
  | none => false

theorem isRequest_iff {id : List Char} : isRequest u id d = true ↔ ∃ event, d.event? u = some event ∧
    event.request.header = GossipHeaders.searchReq ∧ event.request.id = .str id := by
  unfold isRequest
  cases d.event? u with
  | none => simp
  | some event =>
    simp only [Option.some.injEq, exists_eq_left', GossipHeaders.searchReq]
    split
    next header id' hh hi => simp [hh, hi]
    next hne =>
      refine iff_of_false Bool.false_ne_true fun h => ?_
      exact hne _ _ h.1 h.2

omit [DecidableEq ι] in
theorem sum_searchId (id : List Char) (es : List (Event ι)) :
    (es.map fun e => if searchId? e = some id then 3 else 0).sum =
      3*(es.filterMap searchId?).count id := by
  induction es with
  | nil => rfl
  | cons e es ih =>
    rw [List.map_cons, List.sum_cons, ih]
    cases he : searchId? e with
    | none => simp [he]
    | some id' =>
      rw [List.filterMap_cons_some he, List.count_cons]
      by_cases hid : id' = id
      · simp [hid, Nat.mul_add, Nat.add_comm]
      · simp [hid]

/-- The requests of a search are three at most in all, in whatever way they are repeated or delayed. -/
theorem requests_le (hes : Orderly es) (id : List Char) :
    (run u printer key me es).sent.countP (isRequest u id) ≤ 3 := by
  have hbound : (run u printer key me es).sent.countP (isRequest u id) ≤
      0+(es.map fun e => if searchId? e = some id then 3 else 0).sum := Datagrams.countP_sent_le ?_
  · refine hbound.trans ?_
    rw [sum_searchId]
    have hone := List.nodup_iff_count_le_one.mp hes.ids id
    change 0+_ ≤ 3
    omega
  · rintro es₁ e es₂ n x rfl hs
    have hmessages₁ : ∀ n m c, .act n (.gossipMessage m c) ∈ es₁ → m.header = GossipHeaders.message :=
      fun n m c h => hes.messages n m c (List.mem_append_left _ h)
    rcases Datagrams.stirred_cases hs with ⟨i,rfl,rfl⟩ | ⟨k,d₀,c,rfl,rfl,hd₀,-⟩
    · by_cases hid : searchId? (.act n i : Event ι) = some id
      · rw [if_pos hid]
        cases i with
        | searchFor q id' c => exact List.countP_le_length.trans (searchFor_length n q id' c _)
        | _ => cases hid
      · refine (List.countP_eq_zero.mpr fun d hd hr => ?_).trans_le (Nat.zero_le _)
        obtain ⟨event,he,hreq,hrid⟩ := isRequest_iff.mp hr
        obtain ⟨m,c,p,hm,-,-,-,hdata⟩ := onInput_sends hd
        have hw := (event_of_gossip hdata he).1
        rcases hm with rfl | ⟨q,id',rfl,rfl⟩
        · rw [hw, show m.actualData.header = GossipHeaders.message from hes.messages n m c (by simp)]
            at hreq
          cases hreq
        · rw [hw] at hrid
          injection hrid with hid'
          exact hid (congrArg some hid')
    · refine (List.countP_eq_zero.mpr fun d hd hr => ?_).trans_le (Nat.zero_le _)
      obtain ⟨event,he,hreq,hrid⟩ := isRequest_iff.mp hr
      obtain ⟨event₀,he₀,⟨hf,hdata⟩ | ⟨-,-,-,serialized,-,hdata⟩⟩ := onDatagram_sends hd
      · have hw := (event_of_gossip hdata he).1
        have hgen := genuine_of_sent hmessages₁ d₀ hd₀ event₀ he₀
        obtain ⟨q,id',t,hm⟩ := (header_of_genuine hgen).1 (by rw [← hw]; exact hreq)
        rw [hm, prepareSearchMessage_fieldsCheck] at hf
        cases hf
      · have hw := (event_of_gossip (d := d) hdata he).1
        rw [hw] at hreq
        cases hreq

/-- Whatever datagrams are lost, repeated or reordered, all that a search has got for an answer, handed out
or not, is a peer that it has asked, one of three at most, and whose name has in it what is searched
for. -/
theorem search_answers_sound (u : Umsgpack) (printer : Printer) (key : Value → Except Exn ι)
    (me : Address → RemotePeer)
    (hkey : ∀ i j k, key (.str i) = .ok k → key (.str j) = .ok k → i = j)
    (es : List (Event ι)) (hes : Orderly es) (n : Address) (k : ι) (it : SearchIterator SearchResponse)
    (r : SearchResponse) (hit : ((run u printer key me es).node n).messageStateDict.lookup k = some it)
    (hr : r ∈ it.yielded ++ it.replyQueue) :
    ∃ q id c, .act n (.searchFor q id c) ∈ es ∧ key (.str id) = .ok k ∧ (asked c).length ≤ 3 ∧
      ∃ a ∈ asked c, r = .peer (PeerObject.ofRemotePeer (me a)) ∧ q <:+: (me a).username := by
  obtain ⟨q,id,c,hact,hid⟩ := iterator_cause (AList.lookup_isSome.mp (by rw [hit]; rfl))
  obtain ⟨d,hd,event,he,hrep,hk,hresp⟩ := received_cause ⟨it,hit,hr⟩
  obtain ⟨n',q',id',c',a,serialized,t,hact',hasked,hin,hser,hne,-,hrequest⟩ :=
    reply_cause hes.messages hd he hrep
  rw [show event.request.id = .str id' by rw [hrequest]; rfl] at hk
  obtain rfl := hkey id id' k hid hk
  obtain ⟨rfl,rfl,rfl⟩ := searchFor_unique hes.ids hact hact'
  refine ⟨q,id,c,hact,hid,asked_length_le c,a,hasked,?_,hin⟩
  have hmessage : (⟨event.request⟩ : GossipMessage).message = .bin serialized := by
    rw [hrequest]
    rfl
  have htruth : truth (.bin serialized) = true := by
    cases serialized with
    | nil => exact absurd rfl hne
    | cons b bs => rfl
  rw [hmessage, response, if_pos htruth, PeerObject.loadFrom_toBytes hser] at hresp
  exact (Except.ok.inj hresp).symm

/-- No node passes a request on. All the requests in the network have been sent by who searches, to the
peers that the search asks, and there are three at most for each search. -/
theorem search_requests_stop (u : Umsgpack) (printer : Printer) (key : Value → Except Exn ι)
    (me : Address → RemotePeer) (es : List (Event ι)) (hes : Orderly es) :
    (∀ d ∈ (run u printer key me es).sent, ∀ event, d.event? u = some event →
      event.request.header = GossipHeaders.searchReq →
      ∃ q id c, .act d.source (.searchFor q id c) ∈ es ∧ d.destination ∈ asked c ∧
        event.request = (prepareSearchMessage q id c.time).actualData) ∧
    ∀ id, (run u printer key me es).sent.countP (isRequest u id) ≤ 3 :=
  ⟨fun _ hd _ he hreq => request_cause hes.messages hd he hreq,fun id => requests_le hes id⟩

/-! A search of one node that another one answers. -/

def searcher : Address := (['a'],1)
def bob : Address := (['b'],2)

def bobPeer : RemotePeer := ⟨.spread 0 0 1,"bob".toList,['b'],1,2,1⟩

def bobBytes : Bytes :=
  [0x96,0xc4,20] ++ (NodeId.spread 0 0 1).bytes ++ [0xa3,0x62,0x6f,0x62,0xa1,0x62,1,2,1]

/-- A packed message of the search, by its header and by the part of its body after the word
`message`. -/
def searchBytes (header : UInt8) (message : Bytes) : Bytes :=
  [0x95,0xa1,header,0xa1,0x73,0xcb,0x3f,0xf0,0,0,0,0,0,0,0x82,0xa7,0x6d,0x65,0x73,0x73,0x61,0x67,0x65] ++
    message ++ [0xa7,0x63,0x72,0x65,0x61,0x74,0x65,0x64,0xcb,0,0,0,0,0,0,0,0,0xc0]

def searchReply : GossipMessage := prepareReply (.str ['s']) bobBytes 0

/-- A package that knows what the two nodes say. -/
def searchPacker : Umsgpack :=
  Umsgpack.table
    (fun
      | .array [.str h,.str i,.float (.finite v),.map [(.str a,.str q),(.str b,.float (.finite t))],.nil] =>
        if h = [ '\x01'] ∧ i = ['s'] ∧ v = 1 ∧ a = "message".toList ∧ q = ['o'] ∧ b = "created".toList ∧
          t = 0 then some 0 else none
      | .array [.bin i,.str n,.str a,.int c,.int r,.int s] =>
        if i = bobPeer.id.bytes ∧ n = "bob".toList ∧ a = ['b'] ∧ c = 1 ∧ r = 2 ∧ s = 1 then some 1
        else none
      | .array [.str h,.str i,.float (.finite v),.map [(.str a,.bin m),(.str b,.float (.finite t))],.nil] =>
        if h = [ '\x02'] ∧ i = ['s'] ∧ v = 1 ∧ a = "message".toList ∧ m = bobBytes ∧
          b = "created".toList ∧ t = 0 then some 2 else none
      | _ => none)
    ![.array [GossipHeaders.searchReq,.str ['s'],.float (.finite 1),
        .map [(.str "message".toList,.str ['o']),(.str "created".toList,.float (.finite 0))],.nil],
      .array (PeerObject.ofRemotePeer bobPeer).attributes,
      .array [GossipHeaders.searchReply,.str ['s'],.float (.finite 1),
        .map [(.str "message".toList,.bin bobBytes),(.str "created".toList,.float (.finite 0))],.nil]]
    ![searchBytes 1 [0xa1,0x6f],bobBytes,searchBytes 2 ([0xc4,32] ++ bobBytes)]
    (by
      intro v i h
      split at h
      · split at h
        next hv =>
          obtain ⟨rfl,rfl,rfl,rfl,rfl,rfl,rfl⟩ := hv
          cases h
          rfl
        · cases h
      · split at h
        next hv =>
          obtain ⟨rfl,rfl,rfl,rfl,rfl,rfl⟩ := hv
          cases h
          rfl
        · cases h
      · split at h
        next hv =>
          obtain ⟨rfl,rfl,rfl,rfl,rfl,rfl,rfl⟩ := hv
          cases h
          rfl
        · cases h
      · cases h)
    (by decide)

def searchPrinter : Printer := ⟨fun | .str s => s | _ => [],fun _ => rfl⟩

def textKey : Value → Except Exn (List Char)
  | .str s => .ok s
  | _ => .error .typeError

/-- The one peer that is known is the other node. -/
def bobKnown : Circumstances := ⟨⟨[['p']],List.nodup_singleton _,Fin.last,0,0,0⟩,fun _ => bob,true⟩

/-- The request and the reply arrive. -/
def searchEvents : List (Event (List Char)) :=
  [.act searcher (.searchFor ['o'] ['s'] bobKnown),.deliver bob 0 bobKnown,.deliver searcher 1 bobKnown]

theorem searchEvents_orderly : Orderly searchEvents where
  ids := List.nodup_singleton _
  messages := by
    intro n m c h
    simp [searchEvents] at h

theorem bob_answers :
    ((run searchPacker searchPrinter textKey (fun _ => bobPeer) searchEvents).node
      searcher).messageStateDict.lookup ['s'] =
        some { replyQueue := [.peer (PeerObject.ofRemotePeer bobPeer)] } := by
  rfl

/-- The answer that is found has been given by a peer that was asked. -/
theorem search_answers_sound_bob :
    ∃ q id c, .act searcher (.searchFor q id c) ∈ searchEvents ∧ textKey (.str id) = .ok ['s'] ∧
      (asked c).length ≤ 3 ∧ ∃ a ∈ asked c,
        SearchResponse.peer (PeerObject.ofRemotePeer bobPeer) = .peer (PeerObject.ofRemotePeer bobPeer) ∧
          q <:+: bobPeer.username := by
  refine search_answers_sound searchPacker searchPrinter textKey (fun _ => bobPeer) ?_ searchEvents
    searchEvents_orderly searcher ['s'] _ _ bob_answers (List.mem_singleton_self _)
  intro i j k hi hj
  cases hi
  cases hj
  rfl

/-- One request has been sent, and it is the only one. -/
theorem search_requests_stop_bob :
    (run searchPacker searchPrinter textKey (fun _ => bobPeer) searchEvents).sent.countP
      (isRequest searchPacker ['s']) ≤ 3 :=
  (search_requests_stop searchPacker searchPrinter textKey (fun _ => bobPeer) searchEvents
    searchEvents_orderly).2 ['s']

end GossipSearch
end PeerConnect.Core
