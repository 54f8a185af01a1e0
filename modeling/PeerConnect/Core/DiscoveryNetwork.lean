import PeerConnect.Core.Discovery

/-! Discovery in a network of nodes: whom a node tries to bootstrap from, and that a request and its reply are
enough for it to try. -/
namespace PeerConnect.Core
open Library Wire Kademlia Transfers
open RemotePeer (reqUri)

namespace Discovery

variable {u : Umsgpack} {multicastAddr : List Value} {me : Address → RemotePeer}
variable {reaches : List Value → Address → Bool}
variable {n : Address} {s : DiscoveryNode} {d d' : Posted (List Value)}

@[simp] theorem failed_tried (e : Exn) (s : DiscoveryNode) : (failed e s).tried = s.tried := by
  unfold failed
  split
  · rfl
  · split <;> rfl

@[simp] theorem failed_registered (e : Exn) (s : DiscoveryNode) : (failed e s).registered = s.registered := by
  unfold failed
  split
  · rfl
  · split <;> rfl

/-- The packet that a coroutine sends is the one that it has made. -/
def Pings (u : Umsgpack) (me : RemotePeer) (s : DiscoveryNode) : Prop :=
  ∀ requests ping, s.requests = some (requests,ping) → (pingData me).toBytes u = some ping

theorem failed_pings {p : RemotePeer} (h : Pings u p s) (e : Exn) : Pings u p (failed e s) := by
  unfold failed
  split
  · exact h
  next requests ping hr =>
    split
    · exact h
    · intro requests' ping' hr'
      change (if requests.asked = true then _ else _) = _ at hr'
      split at hr'
      · cases hr'
        exact h _ _ hr
      · cases hr'

theorem sendPing_pings {p : RemotePeer} {requests : DiscoveryRequests} {ping : Bytes}
    {addresses : List (List Value)} (h : (pingData p).toBytes u = some ping) :
    Pings u p (sendPing n requests ping addresses s).state := by
  unfold sendPing
  intro requests' ping' hr
  split at hr
  · cases hr
  · cases hr
    exact h

theorem onInput_pings (h : Pings u (me n) s) (i : Input) :
    Pings u (me n) (onInput u multicastAddr me n s i).state := by
  cases i with
  | initiate now =>
    simp only [onInput]
    intro requests ping hr
    split at hr
    · cases hr
    next ping' hp =>
      cases hr
      exact hp
  | wake e =>
    simp only [onInput]
    split
    · exact h
    next requests ping hr =>
      split
      · intro requests' ping' hr'
        cases hr'
        exact h _ _ hr
      · exact sendPing_pings (h _ _ hr)
  | hostNamed now addresses =>
    simp only [onInput]
    split
    · exact h
    next requests ping hr =>
      split
      · exact sendPing_pings (h _ _ hr)
      · exact h
  | returned i ending =>
    simp only [onInput]
    split
    · exact h
    · exact h
    · exact failed_pings (s := { s with bootstrapping := s.bootstrapping.eraseIdx i }) h _
  | other destination data => exact h

theorem sendPing_sends {requests : DiscoveryRequests} {ping : Bytes} {addresses : List (List Value)}
    (h : d ∈ (sendPing n requests ping addresses s).sends) :
    d.source = n ∧ DiscoveryTransport.new.sendto ping = some d.data := by
  unfold sendPing at h
  split at h
  · cases h
  next data hd =>
    obtain ⟨a,-,rfl⟩ := List.mem_map.mp h
    exact ⟨rfl,hd⟩

/-- What an input makes a node send is its packet, or comes from another part of the program. -/
theorem onInput_sends {i : Input} (h : d ∈ (onInput u multicastAddr me n s i).sends) :
    d.source = n ∧ (i = .other d.destination d.data ∨ ∃ requests ping, s.requests = some (requests,ping) ∧
      DiscoveryTransport.new.sendto ping = some d.data) := by
  cases i with
  | initiate now =>
    simp only [onInput] at h
    split at h <;> cases h
  | wake e =>
    simp only [onInput] at h
    split at h
    · cases h
    next requests ping hr =>
      split at h
      · cases h
      · exact ⟨(sendPing_sends h).1,.inr ⟨requests,ping,hr,(sendPing_sends h).2⟩⟩
  | hostNamed now addresses =>
    simp only [onInput] at h
    split at h
    · cases h
    next requests ping hr =>
      split at h
      · exact ⟨(sendPing_sends h).1,.inr ⟨requests,ping,hr,(sendPing_sends h).2⟩⟩
      · cases h
  | returned i ending =>
    simp only [onInput] at h
    split at h <;> cases h
  | other destination data =>
    cases List.mem_singleton.mp h
    exact ⟨rfl,.inl rfl⟩

theorem onInput_tried (i : Input) : (onInput u multicastAddr me n s i).state.tried = s.tried := by
  have hping : ∀ requests ping addresses, (sendPing n requests ping addresses s).state.tried = s.tried := by
    intro requests ping addresses
    unfold sendPing
    split <;> rfl
  cases i with
  | initiate now =>
    simp only [onInput]
    split <;> rfl
  | wake e =>
    simp only [onInput]
    split
    · rfl
    · split
      · rfl
      · exact hping _ _ _
  | hostNamed now addresses =>
    simp only [onInput]
    split
    · rfl
    · split
      · exact hping _ _ _
      · rfl
  | returned i ending =>
    simp only [onInput]
    split
    · rfl
    · rfl
    · exact failed_tried _ _
  | other destination data => rfl

/-- What a datagram does: a request may be answered, a reply may be followed, anything else may at most abort
the dispatcher. -/
theorem onDatagram_cases (u : Umsgpack) (me : Address → RemotePeer) (n : Address) (d : Posted (List Value))
    (initiated : Bool) (s : DiscoveryNode) :
    (∃ s', onDatagram u me n d initiated s = ⟨s',[]⟩ ∧ s'.tried = s.tried ∧
      ∀ p, Pings u p s → Pings u p s') ∨
    ∃ event, d.event? u = some event ∧ event.rootCode = RequestsHeaders.discovery ∧
      ((event.request.header = networkFind ∧ ∃ address datagram,
          discoveryRequestHandler u (me n) event = .ok (some (address,datagram)) ∧
          onDatagram u me n d initiated s = ⟨s,[⟨n,address,datagram⟩]⟩) ∨
        event.request.header = networkFindReply ∧ ∃ address,
          discoveryReplyHandler (me n) event = .ok (some address) ∧
          onDatagram u me n d initiated s =
            ⟨{ s with bootstrapping := s.bootstrapping ++ [address], tried := s.tried ++ [address] },[]⟩) := by
  have hfailed : ∀ e, ∃ s', (⟨failed e s,[]⟩ : Reaction DiscoveryNode (Posted (List Value))) = ⟨s',[]⟩ ∧
      s'.tried = s.tried ∧ ∀ p, Pings u p s → Pings u p s' := fun e =>
    ⟨_,rfl,failed_tried e s,fun p h => failed_pings h e⟩
  unfold onDatagram
  split
  · exact .inl ⟨s,rfl,rfl,fun _ => id⟩
  next event he =>
    split
    · exact .inl ⟨s,rfl,rfl,fun _ => id⟩
    · split
      · exact .inl ⟨_,rfl,rfl,fun _ => id⟩
      · split
        next hcode =>
          unfold submit
          split
          next hh =>
            split
            · exact .inl (hfailed _)
            · exact .inl ⟨s,rfl,rfl,fun _ => id⟩
            next address datagram hr =>
              exact .inr ⟨event,he,hcode.1,.inl ⟨hh,address,datagram,hr,rfl⟩⟩
          next hh =>
            split
            · exact .inl (hfailed _)
            · exact .inl ⟨s,rfl,rfl,fun _ => id⟩
            next address hr => exact .inr ⟨event,he,hcode.1,.inr ⟨hh,address,hr,rfl⟩⟩
          · exact .inl (hfailed _)
        · exact .inl ⟨s,rfl,rfl,fun _ => id⟩

/-- A request is answered to where it says, unless it says that it is from this machine. -/
theorem discoveryRequestHandler_pingData {p : RemotePeer} (u : Umsgpack) (p' : RemotePeer)
    (event : RequestEvent) (h : event.request = pingData p) :
    discoveryRequestHandler u p' event = if p.ip = p'.ip then .ok none
      else (datagramOf u DiscoveryTransport.new (dataPayload p')).map fun datagram =>
        some (tupleOf (reqUri p),datagram) := by
  have hitem : item event.request "reply_addr".toList = .ok (.array (tupleOf (reqUri p))) := by
    rw [h]
    rfl
  unfold discoveryRequestHandler
  rw [hitem]
  by_cases heq : p.ip = p'.ip
  · rw [if_pos heq]
    exact if_pos (decide_eq_true heq)
  · rw [if_neg heq]
    refine (if_neg (by rwa [isText, decide_eq_true_eq])).trans ?_
    unfold datagramOf
    cases (dataPayload p').toBytes u with
    | none => rfl
    | some data =>
      cases hd : DiscoveryTransport.new.sendto data with
      | none =>
        simp only [hd]
        rfl
      | some datagram =>
        simp only [hd]
        rfl

/-- A reply is followed to where it says, unless it comes from this machine. -/
theorem discoveryReplyHandler_dataPayload {p : RemotePeer} (p' : RemotePeer) (event : RequestEvent)
    (h : event.request = dataPayload p) :
    discoveryReplyHandler p' event = if event.fromAddr.1 = p'.ip then .ok none
      else .ok (some (tupleOf (reqUri p))) := by
  have hitem : item event.request "connect_uri".toList = .ok (.array (tupleOf (reqUri p))) := by
    rw [h]
    rfl
  unfold discoveryReplyHandler
  split
  · rfl
  · rw [hitem]
    rfl

/-- The datagram carries a packet for the discovery dispatcher. -/
def Carries (u : Umsgpack) (w : WireData) (d : Posted (List Value)) : Prop :=
  d.event? u = some ⟨RequestsHeaders.discovery,w,d.source⟩

theorem event_of_discovery {w : WireData} {event : RequestEvent}
    (h : datagramOf u DiscoveryTransport.new w = .ok d.data) (he : d.event? u = some event) :
    event = ⟨RequestsHeaders.discovery,w,d.source⟩ :=
  event_of_datagramOf h (show Posted.event? u ⟨d.source,d.destination,d.data⟩ = _ from he)

/-- What is sent through the transport carries its packet if the constructor takes the body. -/
theorem carries_of_datagramOf {w : WireData} (hw : w.Admissible)
    (h : datagramOf u DiscoveryTransport.new w = .ok d.data) : Carries u w d :=
  show Posted.event? u ⟨d.source,d.destination,d.data⟩ = _ from event_of_admissible h hw

/-- What happens in the network. -/
abbrev Event : Type := Datagrams.Event Address Input Bool

def start : Datagrams Address DiscoveryNode (Posted (List Value)) := ⟨fun _ => {},[]⟩

def run (u : Umsgpack) (multicastAddr : List Value) (me : Address → RemotePeer)
    (reaches : List Value → Address → Bool) (es : List Event) :
    Datagrams Address DiscoveryNode (Posted (List Value)) :=
  Datagrams.run (parties u multicastAddr me reaches) start es

/-- The other parts of the program do not use the trigger of the discovery transport. -/
def Separate (es : List Event) : Prop :=
  ∀ n destination data, .act n (.other destination data) ∈ es → data.take 1 ≠ RequestsHeaders.discovery

variable {es : List Event} {event : RequestEvent}

/-- What the discovery dispatcher can get is what the node it comes from asks or answers. -/
def Genuine (u : Umsgpack) (me : Address → RemotePeer) (d : Posted (List Value)) : Prop :=
  ∀ event, d.event? u = some event → event.rootCode = RequestsHeaders.discovery →
    event.fromAddr = d.source ∧ (event.request = pingData (me d.source) ∨
      event.request = dataPayload (me d.source))

theorem genuine_of_datagramOf {w : WireData} (hw : w = pingData (me d.source) ∨ w = dataPayload (me d.source))
    (h : datagramOf u DiscoveryTransport.new w = .ok d.data) : Genuine u me d := by
  intro event he _
  rw [event_of_discovery h he]
  exact ⟨rfl,hw⟩

theorem datagramOf_of_sendto {w : WireData} {t : RequestsTransport} {data datagram : Bytes}
    (hw : w.toBytes u = some data) (h : t.sendto data = some datagram) : datagramOf u t w = .ok datagram := by
  unfold datagramOf
  rw [hw]
  dsimp only
  rw [h]

theorem genuine_of_input {i : Input} (hs : Pings u (me n) s)
    (hi : ∀ destination data, i = .other destination data → data.take 1 ≠ RequestsHeaders.discovery)
    (h : d ∈ (onInput u multicastAddr me n s i).sends) : Genuine u me d := by
  obtain ⟨hsource,hother | ⟨requests,ping,hr,hd⟩⟩ := onInput_sends h
  · intro event he hcode
    have hroot := (datagramReceived_some_iff.mp (Posted.event?_eq_some.mp he)).2.1
    exact absurd (hroot.symm.trans hcode) (hi _ _ hother)
  · exact genuine_of_datagramOf (.inl (by rw [hsource])) (datagramOf_of_sendto (hs _ _ hr) hd)

theorem networkFind_ne : networkFind ≠ networkFindReply := by
  intro h
  injection h with h
  cases h

/-- A request that is answered has been asked by a node at another address, to which the answer goes. -/
theorem answer_of_request {c : Bool} (hd : Genuine u me d) (h : d' ∈ (onDatagram u me n d c s).sends) :
    Carries u (pingData (me d.source)) d ∧ (me d.source).ip ≠ (me n).ip ∧ d'.source = n ∧
      d'.destination = tupleOf (reqUri (me d.source)) ∧
      datagramOf u DiscoveryTransport.new (dataPayload (me n)) = .ok d'.data := by
  rcases onDatagram_cases u me n d c s with
    ⟨s',hs,-⟩ | ⟨event,he,hcode,⟨hh,address,datagram,hr,hs⟩ | ⟨-,address,-,hs⟩⟩
  · rw [hs] at h
    cases h
  · rw [hs] at h
    cases List.mem_singleton.mp h
    obtain ⟨hf,hw⟩ := hd event he hcode
    have hw := hw.resolve_right fun hw => networkFind_ne (by rw [← hh, hw]; rfl)
    rw [discoveryRequestHandler_pingData u (me n) event hw] at hr
    split at hr
    · cases hr
    next hip =>
      cases hdata : datagramOf u DiscoveryTransport.new (dataPayload (me n)) with
      | error e =>
        rw [hdata] at hr
        cases hr
      | ok bs =>
        rw [hdata] at hr
        cases hr
        refine ⟨?_,hip,rfl,rfl,rfl⟩
        obtain ⟨rootCode,request,fromAddr⟩ := event
        rw [Carries, he]
        simp only at hf hw hcode
        rw [hf, hw, hcode]
  · rw [hs] at h
    cases h

/-- Whatever the discovery dispatchers can get is genuine, and so are the packets of the coroutines. -/
theorem genuine_run (u : Umsgpack) (multicastAddr : List Value) (me : Address → RemotePeer)
    (reaches : List Value → Address → Bool) (hes : Separate es) :
    (∀ n, Pings u (me n) ((run u multicastAddr me reaches es).node n)) ∧
      ∀ d ∈ (run u multicastAddr me reaches es).sent, Genuine u me d := by
  have hinv := @Datagrams.run_invariant _ _ _ _ _ _ (parties u multicastAddr me reaches) start es
    (fun n s => Pings u (me n) s) (Genuine u me)
    (fun _ i => ∀ destination data, i = .other destination data → data.take 1 ≠ RequestsHeaders.discovery)
    ?_ ?_ (fun _ _ _ h => by cases h) (fun d hd => absurd hd List.not_mem_nil) ?_
  · exact hinv
  · intro n i s hi hs
    exact ⟨onInput_pings hs i,fun d hd => genuine_of_input hs hi hd⟩
  · intro n d c s _ hd hs
    refine ⟨?_,fun d' hd' => ?_⟩
    · change Pings u (me n) (onDatagram u me n d c s).state
      rcases onDatagram_cases u me n d c s with ⟨s',h,-,hp⟩ | ⟨event,-,-,⟨-,a,b,-,h⟩ | ⟨-,a,-,h⟩⟩
      · rw [h]
        exact hp _ hs
      · rw [h]
        exact hs
      · rw [h]
        exact hs
    · obtain ⟨-,-,hsource,-,hdata⟩ := answer_of_request hd hd'
      exact genuine_of_datagramOf (.inr (by rw [hsource])) hdata
  · rintro n i hi destination data rfl
    exact hes n destination data hi

/-- A request has been sent by a node of its own accord. -/
theorem request_cause (hes : Separate es) (hd : d ∈ (run u multicastAddr me reaches es).sent)
    (h : Carries u (pingData (me d.source)) d) : ∃ i, .act d.source i ∈ es := by
  obtain ⟨es₁,e,es₂,n,x,rfl,hs,hsends⟩ := Datagrams.sent_cause hd List.not_mem_nil
  have hes₁ : Separate es₁ := fun n a b hm => hes n a b (List.mem_append_left _ hm)
  rcases Datagrams.stirred_cases hs with ⟨i,rfl,rfl⟩ | ⟨k,d₀,c,rfl,rfl,hd₀,-⟩
  · refine ⟨i,?_⟩
    rw [(onInput_sends hsends).1]
    exact List.mem_append_right _ List.mem_cons_self
  · exfalso
    obtain ⟨-,-,-,-,hdata⟩ := answer_of_request
      ((genuine_run u multicastAddr me reaches hes₁).2 d₀ hd₀) hsends
    have hevent := event_of_discovery hdata h
    injection hevent with _ hw
    exact networkFind_ne (congrArg WireData.header hw)

/-- The events bring a node a request of another one. -/
structure Asked (u : Umsgpack) (multicastAddr : List Value) (me : Address → RemotePeer)
    (reaches : List Value → Address → Bool) (es : List Event) (n m : Address) (k : ℕ)
    (request : Posted (List Value)) : Prop where
  sent : (run u multicastAddr me reaches es).sent[k]? = some request
  source : request.source = n
  reaches : reaches request.destination m = true
  carries : Carries u (pingData (me n)) request

/-- A reply has been sent once a request of the node that it goes to has been delivered. -/
theorem reply_cause (hes : Separate es) (hd : d ∈ (run u multicastAddr me reaches es).sent)
    (h : Carries u (dataPayload (me d.source)) d) :
    ∃ es₁ k c es₂ request, es = es₁ ++ .deliver d.source k c::es₂ ∧
      Asked u multicastAddr me reaches es₁ request.source d.source k request ∧
      d.destination = tupleOf (reqUri (me request.source)) ∧ (me request.source).ip ≠ (me d.source).ip := by
  obtain ⟨es₁,e,es₂,n,x,rfl,hs,hsends⟩ := Datagrams.sent_cause hd List.not_mem_nil
  have hes₁ : Separate es₁ := fun n a b hm => hes n a b (List.mem_append_left _ hm)
  obtain ⟨hpings,hgenuine⟩ := genuine_run u multicastAddr me reaches hes₁
  rcases Datagrams.stirred_cases hs with ⟨i,rfl,rfl⟩ | ⟨k,d₀,c,rfl,rfl,hd₀,hr⟩
  · exfalso
    obtain ⟨hsource,hother | ⟨requests,ping,hreq,hping⟩⟩ := onInput_sends hsends
    · have hcode := (datagramReceived_some_iff.mp (Posted.event?_eq_some.mp h)).2.1
      exact hes n _ _ (by rw [← hother]; simp) hcode.symm
    · have hdata := datagramOf_of_sendto (hpings n _ _ hreq) hping
      have hevent := event_of_discovery hdata h
      injection hevent with _ hw
      exact networkFind_ne (congrArg WireData.header hw).symm
  · obtain ⟨hcarries,hip,hsource,hdest,-⟩ := answer_of_request (hgenuine d₀ hd₀) hsends
    rw [hsource]
    exact ⟨es₁,k,c,es₂,d₀,rfl,⟨Datagrams.getElem?_of_stirred hs,rfl,hr,hcarries⟩,hdest,hip⟩

/-- Whatever datagrams are lost, repeated or reordered, a node tries to bootstrap only from the requests
address of another machine: one that has got a request of the node itself, and whose reply to the address of
the node has come after that. -/
theorem discovery_sound (u : Umsgpack) (multicastAddr : List Value) (me : Address → RemotePeer)
    (reaches : List Value → Address → Bool) (hme : ∀ n, reqUri (me n) = n)
    (es : List Event) (hes : Separate es)
    (hreaches : ∀ m i, .act m i ∈ es → ∀ n, reaches (tupleOf m) n = true → n = m) (n : Address)
    (a : List Value) (ha : a ∈ ((run u multicastAddr me reaches es).node n).tried) :
    ∃ m, a = tupleOf m ∧ m.1 ≠ n.1 ∧ ∃ es₁ k c es₂ k' c' es₃ request reply,
      es = es₁ ++ .deliver m k c::es₂ ++ .deliver n k' c'::es₃ ∧
      Asked u multicastAddr me reaches es₁ n m k request ∧
      (run u multicastAddr me reaches (es₁ ++ .deliver m k c::es₂)).sent[k']? = some reply ∧
      reply.source = m ∧ reply.destination = tupleOf n ∧ Carries u (dataPayload (me m)) reply := by
  obtain ⟨es₁,e,es₂,x,rfl,hs,hbefore,hafter⟩ := Datagrams.node_cause
    (F := fun s : DiscoveryNode => a ∈ s.tried) ha List.not_mem_nil
  have hes₁ : Separate es₁ := fun n a b hm => hes n a b (List.mem_append_left _ hm)
  rcases Datagrams.stirred_cases hs with ⟨i,rfl,rfl⟩ | ⟨k',d,c',rfl,rfl,hd,hr⟩
  · change a ∈ (onInput u multicastAddr me n _ i).state.tried at hafter
    rw [onInput_tried] at hafter
    exact absurd hafter hbefore
  · change a ∈ (onDatagram u me n d c' ((run u multicastAddr me reaches es₁).node n)).state.tried at hafter
    rcases onDatagram_cases u me n d c' ((run u multicastAddr me reaches es₁).node n) with
      ⟨s',h,htried,-⟩ | ⟨event,he,hcode,⟨-,address,datagram,-,h⟩ | ⟨hh,address,hrep,h⟩⟩
    · rw [h] at hafter
      exact absurd (htried ▸ hafter) hbefore
    · rw [h] at hafter
      exact absurd hafter hbefore
    · rw [h] at hafter
      obtain rfl := List.mem_singleton.mp ((List.mem_append.mp hafter).resolve_left hbefore)
      obtain ⟨hf,hw⟩ := (genuine_run u multicastAddr me reaches hes₁).2 d hd event he hcode
      have hw := hw.resolve_left fun hw => networkFind_ne (by rw [← hh, hw]; rfl)
      rw [discoveryReplyHandler_dataPayload (me n) event hw] at hrep
      split at hrep
      · cases hrep
      next hip =>
        have hcarries : Carries u (dataPayload (me d.source)) d := by
          obtain ⟨rootCode,request,fromAddr⟩ := event
          rw [Carries, he]
          simp only at hf hw hcode
          rw [hf, hw, hcode]
        have hsent := Datagrams.getElem?_of_stirred hs
        obtain ⟨es₀,k,c,es₀',request,rfl,hasked,hdest,-⟩ := reply_cause hes₁ hd hcarries
        rw [hme] at hdest
        have hes₀ : Separate es₀ := fun n a b hm => hes₁ n a b (List.mem_append_left _ hm)
        obtain ⟨i,hi⟩ := request_cause hes₀ (List.mem_of_getElem? hasked.sent) hasked.carries
        have hn : n = request.source := by
          refine hreaches _ i (List.mem_append_left _ (List.mem_append_left _ hi)) n ?_
          rw [← hdest]
          exact hr
        refine ⟨d.source,?_,?_,es₀,k,c,es₀',k',c',es₂,request,d,rfl,hn ▸ hasked,hsent,rfl,by rw [hdest, hn],
          hcarries⟩
        · have haddress := Option.some.inj (Except.ok.inj hrep)
          rw [← haddress, hme]
        · rw [hf] at hip
          have hmine : (me n).ip = n.1 := congrArg Prod.fst (hme n)
          rwa [hmine] at hip

theorem admissible_dataPayload (p : RemotePeer) : (dataPayload p).Admissible := by
  intro kv h
  rw [List.mem_singleton.mp h]
  exact (by decide : "connect_uri".toList ∉ WireData.parameters)

/-- A packet for the discovery dispatcher with a text for its id gets there. -/
theorem onDatagram_of_carries {w : WireData} {id : List Char} (c : Bool) (hd : Carries u w d)
    (hid : w.id = .str id) (hr : s.registered = true) (ha : s.aborted = false) :
    onDatagram u me n d c s = submit u me n ⟨RequestsHeaders.discovery,w,d.source⟩ s := by
  unfold onDatagram
  rw [hd]
  simp only [ha, hid, hr, Value.hashable, Bool.false_eq_true, Bool.true_eq_false, if_false, and_self, if_true]

/-- A node that has initiated discovery answers a request from another machine. -/
theorem onDatagram_pingData {p : RemotePeer} {bs : Bytes} (c : Bool) (hd : Carries u (pingData p) d)
    (hip : p.ip ≠ (me n).ip) (hr : s.registered = true) (ha : s.aborted = false)
    (hb : datagramOf u DiscoveryTransport.new (dataPayload (me n)) = .ok bs) :
    onDatagram u me n d c s = ⟨s,[⟨n,tupleOf (reqUri p),bs⟩]⟩ := by
  have hhandler := discoveryRequestHandler_pingData u (me n)
    ⟨RequestsHeaders.discovery,pingData p,d.source⟩ rfl
  rw [if_neg hip, hb] at hhandler
  rw [onDatagram_of_carries c hd rfl hr ha]
  unfold submit
  split
  · rw [hhandler]
    rfl
  next h => cases h
  next h _ => exact absurd rfl h

/-- A node that has initiated discovery follows a reply from another machine. -/
theorem onDatagram_dataPayload {p : RemotePeer} (c : Bool) (hd : Carries u (dataPayload p) d)
    (hip : d.source.1 ≠ (me n).ip) (hr : s.registered = true) (ha : s.aborted = false) :
    tupleOf (reqUri p) ∈ (onDatagram u me n d c s).state.tried := by
  have hhandler := discoveryReplyHandler_dataPayload (me n)
    ⟨RequestsHeaders.discovery,dataPayload p,d.source⟩ rfl
  rw [if_neg hip] at hhandler
  rw [onDatagram_of_carries c hd rfl hr ha]
  unfold submit
  split
  next h => cases h
  · rw [hhandler]
    exact List.mem_append_right _ (List.mem_singleton_self _)
  next _ h => exact absurd rfl h

/-- A request that reaches another machine gets a reply, and when this comes back the node tries the address of
that machine, as long as the dispatcher of each is registered and not aborted when it gets its datagram. -/
theorem discovery_round (u : Umsgpack) (multicastAddr : List Value) (me : Address → RemotePeer)
    (reaches : List Value → Address → Bool) (hme : ∀ n, reqUri (me n) = n) (es es' : List Event)
    (n m : Address) (k : ℕ) (c c' : Bool) (d : Posted (List Value)) (bs : Bytes)
    (hk : (run u multicastAddr me reaches es).sent[k]? = some d) (hd : Carries u (pingData (me n)) d)
    (hm : reaches d.destination m = true) (hn : reaches (tupleOf n) n = true) (hip : m.1 ≠ n.1)
    (hb : datagramOf u DiscoveryTransport.new (dataPayload (me m)) = .ok bs)
    (hmr : ((run u multicastAddr me reaches es).node m).registered = true)
    (hma : ((run u multicastAddr me reaches es).node m).aborted = false)
    (hnr : ((run u multicastAddr me reaches (es ++ .deliver m k c::es')).node n).registered = true)
    (hna : ((run u multicastAddr me reaches (es ++ .deliver m k c::es')).node n).aborted = false) :
    tupleOf m ∈ ((run u multicastAddr me reaches (es ++ .deliver m k c::es' ++
      [.deliver n (run u multicastAddr me reaches es).sent.length c'])).node n).tried := by
  have hips : ∀ a, (me a).ip = a.1 := fun a => congrArg Prod.fst (hme a)
  set net := run u multicastAddr me reaches es with hnet
  have hanswer : run u multicastAddr me reaches (es ++ [.deliver m k c]) =
      net.apply m ⟨net.node m,[⟨m,tupleOf n,bs⟩]⟩ := by
    have hreply := onDatagram_pingData (n := m) c hd (by rw [hips, hips]; exact hip.symm) hmr hma hb
    rw [hme] at hreply
    exact (Datagrams.run_append _).trans ((Datagrams.step_deliver c hk hm).trans
      (congrArg (net.apply m) hreply))
  have hsent : (run u multicastAddr me reaches (es ++ .deliver m k c::es')).sent[net.sent.length]? =
      some ⟨m,tupleOf n,bs⟩ := by
    have hrun : run u multicastAddr me reaches (es ++ .deliver m k c::es') =
        Datagrams.run (parties u multicastAddr me reaches)
          (run u multicastAddr me reaches (es ++ [.deliver m k c])) es' := by
      rw [List.append_cons es _ es']
      exact Datagrams.run_append es'
    rw [hrun, hanswer]
    exact Datagrams.getElem?_sent List.getElem?_concat_length es'
  have hcarries : Carries u (dataPayload (me m)) ⟨m,tupleOf n,bs⟩ :=
    carries_of_datagramOf (admissible_dataPayload _) hb
  have hlast : run u multicastAddr me reaches (es ++ .deliver m k c::es' ++ [.deliver n net.sent.length c']) =
      _ := (Datagrams.run_append _).trans (Datagrams.step_deliver c' hsent hn)
  rw [hlast, Datagrams.apply_node_self]
  have htried := onDatagram_dataPayload c' hcarries (by rw [hips]; exact hip) hnr hna
  rw [hme] at htried
  exact htried

/-! Two nodes, one of which finds the other. -/

def alice : Address := (['a'],1)
def bert : Address := (['b'],2)

/-- The peer object of the node at that address. -/
def peerAt (n : Address) : RemotePeer := ⟨.spread 0 0 1,[],n.1,1,n.2,1⟩

def group : List Value := [.str ['g'],.int 9]

/-- A datagram reaches the one it is addressed to, or everybody in the group. -/
def reachesPair (a : List Value) (n : Address) : Bool :=
  match a with
  | [.str ip,.int port] => (ip = ['g'] ∧ port = 9) ∨ (ip = n.1 ∧ port = n.2)
  | _ => false

/-- The packed form of a packet with a header, a key and an address. -/
def discoveryBytes (header : UInt8) (key : Bytes) (ip port : UInt8) : Bytes :=
  [0x95,0xc4,1,header,0xa1,0x31,0xcb,0x3f,0xf0,0,0,0,0,0,0,0x81] ++ key ++ [0x92,0xa1,ip,port,0xc0]

/-- A package that knows the request of the one and the reply of the other. -/
def discoveryPacker : Umsgpack :=
  Umsgpack.table
    (fun
      | .array [.bin h,.str i,.float (.finite v),.map [(.str k,.array [.str ip,.int port])],.nil] =>
        if h = [0] ∧ i = ['1'] ∧ v = 1 ∧ k = "reply_addr".toList ∧ ip = ['a'] ∧ port = 1 then some 0
        else if h = [1] ∧ i = ['1'] ∧ v = 1 ∧ k = "connect_uri".toList ∧ ip = ['b'] ∧ port = 2 then
          some 1
        else none
      | _ => none)
    ![.array [networkFind,.str ['1'],.float (.finite 1),
        .map [(.str "reply_addr".toList,.array (tupleOf alice))],.nil],
      .array [networkFindReply,.str ['1'],.float (.finite 1),
        .map [(.str "connect_uri".toList,.array (tupleOf bert))],.nil]]
    ![discoveryBytes 0 [0xaa,114,101,112,108,121,95,97,100,100,114] 0x61 1,
      discoveryBytes 1 [0xab,99,111,110,110,101,99,116,95,117,114,105] 0x62 2]
    (by
      intro v i h
      split at h
      · split at h
        next hv =>
          obtain ⟨rfl,rfl,rfl,rfl,rfl,rfl⟩ := hv
          cases h
          rfl
        · split at h
          next hv =>
            obtain ⟨rfl,rfl,rfl,rfl,rfl,rfl⟩ := hv
            cases h
            rfl
          · cases h
      · cases h)
    (by decide)

/-- Both have initiated discovery, and the one has asked the group. -/
def discoveryEvents : List Event :=
  [.act alice (.initiate 0),.act bert (.initiate 0),.act alice (.wake ⟨1,false,false⟩)]

/-- The other answers, and the answer arrives. -/
def foundEvents : List Event := discoveryEvents ++ [.deliver bert 0 true,.deliver alice 1 true]

theorem foundEvents_separate : Separate foundEvents := by
  intro n destination data h
  simp [foundEvents, discoveryEvents] at h

theorem reaches_foundEvents (m : Address) (i : Input) (h : .act m i ∈ foundEvents) (n : Address)
    (hn : reachesPair (tupleOf m) n = true) : n = m := by
  have hm : m = alice ∨ m = bert := by
    simp [foundEvents, discoveryEvents] at h
    tauto
  rcases hm with rfl | rfl
  · simp [reachesPair, tupleOf, alice] at hn
    exact Prod.ext hn.1.symm (by exact_mod_cast hn.2.symm)
  · simp [reachesPair, tupleOf, bert] at hn
    exact Prod.ext hn.1.symm (by exact_mod_cast hn.2.symm)

/-- The address that is tried is that of the other node. -/
theorem discovery_sound_bert :
    ∃ m, tupleOf bert = tupleOf m ∧ m.1 ≠ alice.1 ∧ ∃ es₁ k c es₂ k' c' es₃ request reply,
      foundEvents = es₁ ++ .deliver m k c::es₂ ++ .deliver alice k' c'::es₃ ∧
      Asked discoveryPacker group peerAt reachesPair es₁ alice m k request ∧
      (run discoveryPacker group peerAt reachesPair (es₁ ++ .deliver m k c::es₂)).sent[k']? = some reply ∧
      reply.source = m ∧ reply.destination = tupleOf alice ∧
      Carries discoveryPacker (dataPayload (peerAt m)) reply := by
  refine discovery_sound discoveryPacker group peerAt reachesPair (fun _ => rfl) foundEvents
    foundEvents_separate reaches_foundEvents alice (tupleOf bert) ?_
  have htried : ((run discoveryPacker group peerAt reachesPair foundEvents).node alice).tried =
      [tupleOf bert] := by with_unfolding_all rfl
  rw [htried]
  exact List.mem_singleton_self _

/-- The one tries the other after the reply. -/
theorem discovery_round_bert :
    tupleOf bert ∈ ((run discoveryPacker group peerAt reachesPair (discoveryEvents ++ [.deliver bert 0 true] ++
      [.deliver alice (run discoveryPacker group peerAt reachesPair discoveryEvents).sent.length
        true])).node alice).tried := by
  have hsent : (run discoveryPacker group peerAt reachesPair discoveryEvents).sent[0]? =
      some ⟨alice,group,1::0::0::0::32::discoveryBytes 0 [0xaa,114,101,112,108,121,95,97,100,100,114] 0x61 1⟩ := by
    with_unfolding_all rfl
  refine discovery_round discoveryPacker group peerAt reachesPair (fun _ => rfl) discoveryEvents [] alice bert
    0 true true _ (1::0::0::0::33::discoveryBytes 1 [0xab,99,111,110,110,101,99,116,95,117,114,105] 0x62 2)
    hsent ?_ ?_ ?_ ?_ ?_ ?_ ?_ ?_ ?_
  · rfl
  · rfl
  · rfl
  · decide
  · rfl
  · with_unfolding_all rfl
  · with_unfolding_all rfl
  · with_unfolding_all rfl
  · with_unfolding_all rfl

end Discovery
end PeerConnect.Core
