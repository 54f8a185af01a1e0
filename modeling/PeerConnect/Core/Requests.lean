import PeerConnect.Core.Submission

/-! The requests endpoint: datagrams are unpacked and submitted to the requests dispatcher. -/
namespace PeerConnect.Core
open Library Wire TaskQueue

structure Datagram where
  data : Bytes
  fromAddr : List Char × ℕ

namespace RequestsEndPoint

/-- The event a datagram is submitted as, or nothing for one that is logged and dropped. -/
def datagramReceived (u : Umsgpack) (dg : Datagram) : Except Exn (Option RequestEvent) :=
  match unpackDatagram u (dg.data.drop 1) with
  | .ok reqData => .ok (some ⟨dg.data.take 1,reqData,dg.fromAddr⟩)
  | .error .invalidPacket => .ok none
  | .error e => .error e

theorem datagramReceived_ok (u : Umsgpack) (dg : Datagram) :
    ∃ event, datagramReceived u dg = .ok event := by
  unfold datagramReceived
  cases h : unpackDatagram u (dg.data.drop 1) with
  | ok reqData => exact ⟨_,rfl⟩
  | error e => rw [unpackDatagram_error h]; exact ⟨_,rfl⟩

/-- What happens at the endpoint: a datagram comes in, a submitted event is worked on to its
end, or handlers and replies are registered. -/
inductive Event
  | datagram (dg : Datagram)
  | resume (i : ℕ)
  | outside (d : Dispatcher RequestEvent)

def Event.toQueue (u : Umsgpack) : Event → Option (QueueEvent RequestEvent (Dispatcher RequestEvent))
  | datagram dg =>
    match datagramReceived u dg with
    | .ok (some event) => some (.call event)
    | _ => none
  | resume i => some (.resume i)
  | outside d => some (.outside d)

/-- The endpoint's dispatcher after some events, from an empty task group on. -/
def run (u : Umsgpack) (d : Dispatcher RequestEvent) (es : List Event) :
    TaskQueue RequestEvent (Dispatcher RequestEvent) :=
  TaskQueue.run RequestsDispatcher.submit ⟨{},d⟩ (es.filterMap (Event.toQueue u))

theorem mem_toQueue_call {u : Umsgpack} {es : List Event} {event : RequestEvent}
    (h : .call event ∈ es.filterMap (Event.toQueue u)) :
    ∃ dg, .datagram dg ∈ es ∧ datagramReceived u dg = .ok (some event) := by
  obtain ⟨e,he,hq⟩ := List.mem_filterMap.mp h
  cases e with
  | datagram dg =>
    refine ⟨dg,he,?_⟩
    simp only [Event.toQueue] at hq
    split at hq
    next event' hd =>
      cases hq
      exact hd
    · cases hq
  | resume i => cases hq
  | outside d => cases hq

end RequestsEndPoint

/-- `RequestsDispatcher.submit` raises exactly on a request whose id has no hash, whatever is
registered and however the handler ends. Such requests, and no others, abort its task group: a run
in which all datagrams that can be decoded have an id with a hash does not. -/
theorem requests_survive_exactly_hashable (u : Umsgpack) :
    SurvivesExactlyWhen RequestsDispatcher.submit
      (fun event (_ : Dispatcher RequestEvent) => event.request.id.hashable = true) ∧
    ∀ (d : Dispatcher RequestEvent) (es : List RequestsEndPoint.Event),
      (∀ dg event, .datagram dg ∈ es → RequestsEndPoint.datagramReceived u dg = .ok (some event) →
        event.request.id.hashable = true) →
      (RequestsEndPoint.run u d es).group.aborting = false := by
  have hs : SurvivesExactlyWhen RequestsDispatcher.submit
      (fun event (_ : Dispatcher RequestEvent) => event.request.id.hashable = true) :=
    .of_raises RequestsDispatcher.submit_raises
  refine ⟨hs,?_⟩
  intro d es hes
  refine hs.not_aborting d _ fun event hc _ => ?_
  obtain ⟨dg,hdg,hd⟩ := RequestsEndPoint.mem_toQueue_call hc
  exact hes dg event hdg hd

/-- The packet with an empty list for its id and nothing else in it. -/
def listIdPacket : Value := .array [.nil,.array [],.nil,.map [],.nil]

def listIdCodec : Umsgpack :=
  .single listIdPacket [0x95,0xc0,0x90,0xc0,0x80,0xc0]
    (fun | .array [.nil,.array [],.nil,.map [],.nil] => true | _ => false)
    (by intro w h; split at h <;> simp_all [listIdPacket])

/-- The datagram that carries it is decoded, and submitting it aborts the task group whatever is
registered. -/
theorem requests_aborted_by_list_id :
    ¬ ∀ (u : Umsgpack) (dg : Datagram) (event : RequestEvent) (d : Dispatcher RequestEvent),
      RequestsEndPoint.datagramReceived u dg = .ok (some event) →
      ¬ Raises (RequestsDispatcher.submit event) d ∧
        (RequestsEndPoint.run u d [.datagram dg,.resume 0]).group.aborting = false := by
  intro h
  have hd : RequestsEndPoint.datagramReceived listIdCodec
      ⟨[1,0,0,0,6,0x95,0xc0,0x90,0xc0,0x80,0xc0],"10.0.0.7".toList,4000⟩ =
      .ok (some ⟨[1],⟨.nil,.array [],.nil,[],.nil⟩,"10.0.0.7".toList,4000⟩) := rfl
  exact (h listIdCodec _ _ {} hd).1 ⟨.typeError,{},rfl⟩

end PeerConnect.Core
