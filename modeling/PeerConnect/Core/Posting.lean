import PeerConnect.Library.Datagrams
import PeerConnect.Transfers.Transports
import Mathlib.Data.Fin.VecNotation

/-! Datagrams on their way between the requests endpoints of two nodes. -/
namespace PeerConnect.Core
open Library Wire Transfers

/-- The address of a requests endpoint. -/
abbrev Address := List Char × ℕ

/-- A datagram, with what the node it comes from has given for its destination. -/
structure Posted (α : Type) where
  source : Address
  destination : α
  data : Bytes
  deriving DecidableEq

namespace Posted
variable {α : Type}

/-- What the endpoint makes of a datagram that reaches it. -/
def event? (u : Umsgpack) (d : Posted α) : Option RequestEvent :=
  match RequestsEndPoint.datagramReceived u ⟨d.data,d.source⟩ with
  | .ok event => event
  | .error _ => none

theorem event?_eq_some {u : Umsgpack} {d : Posted α} {event : RequestEvent} :
    d.event? u = some event ↔
      RequestsEndPoint.datagramReceived u ⟨d.data,d.source⟩ = .ok (some event) := by
  unfold event?
  obtain ⟨event',h⟩ := RequestsEndPoint.datagramReceived_ok u ⟨d.data,d.source⟩
  rw [h, Except.ok.injEq]

end Posted

/-- The datagram of a packet, packed and given to a transport. -/
def datagramOf (u : Umsgpack) (t : RequestsTransport) (w : WireData) : Except Exn Bytes :=
  match w.toBytes u with
  | none => .error .packException
  | some data =>
    match t.sendto data with
    | none => .error .structError
    | some bs => .ok bs

variable {u : Umsgpack} {t : RequestsTransport} {w : WireData} {bs : Bytes}

theorem sendtoWire_of_datagramOf (h : datagramOf u t w = .ok bs) : t.sendtoWire u w = some bs := by
  unfold datagramOf at h
  unfold RequestsTransport.sendtoWire
  split at h
  · cases h
  next data hd =>
    split at h
    · cases h
    next bs' hs =>
      cases h
      rw [hd]
      exact hs

/-- An event that the endpoint makes of what a transport with a trigger has sent has the trigger and the
packet, and comes from where the datagram comes from. -/
theorem event_of_datagramOf {code : UInt8} {source : Address} {α : Type} {destination : α}
    {event : RequestEvent}
    (h : datagramOf u (.new [code] none) w = .ok bs)
    (he : Posted.event? u ⟨source,destination,bs⟩ = some event) : event = ⟨[code],w,source⟩ := by
  obtain ⟨size,data,hs,hd,rfl⟩ := RequestsTransport.sendtoWire_some (sendtoWire_of_datagramOf h)
  obtain ⟨hunpack,hcode,haddr⟩ := datagramReceived_some_iff.mp (Posted.event?_eq_some.mp he)
  change unpackDatagram u (size ++ data) = .ok event.request at hunpack
  rw [unpackDatagram_ok_iff, Frame.loadDatagram_append hs] at hunpack
  obtain ⟨data',hdata,hload⟩ := hunpack
  cases hdata
  have hw := WireData.eq_of_loadFrom_toBytes hd hload
  obtain ⟨rootCode,request,fromAddr⟩ := event
  exact congr (congr (congrArg RequestEvent.mk hcode) hw) haddr

/-- There is such an event if the constructor takes the body of the packet. -/
theorem event_of_admissible {code : UInt8} {source : Address} {α : Type} {destination : α}
    (h : datagramOf u (.new [code] none) w = .ok bs) (hw : w.Admissible) :
    Posted.event? u ⟨source,destination,bs⟩ = some ⟨[code],w,source⟩ := by
  have hdecodes : Decodes u (.new [code] none) w ⟨bs,source⟩ :=
    (RequestsTransport.decodes_subclass (sendtoWire_of_datagramOf h)).mpr hw
  obtain ⟨event,he,-,-⟩ := hdecodes
  have hevent : Posted.event? u ⟨source,destination,bs⟩ = some event := Posted.event?_eq_some.mpr he
  rw [hevent, event_of_datagramOf h hevent]

end PeerConnect.Core
