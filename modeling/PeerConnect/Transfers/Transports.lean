import PeerConnect.Core.Requests
import PeerConnect.Wire.Framing

/-! The transports that share the requests endpoint: each puts its trigger, one byte, in front of
what it sends, by which the endpoint tells them apart. -/
namespace PeerConnect.Transfers
open Library Wire PeerConnect.Core

namespace RequestsHeaders
def kademlia : Bytes := [0]
def discovery : Bytes := [1]
def gossip : Bytes := [2]
end RequestsHeaders

structure RequestsTransport where
  /-- `_trigger`, which belongs to the class. -/
  classTrigger : Bytes
  /-- `trigger`, which belongs to the instance. -/
  trigger : Option Bytes

namespace RequestsTransport

/-- An instance of a class with the given `_trigger`. -/
def new (classTrigger : Bytes) (eventTriggerHeader : Option Bytes) : RequestsTransport where
  classTrigger := classTrigger
  trigger := if classTrigger ≠ [] then some classTrigger else eventTriggerHeader

/-- The datagram, given the `bytes` of the data. -/
def sendto (t : RequestsTransport) (data : Bytes) : Option Bytes :=
  (packUInt 4 data.length).map fun dataSize => t.classTrigger ++ dataSize ++ data

def sendtoWire (u : Umsgpack) (t : RequestsTransport) (w : WireData) : Option Bytes := do
  t.sendto (← w.toBytes u)

end RequestsTransport

namespace KademliaTransport

def new : RequestsTransport := .new RequestsHeaders.kademlia none

/-- What the data is wrapped into, with the version `1.0` that a packet has by default. -/
def wrapped (data : Bytes) : WireData :=
  ⟨.nil,.nil,.float (.finite 1),[("data".toList,.bin data)],.nil⟩

def sendto (u : Umsgpack) (data : Bytes) : Option Bytes := new.sendtoWire u (wrapped data)

end KademliaTransport

def DiscoveryTransport.new : RequestsTransport := .new RequestsHeaders.discovery none
def GossipTransport.new : RequestsTransport := .new RequestsHeaders.gossip none

/-- The transport of the `RequestsDispatcher`, which `Connectivity` sends its pings through. -/
def RequestsDispatcher.transport : RequestsTransport := .new [] none

/-- The endpoint takes a datagram for an event with the given packet, and, if the transport has a
trigger, with that trigger. -/
def Decodes (u : Umsgpack) (t : RequestsTransport) (w : WireData) (dg : Datagram) : Prop :=
  ∃ event, RequestsEndPoint.datagramReceived u dg = .ok (some event) ∧
    (∀ code, t.trigger = some code → event.rootCode = code) ∧ event.request = w

theorem datagramReceived_some_iff {u : Umsgpack} {dg : Datagram} {event : RequestEvent} :
    RequestsEndPoint.datagramReceived u dg = .ok (some event) ↔
      unpackDatagram u (dg.data.drop 1) = .ok event.request ∧ event.rootCode = dg.data.take 1 ∧
        event.fromAddr = dg.fromAddr := by
  obtain ⟨rootCode,request,fromAddr⟩ := event
  unfold RequestsEndPoint.datagramReceived
  cases h : unpackDatagram u (dg.data.drop 1) with
  | ok reqData => simp [eq_comm, and_left_comm]
  | error e => rw [unpackDatagram_error h]; simp

namespace RequestsTransport

theorem sendtoWire_some {u : Umsgpack} {t : RequestsTransport} {w : WireData} {dg : Bytes}
    (h : t.sendtoWire u w = some dg) :
    ∃ size data, packUInt 4 data.length = some size ∧ w.toBytes u = some data ∧
      dg = t.classTrigger ++ size ++ data := by
  obtain ⟨data,hd,h⟩ := Option.bind_eq_some_iff.mp h
  obtain ⟨size,hs,rfl⟩ := Option.map_eq_some_iff.mp h
  exact ⟨size,data,hs,hd,rfl⟩

/-- What a transport with a trigger sends is read back exactly if the constructor of the packet
takes its body. -/
theorem decodes_subclass {u : Umsgpack} {code : UInt8} {header : Option Bytes} {w : WireData}
    {dg : Bytes} {addr : List Char × ℕ} (h : (new [code] header).sendtoWire u w = some dg) :
    Decodes u (new [code] header) w ⟨dg,addr⟩ ↔ w.Admissible := by
  obtain ⟨size,data,hs,hd,rfl⟩ := sendtoWire_some h
  have hload : ∀ w', unpackDatagram u (size ++ data) = .ok w' ↔ WireData.loadFrom u data = .ok w' := by
    intro w'
    rw [unpackDatagram_ok_iff, Frame.loadDatagram_append hs]
    simp
  rw [← WireData.loadFrom_toBytes_iff u hd, ← hload]
  unfold Decodes
  simp only [datagramReceived_some_iff]
  constructor
  · rintro ⟨event,⟨hw,-⟩,-,rfl⟩
    exact hw
  · intro hw
    refine ⟨⟨[code],w,addr⟩,⟨hw,rfl,rfl⟩,?_,rfl⟩
    intro code' hc
    cases hc
    rfl

end RequestsTransport

end PeerConnect.Transfers
