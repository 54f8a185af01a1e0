import PeerConnect.PalmTree.LinkTables
import PeerConnect.PalmTree.TreeGather

/-! Remote calls: the header of a datagram names an attribute of the relay, which is called with the
packet and the address of its sender. -/
namespace PeerConnect.PalmTree
open Library Wire

/-- What `session` refers to: a `PalmTreeSession`, or whatever else the constructor was given. -/
inductive SessionField
  | session (sessionId : Value) (fanout : ℤ)
  | packet (w : WireData)

/-- An address: its host, and then its port and, with IPv6, two more numbers. -/
structure SocketAddr where
  host : List Char
  numbers : List ℕ

/-- The future `_parent_link_fut` refers to. Each that is made for the field has a number of its own. -/
structure ParentLinkFut where
  number : ℕ
  result : ParentFuture (List Char) := .pending

/-- The fields of a `PalmTreeRelay`. -/
structure RelayFields where
  transport : Option ℕ := none
  sessionTask : Option ℕ := none
  allTasks : List ℕ := []
  session : SessionField
  passiveEndpointAddr : Option SocketAddr
  activeEndpointAddr : Option SocketAddr
  allLinks : List (List Char) := []
  link : List Char → TreeLink := fun _ => {}
  treeCheckWindowIndex : ℤ := 0
  parentLinkFut : ParentLinkFut
  readLink : Option (List Char) := none
  expectedParentPeers : Finset (List Char) := ∅
  activeLinks : Finset (List Char) := ∅
  passiveLinks : Finset (List Char) := ∅
  state : RelayState := .initial
  isStatePrinted : Bool := false

/-- A datagram that a call sends: a rejection, or a message to the peer on the other side of a link. -/
inductive SentMessage
  | reject (addr : SocketAddr) (packet : WireData)
  | passive (peerId : List Char) (message : Bytes)

/-- How a call ends, the fields it leaves, and what it has sent. -/
structure CallOutcome where
  ending : Except Exn Unit
  fields : RelayFields
  sent : List SentMessage := []

/-- `await` on what a function that is not a coroutine has returned. -/
def CallOutcome.await (o : CallOutcome) : CallOutcome :=
  match o.ending with
  | .ok () => { o with ending := .error .typeError }
  | .error _ => o

/-- `bytes` of a tuple. -/
def bytesOfItems : List Value → Except Exn Bytes
  | [] => .ok []
  | v::vs =>
    match v.int? with
    | none => .error .typeError
    | some n =>
      if 0 ≤ n ∧ n < 256 then (bytesOfItems vs).map fun bs => UInt8.ofNat n.toNat :: bs
      else .error .valueError

def SocketAddr.items (addr : SocketAddr) : List Value := .str addr.host :: addr.numbers.map fun n => .int n

namespace RelayFields

/-- `__init__` -/
def init (session : SessionField) (passiveEndpointAddr activeEndpointAddr : Option SocketAddr)
    (f : RelayFields) : RelayFields where
  session := session
  passiveEndpointAddr := passiveEndpointAddr
  activeEndpointAddr := activeEndpointAddr
  parentLinkFut := { number := f.parentLinkFut.number+1 }
  isStatePrinted := f.isStatePrinted

/-- The relay with a session of some fanout. -/
def relay (fanout : ℤ) (f : RelayFields) : Relay (List Char) where
  state := f.state
  fanout := fanout
  allLinks := f.allLinks
  link := f.link
  activeLinks := f.activeLinks
  passiveLinks := f.passiveLinks
  treeCheckWindowIndex := f.treeCheckWindowIndex
  expectedParentPeers := f.expectedParentPeers
  parentLinkFut := f.parentLinkFut.result

/-- `self.session.session_id` -/
def sessionId (f : RelayFields) : Except Exn Value :=
  match f.session with
  | .session sessionId _ => .ok sessionId
  | .packet _ => .error .attributeError

/-- `self.session.fanout` -/
def fanout (f : RelayFields) : Except Exn ℤ :=
  match f.session with
  | .session _ fanout => .ok fanout
  | .packet _ => .error .attributeError

def printState (f : RelayFields) : Except Exn Unit := f.sessionId.map fun _ => ()

/-- Where the next window ends. -/
def windowEnd (fanout : ℤ) (f : RelayFields) : ℤ :=
  min (f.allLinks.length : ℤ) (f.treeCheckWindowIndex+fanout) -
    (f.activeLinks.filter fun p => (f.link p).isOnline ∧ (f.link p).isOutgoing).card

/-- `forward_tree_check_packet`, with the peer that the sender id is the id of, if any, and the bytes of
the packet. -/
def forwardTreeCheckPacket (senderId : Option (List Char)) (treeCheckPacket : Except Exn Bytes)
    (f : RelayFields) : CallOutcome :=
  match f.fanout with
  | .error e => ⟨.error e,f,[]⟩
  | .ok fanout =>
    let windowEnd := f.windowEnd fanout
    let peerIds := sliceInt f.allLinks f.treeCheckWindowIndex (windowEnd+1)
    let sampledPeerIds := peerIds.filter fun p => some p ≠ senderId ∧ p ∉ f.activeLinks
    let f := { f with treeCheckWindowIndex := windowEnd }
    if sampledPeerIds = [] then ⟨.ok (),f,[]⟩
    else
      match treeCheckPacket with
      | .error e => ⟨.error e,f,[]⟩
      | .ok message =>
        ⟨.ok (),{ f with activeLinks := f.activeLinks ∪ sampledPeerIds.toFinset },
          sampledPeerIds.map fun p => .passive p message⟩

/-- The message of a rejection. -/
def gossipLinkRejectMessage (this : List Char) : WireData where
  header := .str "gossip_tree_reject".toList
  id := .str this
  version := .float (.finite 1)
  body := []
  peerId := .nil

/-- Whether there is a reason to reject a tree check: an id that is no text is not one of a link. -/
def rejects (fanout : ℤ) (id : Value) (f : RelayFields) : Bool :=
  match id with
  | .str id => (f.relay fanout).rejectReason id ≠ []
  | _ => true

def mayBeMakeRejection (this : List Char) (id : Value) (addr : SocketAddr) (f : RelayFields) :
    CallOutcome :=
  if id.hashable then
    match f.fanout with
    | .error e => ⟨.error e,f,[]⟩
    | .ok fanout =>
      if f.rejects fanout id then
        match f.transport with
        | none => ⟨.error .attributeError,f,[]⟩
        | some _ => ⟨.ok (),f,[.reject addr (gossipLinkRejectMessage this)]⟩
      else ⟨.ok (),f,[]⟩
  else ⟨.error .typeError,f,[]⟩

end RelayFields

/-- The message handlers. -/
inductive Handler
  | gossipUpdateState
  | gossipTreeCheck
  | gossipTreeReject
  | gossipTreeGather
  | gossipDowngradeConnection
  | gossipUpgradeConnection
  | gossipAddStreamLink
  | gossipPrintEveryOncesStates
  deriving DecidableEq

def Handler.name : Handler → List Char
  | gossipUpdateState => "gossip_update_state".toList
  | gossipTreeCheck => "gossip_tree_check".toList
  | gossipTreeReject => "gossip_tree_reject".toList
  | gossipTreeGather => "gossip_tree_gather".toList
  | gossipDowngradeConnection => "gossip_downgrade_connection".toList
  | gossipUpgradeConnection => "gossip_upgrade_connection".toList
  | gossipAddStreamLink => "gossip_add_stream_link".toList
  | gossipPrintEveryOncesStates => "gossip_print_every_onces_states".toList

/-- An attribute of a relay, as far as it matters for a call with two arguments. -/
inductive Attribute
  | handler (h : Handler)
  /-- it is not callable -/
  | value
  /-- it takes another number of arguments, from the least to the most -/
  | takes (least most : ℕ)
  | init
  | cls
  | new
  | setattr
  | subclasshook
  | datagramReceived
  | mayBeMakeRejection
  | sendUpgradePacket
  | forwardTreeCheckPacket
  | printState
  deriving DecidableEq

/-- What the handlers do up to where they wait. Nothing here depends on it. -/
abbrev Handlers : Type := Handler → WireData → SocketAddr → RelayFields → CallOutcome

/-- `await f(packet, addr)` -/
def Attribute.call (handlers : Handlers) (this : List Char) (w : WireData) (addr : SocketAddr)
    (f : RelayFields) : Attribute → CallOutcome
  | .handler h => handlers h w addr f
  | .value => ⟨.error .typeError,f,[]⟩
  | .takes _ _ => ⟨.error .typeError,f,[]⟩
  | .init => CallOutcome.await ⟨.ok (),f.init (.packet w) (some addr) none,[]⟩
  -- another relay
  | .cls => CallOutcome.await ⟨.ok (),f,[]⟩
  -- the packet is no type
  | .new => ⟨.error .typeError,f,[]⟩
  -- the packet is no name
  | .setattr => ⟨.error .typeError,f,[]⟩
  -- `NotImplemented`
  | .subclasshook => CallOutcome.await ⟨.ok (),f,[]⟩
  -- a packet has no item that is named by a slice
  | .datagramReceived => ⟨.error .keyError,f,[]⟩
  | .mayBeMakeRejection => (f.mayBeMakeRejection this w.id addr).await
  -- no packet is a key of `all_links`
  | .sendUpgradePacket => ⟨.error .keyError,f,[]⟩
  | .forwardTreeCheckPacket => (f.forwardTreeCheckPacket none (bytesOfItems addr.items)).await
  | .printState => CallOutcome.await ⟨f.printState,f,[]⟩

def initName : List Char := "__init__".toList
def forwardName : List Char := "forward_tree_check_packet".toList

/-- The names that `__init__` assigns. -/
def fieldNames : List (List Char) :=
  ["transport".toList,"session_task".toList,"all_tasks".toList,"session".toList,
    "passive_endpoint_addr".toList,"active_endpoint_addr".toList,"all_links".toList,
    "_tree_check_window_index".toList,"_parent_link_fut".toList,"_read_link".toList,
    "_PalmTreeRelay__expected_parent_peers".toList,"active_links".toList,"passive_links".toList,
    "state".toList]

/-- The attributes of `PalmTreeRelay` other than the handlers. -/
def classAttributes : Dict (List Char) Attribute :=
  [("link_init_class".toList,.takes 3 5),(initName,.init),("session_init".toList,.takes 0 0),
    ("connection_made".toList,.takes 1 1),("datagram_received".toList,.datagramReceived),
    ("_may_be_make_rejection".toList,.mayBeMakeRejection),
    ("_send_upgrade_packet".toList,.sendUpgradePacket),(forwardName,.forwardTreeCheckPacket),
    ("_activate_link".toList,.takes 1 1),("_make_update_stream_link_packet".toList,.takes 0 0),
    ("_parent_link_broken".toList,.takes 0 0),("_get_forward_links".toList,.takes 0 0),
    ("stop_session".toList,.takes 0 0),("print_state".toList,.printState),
    ("_print_full_state".toList,.takes 0 0)]

/-- The attributes of `asyncio.DatagramProtocol` and of `object`. The last two are there from Python 3.13
on. -/
def inheritedAttributes : Dict (List Char) Attribute :=
  [("connection_lost".toList,.takes 1 1),("error_received".toList,.takes 1 1),
    ("pause_writing".toList,.takes 0 0),("resume_writing".toList,.takes 0 0),
    ("__slots__".toList,.value),("__class__".toList,.cls),("__delattr__".toList,.takes 1 1),
    ("__dict__".toList,.value),("__dir__".toList,.takes 0 0),("__doc__".toList,.value),
    ("__eq__".toList,.takes 1 1),("__format__".toList,.takes 1 1),("__ge__".toList,.takes 1 1),
    ("__getattribute__".toList,.takes 1 1),("__getstate__".toList,.takes 0 0),
    ("__gt__".toList,.takes 1 1),("__hash__".toList,.takes 0 0),
    ("__init_subclass__".toList,.takes 0 0),("__le__".toList,.takes 1 1),
    ("__lt__".toList,.takes 1 1),("__module__".toList,.value),("__ne__".toList,.takes 1 1),
    ("__new__".toList,.new),("__reduce__".toList,.takes 0 0),("__reduce_ex__".toList,.takes 1 1),
    ("__repr__".toList,.takes 0 0),("__setattr__".toList,.setattr),
    ("__sizeof__".toList,.takes 0 0),("__str__".toList,.takes 0 0),
    ("__subclasshook__".toList,.subclasshook),("__weakref__".toList,.value),
    ("__firstlineno__".toList,.value),("__static_attributes__".toList,.value)]

/-- All handlers. -/
def allHandlers : List Handler :=
  [.gossipUpdateState,.gossipTreeCheck,.gossipTreeReject,.gossipTreeGather,.gossipDowngradeConnection,
    .gossipUpgradeConnection,.gossipAddStreamLink,.gossipPrintEveryOncesStates]

/-- The attributes that every relay has. -/
def relayAttributes : Dict (List Char) Attribute :=
  (allHandlers.map fun h => (h.name,.handler h)) ++ classAttributes ++
    (fieldNames.map fun name => (name,.value)) ++ inheritedAttributes

/-- `getattr(self, name)`, of the names in `dir(self)`. -/
def RelayFields.getattr (name : List Char) (f : RelayFields) : Option Attribute :=
  Dict.get? name
    (relayAttributes ++ if f.isStatePrinted then [("_is_state_printed".toList,.value)] else [])

/-- A call that has been made a task of. -/
structure RemoteCall where
  called : Attribute
  packet : WireData
  addr : SocketAddr

/-- A relay on its event loop: the calls that have not started, and all that has been sent. -/
structure RelayNode where
  fields : RelayFields
  tasks : List RemoteCall := []
  sent : List SentMessage := []

/-- What happens to a relay: a datagram arrives, the task of a call starts, or anything else goes on, a
handler after it has waited for instance. -/
inductive NodeEvent
  | arrives (data : Bytes) (addr : SocketAddr)
  | starts (n : ℕ)
  | goesOn (change : RelayFields → RelayFields)

namespace RelayNode

/-- `datagram_received`. The session id is printed, and a relay that has none ends here. -/
def datagramReceived (u : Umsgpack) (data : Bytes) (addr : SocketAddr) (s : RelayNode) : RelayNode :=
  match unpackDatagram u data with
  | .error _ => s
  | .ok w =>
    match s.fields.printState with
    | .error _ => s
    | .ok () =>
      match w.header with
      | .str name =>
        match s.fields.getattr name with
        | some called => { s with tasks := s.tasks ++ [⟨called,w,addr⟩] }
        | none => s
      | _ => s

variable (u : Umsgpack) (handlers : Handlers) (this : List Char)

def start (n : ℕ) (s : RelayNode) : RelayNode :=
  match s.tasks[n]? with
  | none => s
  | some c =>
    let o := c.called.call handlers this c.packet c.addr s.fields
    ⟨o.fields,s.tasks.eraseIdx n,s.sent ++ o.sent⟩

def step (s : RelayNode) : NodeEvent → RelayNode
  | .arrives data addr => s.datagramReceived u data addr
  | .starts n => s.start handlers this n
  | .goesOn change => { s with fields := change s.fields }

end RelayNode

/-- The header of the call names a handler. -/
def RemoteCall.IsHandled (c : RemoteCall) : Prop := ∃ h : Handler, c.packet.header = .str h.name

/-- The next window ends where the last one did, if there is a session to tell. -/
def RelayFields.WindowStays (f : RelayFields) : Prop :=
  ∀ fanout, f.fanout = .ok fanout → f.windowEnd fanout = f.treeCheckWindowIndex

namespace RelayNode

variable (u : Umsgpack) (handlers : Handlers) (this : List Char)

/-- Neither a datagram that arrives nor a call that its header names, unless it names a handler, changes
a field. -/
def Confined (s : RelayNode) : NodeEvent → Prop
  | .arrives data addr => (s.step u handlers this (.arrives data addr)).fields = s.fields
  | .starts n => ∀ c, s.tasks[n]? = some c → ¬ c.IsHandled →
      (s.step u handlers this (.starts n)).fields = s.fields
  | .goesOn _ => True

/-- The call does not run the constructor, nor does it forward past the window. -/
def Harmless (s : RelayNode) (e : NodeEvent) : Prop :=
  ∀ n c, e = .starts n → s.tasks[n]? = some c → c.packet.header ≠ .str initName ∧
    (c.packet.header = .str forwardName → s.fields.WindowStays)

end RelayNode

namespace RelayFields

variable {f : RelayFields}

/-- Forwarding of a tree check from a peer is that of the relay. -/
theorem relay_forwardTreeCheckPacket {fanout : ℤ} (h : f.fanout = .ok fanout)
    (this senderId : List Char) (message : Bytes) :
    (f.forwardTreeCheckPacket (some senderId) (.ok message)).fields.relay fanout =
      ((f.relay fanout).forwardTreeCheckPacket this senderId).relay := by
  have hsampled : ∀ peerIds : List (List Char),
      (peerIds.filter fun p => some p ≠ some senderId ∧ p ∉ f.activeLinks) =
        peerIds.filter fun p => p ≠ senderId ∧ p ∉ f.activeLinks := by
    intro peerIds
    apply List.filter_congr
    intro p _
    simp
  have hrelay : ((f.relay fanout).forwardTreeCheckPacket this senderId).relay =
      { f.relay fanout with
        treeCheckWindowIndex := f.windowEnd fanout
        activeLinks := f.activeLinks ∪ ((sliceInt f.allLinks f.treeCheckWindowIndex
          (f.windowEnd fanout+1)).filter fun p => p ≠ senderId ∧ p ∉ f.activeLinks).toFinset } := rfl
  unfold forwardTreeCheckPacket
  rw [h, hrelay]
  simp only [hsampled]
  split
  next hnone =>
    rw [hnone, List.toFinset_nil, Finset.union_empty]
    rfl
  next => rfl

@[simp] theorem fields_await (o : CallOutcome) : o.await.fields = o.fields := by
  unfold CallOutcome.await
  split <;> rfl

theorem fields_mayBeMakeRejection (this : List Char) (id : Value) (addr : SocketAddr) (f : RelayFields) :
    (f.mayBeMakeRejection this id addr).fields = f := by
  unfold mayBeMakeRejection
  split
  · split
    · rfl
    · split
      · split <;> rfl
      · rfl
  · rfl

/-- The constructor makes another future for the parent link. -/
theorem init_ne (session : SessionField) (passive active : Option SocketAddr) (f : RelayFields) :
    f.init session passive active ≠ f := by
  intro h
  have hnumber : f.parentLinkFut.number+1 = f.parentLinkFut.number :=
    congrArg (fun f => f.parentLinkFut.number) h
  omega

/-- An address is no bytes, and nothing is forwarded, but the window has moved by then. -/
theorem forward_address_fields (addr : SocketAddr) (f : RelayFields) :
    (f.forwardTreeCheckPacket none (bytesOfItems addr.items)).fields = f ↔ f.WindowStays := by
  unfold forwardTreeCheckPacket WindowStays
  cases hfanout : f.fanout with
  | error e => exact iff_of_true rfl fun fanout h => by cases h
  | ok fanout =>
    have hbytes : bytesOfItems addr.items = .error .typeError := rfl
    have hmoved : ({ f with treeCheckWindowIndex := f.windowEnd fanout } : RelayFields) = f ↔
        f.windowEnd fanout = f.treeCheckWindowIndex := by
      constructor
      · exact congrArg treeCheckWindowIndex
      · intro h
        rw [h]
    simp only [hbytes, Except.ok.injEq, forall_eq']
    split <;> exact hmoved

end RelayFields

/-- Of the calls that are not handled, those of two attributes may change a field. -/
theorem Attribute.call_fields (handlers : Handlers) (this : List Char) (w : WireData) (addr : SocketAddr)
    (f : RelayFields) (a : Attribute) (ha : ∀ h, a ≠ .handler h) :
    (a.call handlers this w addr f).fields = f ↔
      a ≠ .init ∧ (a = .forwardTreeCheckPacket → f.WindowStays) := by
  cases a with
  | handler h => exact absurd rfl (ha h)
  | init =>
    refine iff_of_false ?_ fun h => h.1 rfl
    rw [call, RelayFields.fields_await]
    exact f.init_ne _ _ _
  | forwardTreeCheckPacket =>
    rw [call, RelayFields.fields_await, RelayFields.forward_address_fields]
    exact ⟨fun h => ⟨by decide,fun _ => h⟩,fun h => h.2 rfl⟩
  | mayBeMakeRejection =>
    refine iff_of_true ?_ ⟨by decide,fun h => by cases h⟩
    rw [call, RelayFields.fields_await, RelayFields.fields_mayBeMakeRejection]
  | printState =>
    refine iff_of_true ?_ ⟨by decide,fun h => by cases h⟩
    rw [call, RelayFields.fields_await]
  | _ => exact iff_of_true rfl ⟨(fun h => by cases h),fun h => by cases h⟩

/-- No call that is not handled returns. -/
theorem Attribute.call_raises (handlers : Handlers) (this : List Char) (w : WireData) (addr : SocketAddr)
    (f : RelayFields) (a : Attribute) (ha : ∀ h, a ≠ .handler h) :
    ∃ e, (a.call handlers this w addr f).ending = .error e := by
  have hawait : ∀ o : CallOutcome, ∃ e, o.await.ending = .error e := by
    intro o
    unfold CallOutcome.await
    cases hending : o.ending with
    | ok _ => exact ⟨_,rfl⟩
    | error e => exact ⟨e,hending⟩
  cases a with
  | handler h => exact absurd rfl (ha h)
  | init => exact hawait _
  | cls => exact hawait _
  | subclasshook => exact hawait _
  | mayBeMakeRejection => exact hawait _
  | forwardTreeCheckPacket => exact hawait _
  | printState => exact hawait _
  | _ => exact ⟨_,rfl⟩

section Names

variable {f : RelayFields} {name : List Char} {a : Attribute}

theorem RelayFields.getattr_of_get? (h : Dict.get? name relayAttributes = some a) :
    f.getattr name = some a := by
  rw [getattr, Dict.get?_append, h, Option.some_or]

theorem RelayFields.mem_of_getattr (h : f.getattr name = some a) :
    (name,a) ∈ relayAttributes ∨ a = .value := by
  rcases List.mem_append.mp (Dict.mem_of_get? h) with hmem | hmem
  · exact .inl hmem
  · split at hmem
    · cases List.mem_singleton.mp hmem
      exact .inr rfl
    · cases hmem

/-- An attribute of one name only. -/
theorem RelayFields.getattr_iff {name₀ : List Char} {a₀ : Attribute}
    (hget : Dict.get? name₀ relayAttributes = some a₀)
    (honly : ∀ kv ∈ relayAttributes, kv.2 = a₀ → kv.1 = name₀) (hvalue : a₀ ≠ .value)
    (h : f.getattr name = some a) : a = a₀ ↔ name = name₀ := by
  constructor
  · rintro rfl
    exact honly _ ((mem_of_getattr h).resolve_right hvalue) rfl
  · rintro rfl
    exact Option.some.inj (h.symm.trans (getattr_of_get? hget))

theorem RelayFields.getattr_init_iff (h : f.getattr name = some a) : a = .init ↔ name = initName :=
  getattr_iff (by decide +kernel) (by decide +kernel) (by decide) h

theorem RelayFields.getattr_forward_iff (h : f.getattr name = some a) :
    a = .forwardTreeCheckPacket ↔ name = forwardName :=
  getattr_iff (by decide +kernel) (by decide +kernel) (by decide) h

theorem RelayFields.getattr_handler_iff (h : f.getattr name = some a) (handler : Handler) :
    a = .handler handler ↔ name = handler.name := by
  cases handler <;> exact getattr_iff (by decide +kernel) (by decide +kernel) (by decide) h

theorem Handler.name_ne (h : Handler) : h.name ≠ initName ∧ h.name ≠ forwardName := by
  cases h <;> decide

end Names

namespace RelayNode

variable {u : Umsgpack} {handlers : Handlers} {this : List Char} {s : RelayNode}

/-- Every call is that of an attribute which the header named when it arrived. -/
def Resolved (s : RelayNode) : Prop :=
  ∀ c ∈ s.tasks, ∃ name f, c.packet.header = .str name ∧ RelayFields.getattr name f = some c.called

theorem fields_datagramReceived (u : Umsgpack) (data : Bytes) (addr : SocketAddr) (s : RelayNode) :
    (s.datagramReceived u data addr).fields = s.fields := by
  unfold datagramReceived
  split
  · rfl
  · split
    · rfl
    · split
      · split <;> rfl
      · rfl

/-- A message whose header names a handler becomes a call of it. -/
theorem datagramReceived_handled {data : Bytes} {w : WireData} {sessionId : Value} {fanout : ℤ}
    (hw : unpackDatagram u data = .ok w) (hsession : s.fields.session = .session sessionId fanout)
    (h : Handler) (hname : w.header = .str h.name) (addr : SocketAddr) :
    s.datagramReceived u data addr = { s with tasks := s.tasks ++ [⟨.handler h,w,addr⟩] } := by
  have hprint : s.fields.printState = .ok () := by
    rw [RelayFields.printState, RelayFields.sessionId, hsession]
    rfl
  have hget : s.fields.getattr h.name = some (.handler h) := by
    apply RelayFields.getattr_of_get?
    cases h <;> decide +kernel
  unfold datagramReceived
  simp only [hw, hprint, hname, hget]

theorem Resolved.datagramReceived (h : s.Resolved) (u : Umsgpack) (data : Bytes) (addr : SocketAddr) :
    (s.datagramReceived u data addr).Resolved := by
  unfold RelayNode.datagramReceived
  split
  · exact h
  · split
    · exact h
    · split
      next name hname =>
        split
        next called hcalled =>
          intro c hc
          rcases List.mem_append.mp hc with hc | hc
          · exact h c hc
          · obtain rfl := List.mem_singleton.mp hc
            exact ⟨name,s.fields,hname,hcalled⟩
        · exact h
      · exact h

theorem Resolved.start (h : s.Resolved) (handlers : Handlers) (this : List Char) (n : ℕ) :
    (s.start handlers this n).Resolved := by
  unfold RelayNode.start
  split
  · exact h
  · exact fun c hc => h c (List.mem_of_mem_eraseIdx hc)

theorem Resolved.step (h : s.Resolved) (u : Umsgpack) (handlers : Handlers) (this : List Char)
    (e : NodeEvent) : (s.step u handlers this e).Resolved := by
  cases e with
  | arrives data addr => exact h.datagramReceived u data addr
  | starts n => exact h.start handlers this n
  | goesOn change => exact h

/-- The start of a call that is not handled keeps the fields exactly if it is harmless. -/
theorem fields_start_iff (handlers : Handlers) (this : List Char) {n : ℕ} {c : RemoteCall}
    (hc : s.tasks[n]? = some c) (hs : s.Resolved) (hnot : ¬ c.IsHandled) :
    (s.start handlers this n).fields = s.fields ↔ c.packet.header ≠ .str initName ∧
      (c.packet.header = .str forwardName → s.fields.WindowStays) := by
  obtain ⟨name,f,hname,hcalled⟩ := hs c (List.mem_of_getElem? hc)
  have hhandler : ∀ h, c.called ≠ .handler h := by
    intro h hh
    apply hnot
    exact ⟨h,by rw [hname, (RelayFields.getattr_handler_iff hcalled h).mp hh]⟩
  have hstart : (s.start handlers this n).fields =
      (c.called.call handlers this c.packet c.addr s.fields).fields := by
    unfold RelayNode.start
    rw [hc]
  rw [hstart, Attribute.call_fields _ _ _ _ _ _ hhandler, hname, Ne, Ne, Value.str.injEq,
    Value.str.injEq, RelayFields.getattr_init_iff hcalled, RelayFields.getattr_forward_iff hcalled]

/-- A call that is handled has neither of the two names. -/
theorem harmless_of_isHandled {c : RemoteCall} (h : c.IsHandled) (f : RelayFields) :
    c.packet.header ≠ .str initName ∧ (c.packet.header = .str forwardName → f.WindowStays) := by
  obtain ⟨handler,hname⟩ := h
  obtain ⟨hinit,hforward⟩ := Handler.name_ne handler
  rw [hname, Ne, Value.str.injEq, Value.str.injEq]
  exact ⟨hinit,fun h => absurd h hforward⟩

theorem step_confined_iff (u : Umsgpack) (handlers : Handlers) (this : List Char) (hs : s.Resolved)
    (e : NodeEvent) : s.Confined u handlers this e ↔ s.Harmless e := by
  cases e with
  | arrives data addr =>
    exact iff_of_true (fields_datagramReceived u data addr s) fun n c he => by cases he
  | goesOn change => exact iff_of_true trivial fun n c he => by cases he
  | starts n =>
    constructor
    · intro h m c he hc
      cases he
      by_cases hhandled : c.IsHandled
      · exact harmless_of_isHandled hhandled s.fields
      · exact (fields_start_iff handlers this hc hs hhandled).mp (h c hc hhandled)
    · intro h c hc hnot
      exact (fields_start_iff handlers this hc hs hnot).mpr (h n c rfl hc)

/-- In every run, remote calls change fields through the handlers alone exactly if none runs the
constructor, or forwards past the window. -/
theorem confined_iff_harmless (u : Umsgpack) (handlers : Handlers) (this : List Char)
    (fields : RelayFields) (es : List NodeEvent) :
    Along (step u handlers this) (Confined u handlers this) ⟨fields,[],[]⟩ es ↔
      Along (step u handlers this) Harmless ⟨fields,[],[]⟩ es :=
  along_congr (I := Resolved) (fun _ e hs => hs.step u handlers this e)
    (fun _ e hs => step_confined_iff u handlers this hs e) fun c hc => by cases hc

/-- A packet with nothing but a header, as a value. -/
def calledValue (name : List Char) : Value :=
  .array [.str name,.nil,.float (.finite 1),.map [],.nil]

def calledPacked (name : List Char) : Bytes :=
  [0x95,0xa0+UInt8.ofNat name.length] ++ Gathering.ascii name ++
    [0xc0,0xcb,0x3f,0xf0,0,0,0,0,0,0,0x80,0xc0]

def isCalledValue (name : List Char) : Value → Bool
  | .array [.str n,.nil,.float (.finite q),.map [],.nil] => n == name && q == 1
  | _ => false

theorem eq_of_isCalledValue {name : List Char} {v : Value} (h : isCalledValue name v = true) :
    v = calledValue name := by
  unfold isCalledValue at h
  split at h
  · simp only [Bool.and_eq_true, beq_iff_eq] at h
    obtain ⟨rfl,rfl⟩ := h
    rfl
  · cases h

/-- A package that knows this packet alone. -/
def calledCodec (name : List Char) : Umsgpack :=
  Umsgpack.single (calledValue name) (calledPacked name) (isCalledValue name) fun _ => eq_of_isCalledValue

def calledDatagram (name : List Char) : Bytes :=
  [0,0,0,UInt8.ofNat (calledPacked name).length] ++ calledPacked name

/-- A relay with three links and a fanout of two, which has not forwarded a tree check. -/
def idleFields : RelayFields where
  session := .session (.int 1) 2
  passiveEndpointAddr := none
  activeEndpointAddr := none
  allLinks := [['a'],['b'],['c']]
  parentLinkFut := { number := 0 }
  state := .linksInitialized

def remoteAddr : SocketAddr := ⟨['h'],[9]⟩

/-- A datagram calls an attribute. -/
def callFromRemote (name : List Char) : List NodeEvent :=
  [.arrives (calledDatagram name) remoteAddr,.starts 0]

/-- Handlers that do nothing. -/
def idleHandlers : Handlers := fun _ _ _ f => ⟨.ok (),f,[]⟩

/-- The call that the datagram leads to. -/
def calledPacket (name : List Char) : WireData := ⟨.str name,.nil,.float (.finite 1),[],.nil⟩

theorem step_arrives_init : step (calledCodec initName) idleHandlers ['r'] ⟨idleFields,[],[]⟩
    (.arrives (calledDatagram initName) remoteAddr) =
      ⟨idleFields,[⟨.init,calledPacket initName,remoteAddr⟩],[]⟩ := by
  rfl

theorem step_arrives_forward : step (calledCodec forwardName) idleHandlers ['r'] ⟨idleFields,[],[]⟩
    (.arrives (calledDatagram forwardName) remoteAddr) =
      ⟨idleFields,[⟨.forwardTreeCheckPacket,calledPacket forwardName,remoteAddr⟩],[]⟩ := by
  rfl

/-- The constructor replaces the session by the packet and empties the tables, and forwarding a tree
check moves the window before it fails. -/
theorem callFromRemote_not_confined :
    ¬ Along (step (calledCodec initName) idleHandlers ['r'])
      (Confined (calledCodec initName) idleHandlers ['r']) ⟨idleFields,[],[]⟩ (callFromRemote initName) ∧
    ¬ Along (step (calledCodec forwardName) idleHandlers ['r'])
      (Confined (calledCodec forwardName) idleHandlers ['r']) ⟨idleFields,[],[]⟩
      (callFromRemote forwardName) := by
  constructor
  · intro h
    have hstart := h.2.1
    rw [step_arrives_init] at hstart
    have hkept := hstart _ rfl (by
      rintro ⟨handler,hname⟩
      exact (Handler.name_ne handler).1 (Value.str.inj hname).symm)
    have hnumber : (1 : ℕ) = 0 := congrArg (fun f => f.parentLinkFut.number) hkept
    cases hnumber
  · intro h
    have hstart := h.2.1
    rw [step_arrives_forward] at hstart
    have hkept := hstart _ rfl (by
      rintro ⟨handler,hname⟩
      exact (Handler.name_ne handler).2 (Value.str.inj hname).symm)
    have hindex : (2 : ℤ) = 0 := congrArg RelayFields.treeCheckWindowIndex hkept
    cases hindex

end RelayNode
end PeerConnect.PalmTree
