import PeerConnect.Core.Acceptor
import PeerConnect.Library.Dict

/-! Stream links between the relays of a one-to-many session. The book of scheduled transfers holds the
senders and the receivers of the sessions, and the connection handler takes what it finds there for a
relay. -/
namespace PeerConnect.Managers
open Library Wire PeerConnect.Core

abbrev SessionId := List Char

/-- An accepted stream, and whether the other side is still connected to it. -/
structure StreamSocket where
  number : ℕ
  connected : Bool := true
  deriving DecidableEq, Repr

/-- An `OTMFilesRelay`, and the streams that `gossip_add_stream_link` has been called with. -/
structure SessionRelay where
  sessionId : SessionId
  peerId : List Char
  passiveEndpointAddr : List Char × ℕ
  streamLinks : List (StreamSocket × WireData) := []

inductive OTMClass
  | filesSender
  | filesReceiver
  deriving DecidableEq, Repr

/-- The attributes and methods of an object of the class. -/
def OTMClass.attributes : OTMClass → List String
  | filesSender =>
    ["peer_list","file_items","timeout","session","palm_tree","relay","_make_session","start",
      "send_file","_create_inform_packet","_make_file_metadata","id"]
  | filesReceiver =>
    ["file_items","session","relay","_relay_task","current_file_index","chunk_count",
      "_left_out_chunk","_file_sizes_summed","_file_descriptors","total_byte_count",
      "update_metadata","_load_files_metadata","_write_chunk","data_receiver","_open_files",
      "_align_corresponding_chunk","close","id"]

/-- What is scheduled for a session, with its relay. -/
structure OTMHandle where
  cls : OTMClass
  relay : SessionRelay

/-- The scheduled part of `TransfersBookKeeper`. -/
abbrev Scheduled : Type := Dict SessionId OTMHandle

def Header.cmdFileConn : Bytes := "connection for file transfer".toUTF8.toList
def Header.cmdRecvDir : Bytes := "cmd to recv dir ".toUTF8.toList
def Header.cmdBasicConn : Bytes := "basic connection".toUTF8.toList
def Header.otmUpdateStreamLink : List Char := "otm_add_stream_link".toList

namespace SessionRelay

/-- The packet `_activate_link` opens a stream with. -/
def makeUpdateStreamLinkPacket (r : SessionRelay) : WireData where
  header := .str Header.otmUpdateStreamLink
  id := .str r.peerId
  version := .float (.finite 1)
  body := [("session_id".toList,.str r.sessionId),
    ("peer_addr".toList,.array [.str r.passiveEndpointAddr.1,.int r.passiveEndpointAddr.2])]
  peerId := .nil

/-- `gossip_add_stream_link` is called with a stream. -/
def gossipAddStreamLink (connection : StreamSocket) (data : WireData) (r : SessionRelay) :
    SessionRelay :=
  { r with streamLinks := r.streamLinks ++ [(connection,data)] }

end SessionRelay

def OTMHandle.addStreamLink (connection : StreamSocket) (data : WireData) (h : OTMHandle) : OTMHandle :=
  { h with relay := h.relay.gossipAddStreamLink connection data }

namespace Scheduled

/-- `get_scheduled` -/
def getScheduled (fileId : Value) (book : Scheduled) : Except Exn (Option OTMHandle) :=
  if fileId.hashable then
    match fileId with
    | .str sessionId => .ok (book.get? sessionId)
    | _ => .ok none
  else .error .typeError

theorem getScheduled_str (sessionId : SessionId) (book : Scheduled) :
    book.getScheduled (.str sessionId) = .ok (book.get? sessionId) := rfl

/-- `connection.getpeername()` -/
def getpeername (connection : StreamSocket) : Coro Exn Scheduled Unit :=
  if connection.connected then pure () else Coro.raise .osError

/-- `OTMConnectionHandler` -/
def otmConnectionHandler (connection : StreamSocket) (linkData : WireData) :
    Coro Exn Scheduled Unit := do
  getpeername connection
  match linkData.body.lookup "session_id".toList with
  | none => Coro.raise .keyError
  | some sessionId =>
    let book ← Coro.get id
    let otmRelay ← Coro.ofExcept (book.getScheduled sessionId)
    match otmRelay, sessionId with
    | some otmRelay, .str key =>
      if "otm_add_stream_link" ∈ otmRelay.cls.attributes then
        Coro.modify (Dict.modify key (OTMHandle.addStreamLink connection linkData))
      else Coro.raise .attributeError
    | _, _ => getpeername connection

/-- The handler of a connection. -/
abbrev Handler := StreamSocket → WireData → Coro Exn Scheduled Unit

/-- The handlers that `initiate_acceptor` registers. -/
def registry (fileHandler dirHandler dataHandler : Handler) : List (Key × Handler) :=
  [(.bytes Header.cmdFileConn,fileHandler),(.bytes Header.cmdRecvDir,dirHandler),
    (.str Header.otmUpdateStreamLink,otmConnectionHandler),(.bytes Header.cmdBasicConn,dataHandler)]

/-- `__accept_connection` and the dispatcher behind it, for a handshake that has been read. -/
def acceptConnection (u : Umsgpack) (peerList : List (Key × List Char)) (handlers : List (Key × Handler))
    (connection : StreamSocket) (rawHandShake : Bytes) : Coro Exn Scheduled Unit :=
  match WireData.loadFrom u rawHandShake with
  | .error e => if Acceptor.caught e then pure () else Coro.raise e
  | .ok handshake => do
    let _peer ← Acceptor.getRemotePeer peerList handshake.peerId
    let handler ← Coro.ofExcept (lookup handlers handshake.header)
    handler connection handshake

/-- The connection of a stream link reaches its relay: `gossip_add_stream_link` is called once, on the
relay of the session that the packet names, where that session is not known nothing happens, and
nothing is raised. -/
structure Routed (u : Umsgpack) (peerList : List (Key × List Char)) (handlers : List (Key × Handler))
    (book : Scheduled) (opening : SessionRelay) (connection : StreamSocket) (raw : Bytes) : Prop where
  linked : (acceptConnection u peerList handlers connection raw book).state =
    book.modify opening.sessionId
      (OTMHandle.addStreamLink connection opening.makeUpdateStreamLinkPacket)
  noError : ∀ e b, acceptConnection u peerList handlers connection raw book ≠ .raised e b

section
variable {u : Umsgpack} {peerList : List (Key × List Char)} {opening : SessionRelay} {raw : Bytes}

/-- The packet is decoded and dispatched to the handler. -/
theorem acceptConnection_packet (peerList : List (Key × List Char)) (h : opening.makeUpdateStreamLinkPacket.toBytes u = some raw)
    (fileHandler dirHandler dataHandler : Handler) (connection : StreamSocket) (book : Scheduled) :
    acceptConnection u peerList (registry fileHandler dirHandler dataHandler) connection raw book =
      otmConnectionHandler connection opening.makeUpdateStreamLinkPacket book := by
  have hadmissible : opening.makeUpdateStreamLinkPacket.Admissible := by
    intro kv hkv
    rcases List.mem_cons.mp hkv with rfl | hkv
    · show "session_id".toList ∉ WireData.parameters
      decide
    · obtain rfl := List.mem_singleton.mp hkv
      show "peer_addr".toList ∉ WireData.parameters
      decide
  have hlookup : lookup (registry fileHandler dirHandler dataHandler)
      opening.makeUpdateStreamLinkPacket.header = .ok otmConnectionHandler := rfl
  have hpeer : ∃ peer, Acceptor.getRemotePeer (σ := Scheduled) peerList
      opening.makeUpdateStreamLinkPacket.peerId = pure peer := by
    simp [Acceptor.getRemotePeer, SessionRelay.makeUpdateStreamLinkPacket, lookup, Value.hashable, Key.ofValue?]
  obtain ⟨peer,hpeer⟩ := hpeer
  simp only [acceptConnection, WireData.loadFrom_toBytes u hadmissible h, hpeer, hlookup,
    Coro.bind_apply, Coro.pure_apply, Run.bind_done, Coro.ofExcept_ok]

/-- Neither what is scheduled for a sender nor for a receiver is a relay. -/
theorem no_otm_add_stream_link (c : OTMClass) : "otm_add_stream_link" ∉ c.attributes := by
  cases c <;> decide

/-- Where the session is known, the handler ends with an error and has called nothing. -/
theorem otmConnectionHandler_known {book : Scheduled} {handle : OTMHandle}
    (h : book.get? opening.sessionId = some handle) (connection : StreamSocket) :
    ∃ e, otmConnectionHandler connection opening.makeUpdateStreamLinkPacket book = .raised e book := by
  have hbody : opening.makeUpdateStreamLinkPacket.body.lookup "session_id".toList =
      some (.str opening.sessionId) := rfl
  have hscheduled : book.getScheduled (.str opening.sessionId) = .ok (some handle) := by
    rw [getScheduled_str, h]
  cases hc : connection.connected with
  | false =>
    refine ⟨.osError,?_⟩
    simp [otmConnectionHandler, getpeername, hc]
  | true =>
    refine ⟨.attributeError,?_⟩
    simp only [otmConnectionHandler, getpeername, hc, if_true, hbody, Coro.bind_apply, Coro.pure_apply,
      Coro.get_apply, id_eq, hscheduled, Run.bind_done, Coro.ofExcept_ok,
      if_neg (no_otm_add_stream_link handle.cls), Coro.raise_apply]

/-- Where it is not known, the handler only asks for the name of the other side. -/
theorem otmConnectionHandler_unknown {book : Scheduled} (h : book.get? opening.sessionId = none)
    (connection : StreamSocket) :
    otmConnectionHandler connection opening.makeUpdateStreamLinkPacket book =
      if connection.connected then .done () book else .raised .osError book := by
  have hbody : opening.makeUpdateStreamLinkPacket.body.lookup "session_id".toList =
      some (.str opening.sessionId) := rfl
  have hscheduled : book.getScheduled (.str opening.sessionId) = .ok none := by
    rw [getScheduled_str, h]
  cases hc : connection.connected with
  | false => simp [otmConnectionHandler, getpeername, hc]
  | true =>
    simp only [otmConnectionHandler, getpeername, hc, if_true, hbody, Coro.bind_apply, Coro.pure_apply,
      Coro.get_apply, id_eq, hscheduled, Run.bind_done, Coro.ofExcept_ok]

/-- A stream link is handled as it should be exactly if there is nothing to link it to and the stream
is still connected. -/
theorem routed_iff_unknown (h : opening.makeUpdateStreamLinkPacket.toBytes u = some raw)
    (fileHandler dirHandler dataHandler : Handler) (book : Scheduled) (connection : StreamSocket) :
    Routed u peerList (registry fileHandler dirHandler dataHandler) book opening connection raw ↔
      book.get? opening.sessionId = none ∧ connection.connected = true := by
  have hrun := acceptConnection_packet peerList h fileHandler dirHandler dataHandler
    connection book
  cases hbook : book.get? opening.sessionId with
  | some handle =>
    obtain ⟨e,he⟩ := otmConnectionHandler_known hbook connection
    exact iff_of_false (fun hr => hr.noError e book (hrun.trans he)) (fun hnone => nomatch hnone.1)
  | none =>
    have hsame : book.modify opening.sessionId
        (OTMHandle.addStreamLink connection opening.makeUpdateStreamLinkPacket) = book := by
      have := Dict.modify_append_of_notMem (Dict.get?_eq_none_iff.mp hbook) []
        (f := OTMHandle.addStreamLink connection opening.makeUpdateStreamLinkPacket)
      simpa [Dict.modify] using this
    have hunknown := otmConnectionHandler_unknown hbook connection
    constructor
    · rintro ⟨_,hno⟩
      refine ⟨rfl,?_⟩
      by_contra hc
      rw [if_neg hc] at hunknown
      exact hno _ _ (hrun.trans hunknown)
    · rintro ⟨_,hc⟩
      rw [if_pos hc] at hunknown
      refine ⟨?_,fun e b he => ?_⟩
      · rw [hrun, hunknown, hsame]
        rfl
      · rw [hrun, hunknown] at he
        cases he

end

/-- A relay of a session with short names. -/
def shortRelay : SessionRelay where
  sessionId := ['s']
  peerId := ['p']
  passiveEndpointAddr := (['i'],1)

/-- The packet of that relay, packed. -/
def shortPacket : Bytes :=
  0x95::0xb3::Header.otmUpdateStreamLink.map (fun c => UInt8.ofNat c.toNat) ++
    [0xa1,0x70,0xcb,0x3f,0xf0,0,0,0,0,0,0,0x82,0xaa] ++
    "session_id".toList.map (fun c => UInt8.ofNat c.toNat) ++ [0xa1,0x73,0xa9] ++
    "peer_addr".toList.map (fun c => UInt8.ofNat c.toNat) ++ [0x92,0xa1,0x69,0x01,0xc0]

def shortCodec : Umsgpack :=
  .single (.array [.str Header.otmUpdateStreamLink,.str ['p'],.float (.finite 1),
      .map [(.str "session_id".toList,.str ['s']),
        (.str "peer_addr".toList,.array [.str ['i'],.int 1])],.nil]) shortPacket
    (fun
      | .array [.str header,.str ['p'],.float version,
          .map [(.str first,.str ['s']),(.str second,.array [.str ['i'],.int 1])],.nil] =>
        header = Header.otmUpdateStreamLink ∧ version = .finite 1 ∧
          first = "session_id".toList ∧ second = "peer_addr".toList
      | _ => false)
    (by
      intro w h
      split at h
      next header version first second =>
        obtain ⟨rfl,rfl,rfl,rfl⟩ := of_decide_eq_true h
        rfl
      next => cases h)

theorem shortPacket_packed : shortRelay.makeUpdateStreamLinkPacket.toBytes shortCodec = some shortPacket :=
  rfl

/-- A handler that is not reached here. -/
def unreached : Handler := fun _ _ => pure ()

theorem routed_unknown : Routed shortCodec [] (registry unreached unreached unreached) []
    shortRelay ⟨0,true⟩ shortPacket :=
  (routed_iff_unknown shortPacket_packed unreached unreached unreached [] ⟨0,true⟩).mpr ⟨rfl,rfl⟩

/-- The receiver of a session is not linked to by the relay that opens a stream to it. -/
theorem receiver_not_routed : ¬ Routed shortCodec [] (registry unreached unreached unreached)
    [(['s'],⟨.filesReceiver,⟨['s'],['q'],(['j'],2),[]⟩⟩)] shortRelay ⟨0,true⟩ shortPacket := by
  intro h
  have hbook : Dict.get? shortRelay.sessionId [(['s'],⟨.filesReceiver,⟨['s'],['q'],(['j'],2),[]⟩⟩)] =
    some (⟨.filesReceiver,⟨['s'],['q'],(['j'],2),[]⟩⟩ : OTMHandle) := rfl
  obtain ⟨e,he⟩ := otmConnectionHandler_known hbook ⟨0,true⟩
  exact h.noError e _
    ((acceptConnection_packet _ shortPacket_packed unreached unreached unreached ⟨0,true⟩ _).trans he)

end Scheduled
end PeerConnect.Managers
