import PeerConnect.Core.Submission

/-! The accept loop. Every connection is shaken hands with in a task of the acceptor's own group;
what it asks for then becomes a task of the connection dispatcher. Both groups have the task of the
accept loop for their parent, which an aborting group cancels. -/
namespace PeerConnect.Core
open Library Wire TaskQueue

/-- A connection that has come in, and whether it has been closed from this side. -/
structure Incoming where
  source : Source UInt8
  closed : Bool := false

namespace Acceptor

/-- The handlers of `_perform_handshake`, all of which close the connection. -/
def caught (e : Exn) : Bool := e = .timeoutError ∨ e.isOSError ∨ e = .invalidPacket

def performHandshake (u : Umsgpack) : Coro Exn Incoming (Option WireData) :=
  Coro.tryCatch
    (do
      let rawHandShake ← Coro.zoom Incoming.source (fun s c => { c with source := s }) id
        (Coro.waitFor .timeoutError Frame.receiveAsync)
      if rawHandShake ≠ [] then do
        let handshake ← Coro.ofExcept (WireData.loadFrom u rawHandShake)
        pure (some handshake)
      else pure none)
    fun e =>
      if caught e then do
        Coro.modify fun c => { c with closed := true }
        pure none
      else Coro.raise e

/-- `get_remote_peer_at_every_cost`. The cache answers every id that has a hash, if only with
`None`, so that the search in the network behind its `except KeyError` is never made. -/
def getRemotePeer {σ : Type} (peerList : List (Key × List Char)) (peerId : Value) :
    Coro Exn σ (Option (List Char)) :=
  match lookup peerList peerId with
  | .ok peer => pure (some peer)
  | .error .keyError => pure none
  | .error e => Coro.raise e

/-- `__accept_connection` up to its call of the dispatcher. -/
def acceptConnection (u : Umsgpack) (peerList : List (Key × List Char)) :
    Coro Exn Incoming (Option ConnectionEvent) := do
  let handshake ← performHandshake u
  match handshake with
  | none => pure none
  | some handshake =>
    let peer ← getRemotePeer peerList handshake.peerId
    pure (some ⟨peer,handshake⟩)

end Acceptor

structure Acceptor where
  peerList : List (Key × List Char)
  group : TaskGroup Incoming := {}
  connections : TaskQueue ConnectionEvent (Dispatcher ConnectionEvent)
  /-- The loop is still accepting connections. -/
  accepting : Bool := true

namespace Acceptor

/-- A connection comes in, a connection's task runs up to the dispatcher, a dispatched event runs to
its end, or handlers are registered. -/
inductive Event
  | connect (c : Incoming)
  | accept (i : ℕ)
  | submit (i : ℕ)
  | outside (d : Dispatcher ConnectionEvent)

/-- The parent task is cancelled, and with it all that is running in the acceptor's group. -/
def stop (a : Acceptor) : Acceptor := { a with group := a.group.abort, accepting := false }

def step (u : Umsgpack) (a : Acceptor) : Event → Acceptor
  | .connect c =>
    if a.accepting then { a with group := (a.group.createTask c).getD a.group } else a
  | .accept i =>
    match a.group.running[i]? with
    | none => a
    | some c =>
      match acceptConnection u a.peerList c with
      | .raised _ _ => a.stop
      | .blocked _ => a
      | .done none _ => { a with group := a.group.finished i }
      | .done (some event) _ =>
        -- calling the dispatcher raises a `RuntimeError` once its group is aborting
        match a.connections.group.createTask event with
        | none => a.stop
        | some g =>
          { a with group := a.group.finished i, connections := { a.connections with group := g } }
  | .submit i =>
    let connections := TaskQueue.step ConnectionDispatcher.submit a.connections (.resume i)
    if connections.group.aborting then { a.stop with connections := connections }
    else { a with connections := connections }
  | .outside d => { a with connections := { a.connections with env := d } }

def run (u : Umsgpack) (a : Acceptor) (es : List Event) : Acceptor := es.foldl (step u) a

end Acceptor
end PeerConnect.Core
