import PeerConnect.Wire.Packet
import PeerConnect.Library.TaskGroup

/-! The dispatchers: a registry of handlers looked up by a value from the wire, run inside the
task group of `QueueMixIn`. -/
namespace PeerConnect.Core
open Library Wire

/-- The keys under which handlers and replies are registered. -/
inductive Key
  | str (s : List Char)
  | bytes (b : Bytes)
  deriving DecidableEq

def Key.ofValue? : Value → Option Key
  | .str s => some (.str s)
  | .bin b => some (.bytes b)
  | _ => none

/-- Indexing a dictionary: a value without a hash is a `TypeError`. -/
def lookup {α : Type} (d : List (Key × α)) (v : Value) : Except Exn α :=
  if v.hashable then
    match (Key.ofValue? v).bind fun key => d.lookup key with
    | some a => .ok a
    | none => .error .keyError
  else .error .typeError

/-- What a call of a handler gives: a plain value, something to await, or an exception. -/
inductive Answer
  | value
  | awaitable (ending : Except Exn Unit)
  | raised (e : Exn)

namespace Answer

/-- `r = handler(event)`, awaited if it can be. -/
def awaitIfAwaitable {σ : Type} : Answer → Coro Exn σ Unit
  | value => pure ()
  | awaitable r => Coro.ofExcept r
  | raised e => Coro.raise e

/-- `await handler(event)`. -/
def await {σ : Type} : Answer → Coro Exn σ Unit
  | value => Coro.raise .typeError
  | awaitable r => Coro.ofExcept r
  | raised e => Coro.raise e

/-- The exception that awaiting an answer where possible ends with. -/
def failure : Answer → Option Exn
  | value | awaitable (.ok ()) => none
  | awaitable (.error e) | raised e => some e

/-- The exception that awaiting an answer ends with. -/
def awaitFailure : Answer → Option Exn
  | value => some .typeError
  | a => a.failure

theorem awaitIfAwaitable_apply {σ : Type} (a : Answer) (s : σ) :
    a.awaitIfAwaitable s = a.failure.elim (.done () s) fun e => .raised e s := by
  rcases a with _ | (_ | _) | _ <;> rfl

theorem await_apply {σ : Type} (a : Answer) (s : σ) :
    a.await s = a.awaitFailure.elim (.done () s) fun e => .raised e s := by
  rcases a with _ | (_ | _) | _ <;> rfl

end Answer

/-- A dispatcher with handlers for events of type `ε`. A registered reply is a future, done or
not; what has arrived for one that was not is kept. -/
structure Dispatcher (ε : Type) where
  registry : List (Key × (ε → Answer)) := []
  replyRegistry : List (Key × Bool) := []
  replied : List (Key × WireData) := []

namespace Dispatcher
variable {ε : Type}

def registerReply (d : Dispatcher ε) (id : Key) : Dispatcher ε :=
  { d with replyRegistry := (id,false)::d.replyRegistry }

/-- `ReplyRegistryMixIn.msg_arrived` -/
def msgArrived (message : WireData) : Coro Exn (Dispatcher ε) Unit := fun d =>
  match lookup d.replyRegistry message.id, Key.ofValue? message.id with
  | .ok fut, some key =>
    .done () { d with
      replyRegistry := d.replyRegistry.filter fun entry => entry.1 ≠ key
      replied := if fut then d.replied else (key,message)::d.replied }
  | .error .keyError, _ => .done () d
  | .error e, _ => .raised e d
  | .ok _, none => .done () d

/-- `self.registry[header]` -/
def handlerOf (header : Value) : Coro Exn (Dispatcher ε) (ε → Answer) := fun d =>
  Coro.ofExcept (lookup d.registry header) d

end Dispatcher

structure RequestEvent where
  rootCode : Bytes
  request : WireData
  fromAddr : List Char × ℕ

structure GossipEvent where
  message : WireData
  fromAddr : List Char × ℕ

structure ConnectionEvent where
  peer : Option (List Char)
  handshake : WireData

structure StreamDataEvent where
  data : WireData

def RequestsDispatcher.submit (event : RequestEvent) : Coro Exn (Dispatcher RequestEvent) Unit := do
  Dispatcher.msgArrived event.request
  let found ← Coro.tryCatch (do return some (← Dispatcher.handlerOf (.bin event.rootCode)))
    fun e => if e = .keyError then pure none else Coro.raise e
  match found with
  | none => pure ()
  | some handler => Coro.tryCatch (handler event).awaitIfAwaitable fun _ => pure ()

def GossipDispatcher.submit (event : RequestEvent) : Coro Exn (Dispatcher GossipEvent) Unit := do
  let handler ← Dispatcher.handlerOf event.request.header
  (handler ⟨event.request,event.fromAddr⟩).await

def DiscoveryDispatcher.submit (event : RequestEvent) :
    Coro Exn (Dispatcher RequestEvent) Unit := do
  Dispatcher.msgArrived event.request
  let handle ← Dispatcher.handlerOf event.request.header
  Coro.tryCatch (handle event).await
    fun e => if e = .runtimeError then pure () else Coro.raise e

def ConnectionDispatcher.submit (event : ConnectionEvent) :
    Coro Exn (Dispatcher ConnectionEvent) Unit := do
  let handler ← Dispatcher.handlerOf event.handshake.header
  (handler event).awaitIfAwaitable

def StreamDataDispatcher.submit (event : StreamDataEvent) :
    Coro Exn (Dispatcher StreamDataEvent) Unit := do
  let handler ← Dispatcher.handlerOf event.data.header
  (handler event).awaitIfAwaitable

end PeerConnect.Core
