import PeerConnect.FrontEnd.Replies
import PeerConnect.Library.Deque
import PeerConnect.Library.Run

/-! What is sent to the page: the tasks of `FrontEndWebSocketDispatcher.submit`, which take turns at the
awaits of `transport.send`, with the buffer that they share. -/
namespace PeerConnect.FrontEnd
open Library

/-- Something that was submitted, under the number of its submission. -/
structure Message where
  number : ℕ
  data : DataWeaver

/-- Where a task of `submit` is: waiting for the transport to send a message, which came with the call or
(`buffered`) from the buffer, about to go on after the message was sent, or at its end. -/
inductive Task
  | sending (m : Message) (buffered : Bool)
  | sent
  | ended

/-- The message that only this task has. -/
def Task.held : Task → Option Message
  | .sending m _ => some m
  | _ => none

/-- The dispatcher with its tasks and what has become of the messages: `submitted` in their order,
`delivered` to the page, `discarded` with what was in the buffer then, and `lost` to an exception. -/
structure FrontEndWebSocketDispatcher (maxBufferSize : ℕ) where
  isTransportConnected : Bool
  buffer : Deque Message maxBufferSize := {}
  tasks : List Task := []
  submitted : List Message := []
  delivered : List Message := []
  discarded : List (Message × List Message) := []
  lost : List Message := []

/-- A call of `submit`, the transport that delivers the message of a task or raises, a task that goes on
after its message was delivered, and a new transport. -/
inductive Delivery
  | submit (data : DataWeaver)
  | deliver (task : ℕ)
  | resume (task : ℕ)
  | fail (task : ℕ)
  | updateTransport

namespace FrontEndWebSocketDispatcher
variable {n : ℕ}

def setTask (k : ℕ) (t : Task) (s : FrontEndWebSocketDispatcher n) : FrontEndWebSocketDispatcher n :=
  { s with tasks := s.tasks.set k t }

/-- `self.buffer.append`, with what falls out of the full buffer. -/
def bufferAppend (m : Message) (s : FrontEndWebSocketDispatcher n) : FrontEndWebSocketDispatcher n :=
  { s with
    buffer := s.buffer.append m
    discarded := s.discarded ++ (s.buffer.overflow m).map (·,s.buffer.items) }

/-- `self.buffer.appendleft` -/
def bufferAppendLeft (m : Message) (s : FrontEndWebSocketDispatcher n) : FrontEndWebSocketDispatcher n :=
  { s with
    buffer := s.buffer.appendLeft m
    discarded := s.discarded ++ (s.buffer.overflowRight m).map (·,s.buffer.items) }

/-- `none` is the `IndexError` of a buffer that is full and empty. -/
def handleBufferAndLog (s : FrontEndWebSocketDispatcher n) : Option (FrontEndWebSocketDispatcher n) :=
  if s.buffer.items.length ≥ n then
    match s.buffer.popLeft with
    | some (m,buffer) =>
      some { s with buffer := buffer, discarded := s.discarded ++ [(m,s.buffer.items)] }
    | none => none
  else some s

def submit (data : DataWeaver) (s : FrontEndWebSocketDispatcher n) : FrontEndWebSocketDispatcher n :=
  let m := ⟨s.submitted.length,data⟩
  let s := { s with submitted := s.submitted ++ [m] }
  if s.isTransportConnected then { s with tasks := s.tasks ++ [.sending m false] }
  else { s.bufferAppend m with tasks := s.tasks ++ [.ended] }

/-- One round of the loop of `_send_buffer`, up to the next message that is sent. -/
def sendBuffer (k : ℕ) (s : FrontEndWebSocketDispatcher n) : FrontEndWebSocketDispatcher n :=
  match s.buffer.popLeft with
  | some (m,buffer) => { s.setTask k (.sending m true) with buffer := buffer }
  | none => s.setTask k .ended

/-- The handler of the `WebSocketException` that the sending of a message ends with. -/
def handleException (k : ℕ) (m : Message) (buffered : Bool) (s : FrontEndWebSocketDispatcher n) :
    FrontEndWebSocketDispatcher n :=
  let s := { s.setTask k .ended with isTransportConnected := false }
  match s.handleBufferAndLog with
  | some s => if buffered then s.bufferAppendLeft m else s.bufferAppend m
  | none => { s with lost := s.lost ++ [m] }

/-- Nothing happens to a task that is not where the event finds it. -/
def step (s : FrontEndWebSocketDispatcher n) : Delivery → FrontEndWebSocketDispatcher n
  | .submit data => s.submit data
  | .deliver k =>
    match s.tasks[k]? with
    | some (.sending m _) => { s.setTask k .sent with delivered := s.delivered ++ [m] }
    | _ => s
  | .resume k =>
    match s.tasks[k]? with
    | some .sent => s.sendBuffer k
    | _ => s
  | .fail k =>
    match s.tasks[k]? with
    | some (.sending m buffered) => s.handleException k m buffered
    | _ => s
  | .updateTransport => { s with isTransportConnected := true }

/-- What the tasks have that nobody else has. -/
def held (s : FrontEndWebSocketDispatcher n) : List Message := s.tasks.filterMap Task.held

/-- Everything that a message can have come to. -/
def placed (s : FrontEndWebSocketDispatcher n) : List Message :=
  s.delivered ++ s.buffer.items ++ s.held ++ s.discarded.map Prod.fst ++ s.lost

/-- Nothing is twice anywhere, and nothing is gone. -/
def Conserved (s : FrontEndWebSocketDispatcher n) : Prop := s.placed.Perm s.submitted

section Conservation
variable {s : FrontEndWebSocketDispatcher n} {k : ℕ} {t : Task} {m x : Message}

end Conservation

/-- A new dispatcher, with or without a transport. -/
def init (isTransportConnected : Bool) : FrontEndWebSocketDispatcher n := { isTransportConnected }

theorem Conserved.length {s : FrontEndWebSocketDispatcher n} (h : s.Conserved) :
    s.delivered.length + s.buffer.items.length + s.held.length + s.discarded.length + s.lost.length =
      s.submitted.length := by
  simpa [placed, Nat.add_assoc] using h.length_eq

end FrontEndWebSocketDispatcher
end PeerConnect.FrontEnd
