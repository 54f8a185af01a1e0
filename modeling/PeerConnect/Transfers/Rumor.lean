import PeerConnect.Library.Double
import PeerConnect.Library.Reservoir
import PeerConnect.Wire.Gossip
import Mathlib.Data.List.AList
import Mathlib.Data.Finset.Basic

/-! Rumor mongering: a message that arrives is passed on to a sample of the peers that have not been
told it, until it is dropped. -/
namespace PeerConnect.Transfers
open Library Wire

/-- What the protocol looks at in a message. Dictionaries and sets tell ids apart by a key; an id
without a hash has none. -/
structure Rumor (μ ι : Type) where
  fieldsCheck : μ → Bool
  id : μ → Except Exn ι
  created : μ → Value
  repr : μ → Except Exn Unit
  toBytes : μ → Except Exn Bytes

structure RumorMessageItem (ι π : Type) where
  messageId : ι
  timeIn : ℚ
  creationTime : Value
  peerList : Finset π

structure SimpleRumorMessageList (ι π : Type) where
  messageList : AList fun _ : ι => RumorMessageItem ι π := ∅
  dropped : Finset ι := ∅

/-- The message list, and what has been sent, each message with the peer it was sent to. -/
structure RumorMongerProtocol (μ ι π : Type) extends SimpleRumorMessageList ι π where
  sent : List (μ × π) := []

/-- What a call finds: the ids of `Dock.peer_list`, in the order in which a set of them is run
through, the clocks and the random numbers. -/
structure Surroundings (π : Type) where
  peerIds : List π
  nodup : peerIds.Nodup
  draw : Draws
  monotonic : ℚ
  time : ℚ
  random : ℚ

def nodePovGossipTtl : ℚ := 3

namespace RumorMongerProtocol

variable {μ ι π : Type} [DecidableEq ι] [DecidableEq π]

def alpha : ℕ := 3

/-- Take a message out of the list and remember its id. -/
def drop (s : RumorMongerProtocol μ ι π) (messageId : ι) : RumorMongerProtocol μ ι π :=
  { s with
    messageList := s.messageList.erase messageId
    dropped := insert messageId s.dropped }

def isOldEnough (currentTime messageTimeIn : ℚ) : Bool :=
  nodePovGossipTtl < currentTime-messageTimeIn

/-- One round of the loop of `_disseminate`. -/
def dropIfOld (currentTime : ℚ) (s : RumorMongerProtocol μ ι π) (messageId : ι) :
    RumorMongerProtocol μ ι π :=
  match s.messageList.lookup messageId with
  | some item => if isOldEnough currentTime item.timeIn then s.drop messageId else s
  | none => s

def disseminate (currentTime : ℚ) (s : RumorMongerProtocol μ ι π) : RumorMongerProtocol μ ι π :=
  s.messageList.keys.foldl (dropIfOld currentTime) s

def removeMessage (messageId : ι) : Coro Exn (RumorMongerProtocol μ ι π) Unit := do
  let found ← Coro.get fun s => decide (messageId ∈ s.messageList)
  if found then Coro.modify fun s => s.drop messageId else Coro.raise .keyError

variable (rumor : Rumor μ ι) (env : Surroundings π) (message : μ)

def push : Coro Exn (RumorMongerProtocol μ ι π) Unit := do
  let messageId ← Coro.ofExcept (rumor.id message)
  Coro.modify fun s => { s with
    messageList :=
      s.messageList.insert messageId ⟨messageId,env.monotonic,rumor.created message,∅⟩ }

def samplePeers (messageId : ι) (sampleSize : ℕ) :
    Coro Exn (RumorMongerProtocol μ ι π) (List π) := do
  let found ← Coro.get fun s => s.messageList.lookup messageId
  match found with
  | none => Coro.raise .keyError
  | some m =>
    let reservoir := Reservoir.sample sampleSize env.draw
      (env.peerIds.filter fun peerId => peerId ∉ m.peerList)
    Coro.modify fun s => { s with
      messageList :=
        s.messageList.insert messageId { m with peerList := m.peerList ∪ reservoir.toFinset } }
    pure reservoir

/-- Whether there is a peer of that id, to which the message has been sent then. -/
def forwardPayload (peerId : π) : Coro Exn (RumorMongerProtocol μ ι π) Bool :=
  if peerId ∈ env.peerIds then do
    let _ ← Coro.ofExcept (rumor.toBytes message)
    Coro.modify fun s => { s with sent := s.sent ++ [(message,peerId)] }
    pure true
  else pure false

/-- The loop of `_gossip_forward`. A peer that is not there has no `req_uri` to be printed. -/
def forwardAll : List π → Coro Exn (RumorMongerProtocol μ ι π) Unit
  | [] => pure ()
  | peerId::sampledPeers => do
    let found ← forwardPayload rumor env message peerId
    if found then forwardAll sampledPeers else Coro.raise (.other 0)

def gossipForward : Coro Exn (RumorMongerProtocol μ ι π) Unit := do
  let messageId ← Coro.ofExcept (rumor.id message)
  let sampledPeers ← samplePeers env messageId alpha
  forwardAll rumor env message sampledPeers

/-- The message is printed before anything else is done with it. -/
def gossipMessage : Coro Exn (RumorMongerProtocol μ ι π) Unit := do
  Coro.ofExcept (rumor.repr message)
  push rumor env message
  gossipForward rumor env message

end RumorMongerProtocol

namespace DefaultRumorPolicy

def globalGossipTtl : ℚ := 6

/-- The literal `0.6`. -/
def minChance : ℚ := toDouble (3/5)

/-- `time.time() - message.created`, which only a number is subtracted in. -/
def elapsedTime (time : ℚ) (created : Value) : Except Exn Float64 :=
  match created with
  | .int n => .ok (.finite (time-n))
  | .bool b => .ok (.finite (time-if b then 1 else 0))
  | .float (.finite q) => .ok (.finite (time-q))
  | .float (.inf negative) => .ok (.inf !negative)
  | .float .nan => .ok .nan
  | _ => .error .typeError

/-- Whether a message of that age is passed on, given a random number between 0 and 1. -/
def chance (random : ℚ) : Float64 → Bool
  | .finite elapsed =>
    if globalGossipTtl < elapsed then false
    else random < max minChance ((globalGossipTtl-elapsed)/globalGossipTtl)
  | .inf negative => negative
  | .nan => random < minChance

end DefaultRumorPolicy

namespace RumorMongerProtocol

variable {μ ι π : Type} [DecidableEq ι] [DecidableEq π]
variable (rumor : Rumor μ ι) (env : Surroundings π) (message : μ)

/-- `DefaultRumorPolicy.should_rumor` -/
def shouldRumor : Coro Exn (RumorMongerProtocol μ ι π) Bool := do
  let messageId ← Coro.ofExcept (rumor.id message)
  let isDropped ← Coro.get fun s => decide (messageId ∈ s.dropped)
  if isDropped then pure false else do
    let elapsed ← Coro.ofExcept (DefaultRumorPolicy.elapsedTime env.time (rumor.created message))
    pure (DefaultRumorPolicy.chance env.random elapsed)

def messageArrived : Coro Exn (RumorMongerProtocol μ ι π) Unit :=
  if rumor.fieldsCheck message = false then pure () else do
    let allowed ← shouldRumor rumor env message
    if allowed = false then pure () else do
      let messageId ← Coro.ofExcept (rumor.id message)
      let seen ← Coro.get fun s => decide (messageId ∈ s.messageList)
      if seen then gossipForward rumor env message else gossipMessage rumor env message
      Coro.ofExcept (rumor.repr message)

/-- What can happen to the protocol. -/
inductive Event (μ ι π : Type)
  | gossipMessage (message : μ) (env : Surroundings π)
  | messageArrived (message : μ) (env : Surroundings π)
  | disseminate (currentTime : ℚ)
  | removeMessage (messageId : ι)

def step (s : RumorMongerProtocol μ ι π) : Event μ ι π → RumorMongerProtocol μ ι π
  | .gossipMessage message env => (gossipMessage rumor env message s).state
  | .messageArrived message env => (messageArrived rumor env message s).state
  | .disseminate currentTime => s.disseminate currentTime
  | .removeMessage messageId => (removeMessage messageId s).state

/-- The protocol after some events, from its start on. -/
def run (es : List (Event μ ι π)) : RumorMongerProtocol μ ι π := es.foldl (step rumor) {}

variable {rumor env message} {s : RumorMongerProtocol μ ι π}

/-- The peers that are sampled for a message with the given item. -/
def sampled (env : Surroundings π) (item : RumorMessageItem ι π) : List π :=
  Reservoir.sample alpha env.draw (env.peerIds.filter fun peerId => peerId ∉ item.peerList)

/-- The protocol once these peers have been entered into the item. -/
def enter (s : RumorMongerProtocol μ ι π) (messageId : ι) (item : RumorMessageItem ι π)
    (peers : List π) : RumorMongerProtocol μ ι π :=
  { s with
    messageList :=
      s.messageList.insert messageId { item with peerList := item.peerList ∪ peers.toFinset } }

theorem gossipForward_of_lookup {messageId : ι} {item : RumorMessageItem ι π}
    (hid : rumor.id message = .ok messageId) (hl : s.messageList.lookup messageId = some item) :
    gossipForward rumor env message s =
      forwardAll rumor env message (sampled env item) (s.enter messageId item (sampled env item)) := by
  simp only [gossipForward, Coro.bind_apply, hid, Coro.ofExcept_ok, Run.bind_done, samplePeers,
    Coro.get_apply, hl, Coro.modify_apply, Coro.pure_apply]
  rfl

theorem gossipMessage_of_id {messageId : ι} (hr : rumor.repr message = .ok ())
    (hid : rumor.id message = .ok messageId) :
    gossipMessage rumor env message s = gossipForward rumor env message { s with
      messageList :=
        s.messageList.insert messageId ⟨messageId,env.monotonic,rumor.created message,∅⟩ } := by
  simp only [gossipMessage, Coro.bind_apply, hr, Coro.ofExcept_ok, Run.bind_done, push, hid,
    Coro.modify_apply]

/-- A message that the policy allows is forwarded, or gossiped if it has not been seen. -/
theorem messageArrived_allowed {messageId : ι} (hf : rumor.fieldsCheck message = true)
    (hr : shouldRumor rumor env message s = .done true s) (hid : rumor.id message = .ok messageId) :
    messageArrived rumor env message s =
      ((if messageId ∈ s.messageList then gossipForward rumor env message
        else gossipMessage rumor env message) >>= fun _ => Coro.ofExcept (rumor.repr message)) s := by
  simp only [messageArrived, hf, Bool.true_eq_false, if_false, Coro.bind_apply, hr, Run.bind_done, hid,
    Coro.ofExcept_ok, Coro.get_apply, decide_eq_true_eq]
  split <;> rfl

omit [DecidableEq π] in
theorem mem_of_lookup {messageId : ι} {item : RumorMessageItem ι π}
    (hl : s.messageList.lookup messageId = some item) : messageId ∈ s.messageList :=
  AList.lookup_isSome.mp (by rw [hl]; rfl)

end RumorMongerProtocol
end PeerConnect.Transfers
