import PeerConnect.Wire.Value
import Mathlib.Data.List.AList

/-! Requests to the page and its replies: `front_end_data_dispatcher`, the registry of the replies that
are waited for, and the dispatcher of what the page sends. -/
namespace PeerConnect.FrontEnd
open Library Wire

/-- A message from or to the page: a dictionary. -/
structure DataWeaver where
  data : AList fun _ : List Char => Value

namespace DataWeaver

def msgIdKey : List Char := "msgId".toList
def headerKey : List Char := "header".toList

def get (d : DataWeaver) (key : List Char) : Except Exn Value :=
  match d.data.lookup key with
  | some v => .ok v
  | none => .error .keyError

/-- The property `msg_id`, which `id` is another name for. -/
def msgId (d : DataWeaver) : Except Exn Value := d.get msgIdKey

def setMsgId (messageId : List Char) (d : DataWeaver) : DataWeaver :=
  ⟨d.data.insert msgIdKey (.str messageId)⟩

/-- Whether the message has this id. -/
def answers (messageId : List Char) (d : DataWeaver) : Bool :=
  match d.msgId with
  | .ok (.str s) => s = messageId
  | _ => false

/-- The property `type`, `str(self.header[0])`, up to texts that nothing is registered for. -/
def type (d : DataWeaver) : Except Exn (List Char) := do
  match ← d.get headerKey with
  | .str (c::_) => .ok [c]
  | .str [] => .error .indexError
  | .array (.str s::_) => .ok s
  | .array (.int n::_) => .ok (if n < 0 then '-'::Nat.toDigits 10 n.natAbs else Nat.toDigits 10 n.natAbs)
  | .array (_::_) => .ok []
  | .array [] => .error .indexError
  | .map _ => .error .keyError
  | _ => .error .typeError

end DataWeaver

/-- What `is_registered` can be given: it reads the `id` of a message. -/
inductive Object
  | message (d : DataWeaver)
  | value (v : Value)

/-- None of the values of a message has an attribute `id`. -/
def Object.id : Object → Except Exn Value
  | .message d => d.msgId
  | .value _ => .error .attributeError

/-- The headers that `MessageFromFrontEndDispatcher` has handlers for. -/
inductive Handler
  | data
  | signals
  deriving DecidableEq, Repr

def handlerFor (type : List Char) : Except Exn Handler :=
  if type = ['0'] then .ok .data else if type = ['1'] then .ok .signals else .error .keyError

/-- The registry with the futures it has made, each under the number of the call that it was made for,
what the outgoing dispatcher has been handed by which call, and what has come to the handlers. -/
structure Dispatchers where
  idFactory : ℕ := 0
  replyRegistry : AList (fun _ : List Char => ℕ) := ∅
  futures : AList (fun _ : ℕ => List Char × Option DataWeaver) := ∅
  outgoing : List (ℕ × DataWeaver) := []
  handled : List (Handler × DataWeaver) := []

namespace Dispatchers

/-- `FrontEndDispatcher.__call__` -/
def submitOutgoing (call : ℕ) (d : DataWeaver) (s : Dispatchers) : Dispatchers :=
  { s with outgoing := s.outgoing ++ [(call,d)] }

/-- `ReplyRegistry.register_reply` -/
def registerReply (call : ℕ) (s : Dispatchers) : Dispatchers :=
  let replyId := Nat.toDigits 10 s.idFactory
  { s with
    idFactory := s.idFactory+1
    replyRegistry := s.replyRegistry.insert replyId call
    futures := s.futures.insert call (replyId,none) }

def frontEndDataDispatcher (call : ℕ) (d : DataWeaver) (expectReply : Bool) (s : Dispatchers) :
    Dispatchers :=
  if expectReply then s.registerReply call else s.submitOutgoing call d

/-- The call whose future waits for a message with this id; a list or a dictionary has no hash. -/
def lookup (s : Dispatchers) : Value → Except Exn (Option ℕ)
  | .str k => .ok (s.replyRegistry.lookup k)
  | v => if v.hashable then .ok none else .error .typeError

def isRegistered (message : Object) : Coro Exn Dispatchers Bool := do
  let messageId ← Coro.ofExcept message.id
  let s ← Coro.get id
  let call ← Coro.ofExcept (s.lookup messageId)
  pure call.isSome

def setResult (call : ℕ) (d : DataWeaver) (s : Dispatchers) : Dispatchers :=
  match s.futures.lookup call with
  | some (replyId,none) => { s with futures := s.futures.insert call (replyId,some d) }
  | _ => s

/-- `self._reply_registry.pop(message.id)` -/
def pop : Value → Dispatchers → Dispatchers
  | .str k,s => { s with replyRegistry := s.replyRegistry.erase k }
  | _,s => s

def msgArrived (d : DataWeaver) : Coro Exn Dispatchers Unit := do
  let messageId ← Coro.ofExcept d.msgId
  let s ← Coro.get id
  match ← Coro.ofExcept (s.lookup messageId) with
  | none => pure ()
  | some call => Coro.modify fun s => setResult call d (pop messageId s)

/-- `MessageFromFrontEndDispatcher.submit` -/
def submit (d : DataWeaver) : Coro Exn Dispatchers Unit := do
  let messageId ← Coro.ofExcept d.msgId
  let registered ← isRegistered (.value messageId)
  if registered then msgArrived d
  else do
    let type ← Coro.ofExcept d.type
    let handler ← Coro.ofExcept (handlerFor type)
    Coro.modify fun s => { s with handled := s.handled ++ [(handler,d)] }

/-- The id of the message is that of a reply which is waited for. -/
def Registered (s : Dispatchers) (d : DataWeaver) : Prop :=
  ∃ k call, d.answers k = true ∧ s.replyRegistry.lookup k = some call

/-- No message gets past the check for its id: it asks the id for its own id. -/
theorem submit_raises (d : DataWeaver) (s : Dispatchers) :
    ∃ e, submit d s = .raised e s := by
  cases h : d.msgId with
  | error e => exact ⟨e,by simp [submit, h]⟩
  | ok v => exact ⟨.attributeError,by simp [submit, h, isRegistered, Object.id]⟩

end Dispatchers

/-- What happens at the dispatchers, one thing after the other: a request that a reply is waited for, a
message without one, a message that comes from the page, and an id that another registry takes. -/
inductive Event
  | request (d : DataWeaver)
  | inform (d : DataWeaver)
  | arrive (d : DataWeaver)
  | takeId

def Event.isMessage : Event → Bool
  | .inform _ | .takeId => true
  | .request _ | .arrive _ => false

namespace Dispatchers

/-- One event, the `n`-th; what a submission raises ends with its task. -/
def step (n : ℕ) : Event → Coro Exn Dispatchers Unit
  | .request d => Coro.modify (frontEndDataDispatcher n d true)
  | .inform d => Coro.modify (frontEndDataDispatcher n d false)
  | .arrive d => submit d
  | .takeId => Coro.modify fun s => { s with idFactory := s.idFactory+1 }

/-- The dispatchers after some events, numbered from `n` on. -/
def after (s : Dispatchers) : ℕ → List Event → Dispatchers
  | _,[] => s
  | n,e::es => (step n e s).state.after (n+1) es

/-- The messages of the page among some events. -/
def arrivals : List Event → List DataWeaver
  | [] => []
  | .arrive d::es => d::arrivals es
  | _::es => arrivals es

/-- What is promised of some events from the start: every request is handed on once, with an id of its
own, and answered by the first message that comes back with this id; and what is no answer comes to the
handler for its type. -/
structure Answered (es : List Event) : Prop where
  handed : ∀ k d, es[k]? = some (.request d) → ∃ replyId reply,
    (after {} 0 es).futures.lookup k = some (replyId,reply) ∧
    (after {} 0 es).outgoing.filter (·.1 = k) = [(k,d.setMsgId replyId)] ∧
    ∀ k' replyId' reply', k' ≠ k → (after {} 0 es).futures.lookup k' = some (replyId',reply') →
      replyId' ≠ replyId
  resolved : ∀ k d replyId reply, es[k]? = some (.request d) →
    (after {} 0 es).futures.lookup k = some (replyId,reply) →
    reply = (arrivals (es.drop (k+1))).find? (DataWeaver.answers replyId)
  dispatched : ∀ k d, es[k]? = some (.arrive d) → ¬ Registered (after {} 0 (es.take k)) d →
    ∃ type handler s, d.type = .ok type ∧ handlerFor type = .ok handler ∧
      submit d (after {} 0 (es.take k)) = .done () s ∧
      s.handled = (after {} 0 (es.take k)).handled ++ [(handler,d)]

/-- Requests are not among what is handed on. -/
theorem after_outgoing (es : List Event) (s : Dispatchers) (n : ℕ) {k : ℕ} {d : DataWeaver}
    (h : (k,d) ∈ (s.after n es).outgoing) :
    (k,d) ∈ s.outgoing ∨ ∃ j, k = n+j ∧ es[j]? = some (.inform d) := by
  induction es generalizing s n with
  | nil => exact .inl h
  | cons e es ih =>
    rcases ih _ _ h with h | ⟨j,hk,hj⟩
    · cases e with
      | request d' => exact .inl h
      | inform d' =>
        rcases List.mem_append.mp h with h | h
        · exact .inl h
        · obtain ⟨rfl,rfl⟩ := Prod.mk.inj (List.mem_singleton.mp h)
          exact .inr ⟨0,rfl,rfl⟩
      | arrive d' =>
        obtain ⟨e,he⟩ := submit_raises d' s
        rw [step, he] at h
        exact .inl h
      | takeId => exact .inl h
    · exact .inr ⟨j+1,by omega,hj⟩

/-- No reply is waited for without a request. -/
theorem after_replyRegistry (es : List Event) (s : Dispatchers) (n : ℕ)
    (h : ∀ e ∈ es, ∀ d, e ≠ .request d) : (s.after n es).replyRegistry = s.replyRegistry := by
  induction es generalizing s n with
  | nil => rfl
  | cons e es ih =>
    rw [after, ih _ _ fun e' he' => h e' (List.mem_cons_of_mem _ he')]
    cases e with
    | request d => exact absurd rfl (h _ List.mem_cons_self d)
    | inform d => rfl
    | arrive d =>
      obtain ⟨e,he⟩ := submit_raises d s
      rw [step, he]
      rfl
    | takeId => rfl

theorem not_answered_of_request {es : List Event} {d : DataWeaver} (h : Event.request d ∈ es) :
    ¬ Answered es := by
  intro ha
  obtain ⟨k,hk⟩ := List.mem_iff_getElem?.mp h
  obtain ⟨replyId,reply,_,hout,_⟩ := ha.handed k d hk
  have hmem : (k,d.setMsgId replyId) ∈ (after {} 0 es).outgoing :=
    List.mem_of_mem_filter (hout ▸ List.mem_singleton_self _)
  rcases after_outgoing es {} 0 hmem with hnil | ⟨j,hj,hinform⟩
  · cases hnil
  · rw [Nat.zero_add] at hj
    rw [← hj, hk] at hinform
    cases hinform

/-- Everything is answered exactly if nothing is asked by either side: a request is registered but not
handed on, and every message of the page raises. -/
theorem answered_iff_nothing_asked (es : List Event) :
    Answered es ↔ ∀ e ∈ es, e.isMessage = true := by
  constructor
  · intro ha e he
    have hrequest : ∀ e ∈ es, ∀ d, e ≠ .request d := by
      rintro _ he d rfl
      exact not_answered_of_request he ha
    cases e with
    | request d => exact absurd rfl (hrequest _ he d)
    | inform d => rfl
    | takeId => rfl
    | arrive d =>
      obtain ⟨k,hk⟩ := List.mem_iff_getElem?.mp he
      have hfree : ¬ Registered (after {} 0 (es.take k)) d := by
        rintro ⟨id,call,_,hcall⟩
        rw [after_replyRegistry _ _ _ fun e' he' => hrequest e' (List.mem_of_mem_take he')] at hcall
        cases hcall
      obtain ⟨_,_,s,_,_,hdone,_⟩ := ha.dispatched k d hk hfree
      obtain ⟨e,hraised⟩ := submit_raises d (after {} 0 (es.take k))
      rw [hraised] at hdone
      cases hdone
  · intro h
    have hno : ∀ (k : ℕ) (e : Event), es[k]? = some e → e.isMessage = true := fun k e hk =>
      h e (List.mem_of_getElem? hk)
    exact ⟨fun k d hk => Bool.noConfusion (hno k _ hk),fun k d _ _ hk => Bool.noConfusion (hno k _ hk),
      fun k d hk => Bool.noConfusion (hno k _ hk)⟩

/-- A question to the page is never sent. -/
theorem question_not_sent : ¬ ∀ es : List Event, Answered es := fun h =>
  not_answered_of_request List.mem_cons_self (h [.request ⟨∅⟩])

end Dispatchers
end PeerConnect.FrontEnd
