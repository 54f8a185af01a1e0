import PeerConnect.Core.Dispatcher

/-! Which packets each dispatcher survives. -/
namespace PeerConnect.Core
open Library Wire TaskQueue

variable {ε α : Type}

theorem lookup_unhashable (d : List (Key × α)) {v : Value} (h : v.hashable = false) :
    lookup d v = .error .typeError := by simp [lookup, h]

/-- Looking up a value that has a hash fails only by not finding it. -/
theorem lookup_hashable (d : List (Key × α)) {v : Value} (h : v.hashable = true) :
    lookup d v = .error .keyError ∨ ∃ key a, Key.ofValue? v = some key ∧ lookup d v = .ok a := by
  simp only [lookup, h, if_true]
  cases hk : Key.ofValue? v with
  | none => exact .inl rfl
  | some key =>
    cases hl : d.lookup key with
    | none => exact .inl (by simp [hl])
    | some a => exact .inr ⟨key,a,rfl,by simp [hl]⟩

namespace Dispatcher

theorem msgArrived_unhashable (message : WireData) (d : Dispatcher ε)
    (h : message.id.hashable = false) : msgArrived message d = .raised .typeError d := by
  simp [msgArrived, lookup_unhashable _ h]

/-- A reply is taken out of its registry; the handlers stay. -/
theorem msgArrived_hashable (message : WireData) (d : Dispatcher ε)
    (h : message.id.hashable = true) :
    ∃ d', msgArrived message d = .done () d' ∧ d'.registry = d.registry := by
  rcases lookup_hashable d.replyRegistry h with hl | ⟨key,fut,hk,hl⟩
  · exact ⟨d,by simp [msgArrived, hl],rfl⟩
  · refine ⟨_,by rw [msgArrived, hl, hk],?_⟩
    rfl

theorem handlerOf_ok (header : Value) (d : Dispatcher ε) {handler : ε → Answer}
    (h : lookup d.registry header = .ok handler) : handlerOf header d = .done handler d := by
  simp [handlerOf, h]

theorem handlerOf_error (header : Value) (d : Dispatcher ε) {e : Exn}
    (h : lookup d.registry header = .error e) : handlerOf header d = .raised e d := by
  simp [handlerOf, h]

/-- The handler for the header is registered and what it answers to the event is fine. -/
def Handles (d : Dispatcher ε) (header : Value) (event : ε) (fine : Answer → Prop) : Prop :=
  ∃ handler, lookup d.registry header = .ok handler ∧ fine (handler event)

/-- Looking up the handler and running it raises exactly if it is not there or not fine. -/
theorem raises_handlerOf (d : Dispatcher ε) (header : Value) (event : ε) (fine : Answer → Prop)
    (run : Answer → Coro Exn (Dispatcher ε) Unit)
    (hrun : ∀ a, Raises (run a) d ↔ ¬ fine a) :
    Raises (handlerOf header >>= fun handler => run (handler event)) d ↔
      ¬ d.Handles header event fine := by
  unfold Handles Raises
  cases hl : lookup d.registry header with
  | error e => simp [handlerOf_error _ _ hl]
  | ok handler =>
    simp only [Coro.bind_apply, handlerOf_ok _ _ hl, Run.bind_done, Except.ok.injEq,
      exists_eq_left']
    exact hrun (handler event)

end Dispatcher

theorem Answer.raises_awaitIfAwaitable {σ : Type} (a : Answer) (s : σ) :
    Raises a.awaitIfAwaitable s ↔ ¬ a.failure = none := by
  unfold Raises
  rw [a.awaitIfAwaitable_apply]
  cases a.failure <;> simp

theorem Answer.raises_await {σ : Type} (a : Answer) (s : σ) :
    Raises a.await s ↔ ¬ a.awaitFailure = none := by
  unfold Raises
  rw [a.await_apply]
  cases a.awaitFailure <;> simp

/-- Awaiting an answer under `except RuntimeError`. -/
theorem Answer.raises_await_except {σ : Type} (a : Answer) (s : σ) :
    Raises (Coro.tryCatch a.await fun e => if e = .runtimeError then pure () else Coro.raise e) s ↔
      ¬ (a.awaitFailure = none ∨ a.awaitFailure = some .runtimeError) := by
  unfold Raises
  rw [Coro.tryCatch_apply, a.await_apply]
  cases a.awaitFailure with
  | none => simp
  | some e => by_cases he : e = .runtimeError <;> simp [he]

theorem RequestsDispatcher.submit_raises (event : RequestEvent) (d : Dispatcher RequestEvent) :
    Raises (submit event) d ↔ ¬ event.request.id.hashable = true := by
  constructor
  · rintro ⟨e,s,hr⟩ hh
    obtain ⟨d',hm,_⟩ := Dispatcher.msgArrived_hashable event.request d hh
    have hkey : Value.hashable (.bin event.rootCode) = true := rfl
    rcases lookup_hashable d'.registry hkey with hl | ⟨_,handler,_,hl⟩
    · simp [submit, hm, Dispatcher.handlerOf_error _ _ hl] at hr
    · simp only [submit, Coro.bind_apply, hm, Run.bind_done, Coro.tryCatch_apply,
        Dispatcher.handlerOf_ok _ _ hl, Coro.pure_apply, Run.handle_done,
        (handler event).awaitIfAwaitable_apply] at hr
      cases hf : (handler event).failure <;> simp [hf] at hr
  · intro hh
    exact ⟨.typeError,d,by simp [submit, Dispatcher.msgArrived_unhashable _ d (by simpa using hh)]⟩

theorem GossipDispatcher.submit_raises (event : RequestEvent) (d : Dispatcher GossipEvent) :
    Raises (submit event) d ↔
      ¬ d.Handles event.request.header ⟨event.request,event.fromAddr⟩ (·.awaitFailure = none) :=
  d.raises_handlerOf _ _ _ Answer.await fun a => a.raises_await d

theorem ConnectionDispatcher.submit_raises (event : ConnectionEvent)
    (d : Dispatcher ConnectionEvent) :
    Raises (submit event) d ↔ ¬ d.Handles event.handshake.header event (·.failure = none) :=
  d.raises_handlerOf _ _ _ Answer.awaitIfAwaitable fun a => a.raises_awaitIfAwaitable d

theorem StreamDataDispatcher.submit_raises (event : StreamDataEvent)
    (d : Dispatcher StreamDataEvent) :
    Raises (submit event) d ↔ ¬ d.Handles event.data.header event (·.failure = none) :=
  d.raises_handlerOf _ _ _ Answer.awaitIfAwaitable fun a => a.raises_awaitIfAwaitable d

theorem DiscoveryDispatcher.submit_raises (event : RequestEvent) (d : Dispatcher RequestEvent) :
    Raises (submit event) d ↔
      ¬ (event.request.id.hashable = true ∧ d.Handles event.request.header event
          fun a => a.awaitFailure = none ∨ a.awaitFailure = some .runtimeError) := by
  by_cases hh : event.request.id.hashable = true
  · obtain ⟨d',hm,hreg⟩ := Dispatcher.msgArrived_hashable event.request d hh
    have h := d'.raises_handlerOf event.request.header event
      (fun a => a.awaitFailure = none ∨ a.awaitFailure = some .runtimeError)
      (fun a => Coro.tryCatch a.await fun e => if e = .runtimeError then pure () else Coro.raise e)
      fun a => a.raises_await_except d'
    have hs : Raises (submit event) d ↔ Raises (Dispatcher.handlerOf event.request.header >>=
        fun handle => Coro.tryCatch (handle event).await
          fun e => if e = .runtimeError then pure () else Coro.raise e) d' := by
      unfold Raises
      rw [submit, Coro.bind_apply, hm, Run.bind_done]
    rw [hs, h]
    simp [Dispatcher.Handles, hreg, hh]
  · have hm := Dispatcher.msgArrived_unhashable event.request d (by simpa using hh)
    simp [Raises, submit, hm, hh]

/-- The dispatchers with a registry of handlers by header. -/
inductive DispatcherKind
  | gossip
  | discovery
  | connection
  | streamData
  deriving DecidableEq, Repr

namespace DispatcherKind

/-- What is submitted to the dispatcher, and what its handlers get. -/
def Event : DispatcherKind → Type
  | gossip => RequestEvent
  | discovery => RequestEvent
  | connection => ConnectionEvent
  | streamData => StreamDataEvent

def HandlerEvent : DispatcherKind → Type
  | gossip => GossipEvent
  | discovery => RequestEvent
  | connection => ConnectionEvent
  | streamData => StreamDataEvent

def submit : (k : DispatcherKind) → k.Event → Coro Exn (Dispatcher k.HandlerEvent) Unit
  | gossip => GossipDispatcher.submit
  | discovery => DiscoveryDispatcher.submit
  | connection => ConnectionDispatcher.submit
  | streamData => StreamDataDispatcher.submit

/-- The header is registered and its handler ends without an exception. Gossip and discovery also need
something to await; discovery lets a `RuntimeError` of the handler pass, and needs an id with a
hash. -/
def Handled : (k : DispatcherKind) → k.Event → Dispatcher k.HandlerEvent → Prop
  | gossip => fun (event : RequestEvent) d =>
    d.Handles event.request.header ⟨event.request,event.fromAddr⟩ (·.awaitFailure = none)
  | discovery => fun (event : RequestEvent) d =>
    event.request.id.hashable = true ∧ d.Handles event.request.header event
      fun a => a.awaitFailure = none ∨ a.awaitFailure = some .runtimeError
  | connection => fun (event : ConnectionEvent) d =>
    d.Handles event.handshake.header event (·.failure = none)
  | streamData => fun (event : StreamDataEvent) d =>
    d.Handles event.data.header event (·.failure = none)

end DispatcherKind

/-- Each of the four dispatchers survives exactly the packets that are handled. -/
theorem dispatchers_survive_exactly_handled (k : DispatcherKind) :
    SurvivesExactlyWhen k.submit k.Handled := by
  cases k with
  | gossip => exact .of_raises GossipDispatcher.submit_raises
  | discovery => exact .of_raises DiscoveryDispatcher.submit_raises
  | connection => exact .of_raises ConnectionDispatcher.submit_raises
  | streamData => exact .of_raises StreamDataDispatcher.submit_raises

/-- The packet in which nothing is set. -/
def blankPacket : Value := .array [.nil,.nil,.nil,.map [],.nil]

def blankCodec : Umsgpack :=
  .single blankPacket [0x95,0xc0,0xc0,0xc0,0x80,0xc0]
    (fun | .array [.nil,.nil,.nil,.map [],.nil] => true | _ => false)
    (by intro w h; split at h <;> simp_all [blankPacket])

/-- No dispatcher has a handler for a header that is not set, and none of them catches the
`KeyError`. -/
theorem dispatchers_aborted_by_blank :
    ¬ ∀ (u : Umsgpack) (data : Bytes) (w : WireData), WireData.loadFrom u data = .ok w →
      (∀ d, ¬ Raises (GossipDispatcher.submit ⟨[1],w,"10.0.0.7".toList,4000⟩) d) ∨
      (∀ d, ¬ Raises (DiscoveryDispatcher.submit ⟨[1],w,"10.0.0.7".toList,4000⟩) d) ∨
      (∀ d, ¬ Raises (ConnectionDispatcher.submit ⟨none,w⟩) d) ∨
      (∀ d, ¬ Raises (StreamDataDispatcher.submit ⟨w⟩) d) := by
  intro h
  have hl : WireData.loadFrom blankCodec [0x95,0xc0,0xc0,0xc0,0x80,0xc0] =
      .ok ⟨.nil,.nil,.nil,[],.nil⟩ := rfl
  rcases h blankCodec _ _ hl with h | h | h | h
  · exact h {} ⟨.keyError,{},rfl⟩
  · exact h {} ⟨.keyError,{},rfl⟩
  · exact h {} ⟨.keyError,{},rfl⟩
  · exact h {} ⟨.keyError,{},rfl⟩

end PeerConnect.Core
