import PeerConnect.Library.Run
import PeerConnect.Wire.Value

/-! The main loop of the program, which enters one state after another. -/
namespace PeerConnect.Managers
open Library Wire

/-- A function that the loop calls, with the event, if any, that it waits for before. -/
structure State where
  name : List Char
  isCoro : Bool
  isBlocking : Bool := false
  event : Option ℕ := none
  deriving DecidableEq

namespace StateManager

/-- Where `process_states` is: at the head of its loop, waiting for the queue, for the event of a state (which
may have been set meanwhile) or for its coroutine, or over, with an exception if one has ended it. -/
inductive Place
  | head
  | getting
  | waiting (s : State) (woken : Bool)
  | running (s : State)
  | ended (failed : Option Exn)
  deriving DecidableEq

end StateManager

/-- The manager with the queue and what the loop has done: what it has got from the queue, which functions it
has called, and which of these have returned to it, a task or anything else. -/
structure StateManager where
  stateQueue : List (Option State) := []
  close : Bool := false
  allTasks : List State := []
  cancelled : List State := []
  place : StateManager.Place := .head
  got : List (Option State) := []
  called : List State := []
  returned : List (State × Bool) := []

namespace StateManager

/-- A function returns to the loop, which keeps a task and goes on. -/
def keep (s : State) (isTask : Bool) (m : StateManager) : StateManager :=
  { m with
    place := .head, returned := m.returned ++ [(s,isTask)]
    allTasks := if isTask then m.allTasks ++ [s] else m.allTasks }

/-- The call of a function that the loop waits for is over. -/
def finish (s : State) (ending : Except Exn Bool) (m : StateManager) : StateManager :=
  match ending with
  | .ok isTask => keep s isTask m
  | .error e => { m with place := .ended (some e) }

/-- `current_state.func`, with what a plain function ends with. What is blocking is wrapped in a task or in a
thread, and so it returns at once. -/
def call (s : State) (ending : Except Exn Bool) (m : StateManager) : StateManager :=
  let m := { m with called := m.called ++ [s] }
  match s.isCoro, s.isBlocking with
  | true,true => keep s true m
  | true,false => { m with place := .running s }
  | false,true => keep s false m
  | false,false => finish s ending m

/-- `enter_state` -/
def enterState (isSet : ℕ → Bool) (ending : Except Exn Bool) (m : StateManager) :
    Option State → StateManager
  | none => { m with place := .ended (some .attributeError) }
  | some s =>
    match s.event with
    | none => call s ending m
    | some e => if isSet e then call s ending m else { m with place := .waiting s false }

/-- What happens: somebody puts a state, signals stopping or sets an event, or the loop goes on to where it
waits next. It then finds some events set, and `ending` is what the call that it makes or waits for
ends with. -/
inductive Event
  | putState (s : Option State)
  | signalStopping
  | set (event : ℕ)
  | goOn (isSet : ℕ → Bool) (ending : Except Exn Bool)

/-- `signal_stopping` does not get to put anything, its call of `put` being a coroutine that nobody
awaits. -/
def signalStopping (m : StateManager) : StateManager :=
  { m with close := true, cancelled := m.cancelled ++ m.allTasks }

def set (event : ℕ) (m : StateManager) : StateManager :=
  match m.place with
  | .waiting s woken => { m with place := .waiting s (woken || s.event = some event) }
  | _ => m

def goOn (isSet : ℕ → Bool) (ending : Except Exn Bool) (m : StateManager) : StateManager :=
  match m.place with
  | .head => if m.close then { m with place := .ended none } else { m with place := .getting }
  | .getting =>
    match m.stateQueue with
    | [] => m
    | s::rest => enterState isSet ending { m with stateQueue := rest, got := m.got ++ [s] } s
  | .waiting s woken => if woken then call s ending m else m
  | .running s => finish s ending m
  | .ended _ => m

def step (m : StateManager) : Event → StateManager
  | .putState s => { m with stateQueue := m.stateQueue ++ [s] }
  | .signalStopping => m.signalStopping
  | .set event => m.set event
  | .goOn isSet ending => m.goOn isSet ending

/-- The manager after some events. -/
def run (es : List Event) : StateManager := after step {} es

/-- The states that are put, in order. -/
def puts (es : List Event) : List (Option State) := es.filterMap fun
  | .putState s => some s
  | _ => none

/-- What has been got and not called: a state that waits for its event, or one that could not be entered. -/
def Entering (m : StateManager) (xs : List (Option State)) : Prop :=
  match m.place with
  | .waiting s _ => xs = [some s]
  | .ended _ => xs.length ≤ 1
  | _ => xs = []

/-- What has been called and has not returned. -/
def Pending (m : StateManager) (xs : List State) : Prop :=
  match m.place with
  | .running s => xs = [s]
  | .ended _ => xs.length ≤ 1
  | _ => xs = []

/-- The loop enters the states one by one, in their order. -/
structure InOrder (m : StateManager) : Prop where
  got : ∃ xs, m.got = m.called.map some ++ xs ∧ m.Entering xs
  called : ∃ xs, m.called = m.returned.map Prod.fst ++ xs ∧ m.Pending xs
  tasks : m.allTasks = (m.returned.filter Prod.snd).map Prod.fst

variable {m : StateManager}

theorem inOrder_new : InOrder ({} : StateManager) := ⟨⟨[],rfl,rfl⟩,⟨[],rfl,rfl⟩,rfl⟩

/-- What the loop has got it has called, and what it has called has returned but for the state given. -/
structure Awaits (m : StateManager) (s : State) : Prop where
  got : m.got = m.called.map some
  called : m.called = m.returned.map Prod.fst ++ [s]
  tasks : m.allTasks = (m.returned.filter Prod.snd).map Prod.fst

variable {s : State}

theorem Awaits.keep (h : Awaits m s) (isTask : Bool) : InOrder (m.keep s isTask) := by
  refine ⟨⟨[],by rw [List.append_nil]; exact h.got,rfl⟩,⟨[],?_,rfl⟩,?_⟩
  · change m.called = (m.returned ++ [(s,isTask)]).map Prod.fst ++ []
    rw [h.called, List.append_nil, List.map_append]
    rfl
  · change (if isTask then m.allTasks ++ [s] else m.allTasks) =
      ((m.returned ++ [(s,isTask)]).filter Prod.snd).map Prod.fst
    rw [List.filter_append, List.map_append, ← h.tasks]
    cases isTask with
    | true => rfl
    | false => exact (List.append_nil _).symm

theorem Awaits.finish (h : Awaits m s) (ending : Except Exn Bool) : InOrder (m.finish s ending) := by
  cases ending with
  | ok isTask => exact h.keep isTask
  | error e =>
    refine ⟨⟨[],?_,Nat.zero_le _⟩,⟨[s],h.called,le_refl _⟩,h.tasks⟩
    rw [List.append_nil]
    exact h.got

/-- The loop has got a state, and all before it have returned. -/
structure Enters (m : StateManager) (s : Option State) : Prop where
  got : m.got = m.called.map some ++ [s]
  called : m.called = m.returned.map Prod.fst
  tasks : m.allTasks = (m.returned.filter Prod.snd).map Prod.fst

theorem Enters.call (h : Enters m (some s)) (ending : Except Exn Bool) : InOrder (m.call s ending) := by
  have hawaits : Awaits { m with called := m.called ++ [s] } s := by
    refine ⟨?_,?_,h.tasks⟩
    · change m.got = (m.called ++ [s]).map some
      rw [h.got, List.map_append]
      rfl
    · change m.called ++ [s] = m.returned.map Prod.fst ++ [s]
      rw [h.called]
  unfold StateManager.call
  split
  · exact hawaits.keep true
  · refine ⟨⟨[],?_,rfl⟩,⟨[s],hawaits.called,rfl⟩,h.tasks⟩
    rw [List.append_nil]
    exact hawaits.got
  · exact hawaits.keep false
  · exact hawaits.finish ending

theorem Enters.enterState {x : Option State} (h : Enters m x) (isSet : ℕ → Bool) (ending : Except Exn Bool) :
    InOrder (m.enterState isSet ending x) := by
  have hcalled : m.called = m.returned.map Prod.fst ++ [] := by rw [List.append_nil, h.called]
  cases x with
  | none => exact ⟨⟨[none],h.got,le_refl _⟩,⟨[],hcalled,Nat.zero_le _⟩,h.tasks⟩
  | some s =>
    unfold StateManager.enterState
    dsimp only
    split
    · exact h.call ending
    · split
      · exact h.call ending
      · exact ⟨⟨[some s],h.got,rfl⟩,⟨[],hcalled,rfl⟩,h.tasks⟩

/-- What the queue is fed with and what is cancelled has no part in the order. -/
theorem InOrder.congr {m' : StateManager} (h : InOrder m) (hp : m'.place = m.place) (hg : m'.got = m.got)
    (hc : m'.called = m.called) (hr : m'.returned = m.returned) (ht : m'.allTasks = m.allTasks) :
    InOrder m' := by
  obtain ⟨⟨xs,hgot,hxs⟩,⟨ys,hcalled,hys⟩,htasks⟩ := h
  refine ⟨⟨xs,by rw [hg, hc, hgot],?_⟩,⟨ys,by rw [hc, hr, hcalled],?_⟩,by rw [ht, hr, htasks]⟩
  · unfold Entering at hxs ⊢
    rwa [hp]
  · unfold Pending at hys ⊢
    rwa [hp]

theorem InOrder.goOn (h : InOrder m) (isSet : ℕ → Bool) (ending : Except Exn Bool) :
    InOrder (m.goOn isSet ending) := by
  obtain ⟨⟨xs,hgot,hxs⟩,⟨ys,hcalled,hys⟩,htasks⟩ := h
  unfold Entering at hxs
  unfold Pending at hys
  unfold StateManager.goOn
  cases hplace : m.place with
  | head =>
    simp only [hplace] at hxs hys ⊢
    subst hxs hys
    split
    · exact ⟨⟨[],hgot,Nat.zero_le _⟩,⟨[],hcalled,Nat.zero_le _⟩,htasks⟩
    · exact ⟨⟨[],hgot,rfl⟩,⟨[],hcalled,rfl⟩,htasks⟩
  | getting =>
    simp only [hplace] at hxs hys ⊢
    subst hxs hys
    rw [List.append_nil] at hgot hcalled
    cases m.stateQueue with
    | nil =>
      refine ⟨⟨[],by rw [List.append_nil, hgot],?_⟩,⟨[],by rw [List.append_nil, hcalled],?_⟩,htasks⟩
      · simp only [Entering, hplace]
      · simp only [Pending, hplace]
    | cons s rest =>
      refine Enters.enterState (m := { m with stateQueue := rest, got := m.got ++ [s] }) ⟨?_,hcalled,htasks⟩
        isSet ending
      change m.got ++ [s] = m.called.map some ++ [s]
      rw [hgot]
  | waiting s woken =>
    simp only [hplace] at hxs hys ⊢
    subst hxs hys
    rw [List.append_nil] at hcalled
    cases woken with
    | true => exact Enters.call ⟨hgot,hcalled,htasks⟩ ending
    | false =>
      refine ⟨⟨[some s],hgot,?_⟩,⟨[],by rw [List.append_nil]; exact hcalled,?_⟩,htasks⟩
      · simp only [Entering, Bool.false_eq_true, if_false, hplace]
      · simp only [Pending, Bool.false_eq_true, if_false, hplace]
  | running s =>
    simp only [hplace] at hxs hys ⊢
    subst hxs hys
    rw [List.append_nil] at hgot
    exact Awaits.finish ⟨hgot,hcalled,htasks⟩ ending
  | ended failed =>
    simp only [hplace] at hxs hys ⊢
    refine ⟨⟨xs,hgot,?_⟩,⟨ys,hcalled,?_⟩,htasks⟩
    · simp only [Entering, hplace]
      exact hxs
    · simp only [Pending, hplace]
      exact hys

theorem InOrder.set (h : InOrder m) (event : ℕ) : InOrder (m.set event) := by
  unfold StateManager.set
  split
  next s woken hplace =>
    obtain ⟨⟨xs,hgot,hxs⟩,⟨ys,hcalled,hys⟩,htasks⟩ := h
    simp only [Entering, hplace] at hxs
    simp only [Pending, hplace] at hys
    exact ⟨⟨xs,hgot,hxs⟩,⟨ys,hcalled,hys⟩,htasks⟩
  · exact h

theorem InOrder.step (h : InOrder m) (e : Event) : InOrder (step m e) := by
  cases e with
  | putState s => exact h.congr rfl rfl rfl rfl rfl
  | signalStopping => exact h.congr rfl rfl rfl rfl rfl
  | set event => exact h.set event
  | goOn isSet ending => exact h.goOn isSet ending

theorem inOrder_run (es : List Event) : InOrder (run es) :=
  after_invariant (fun _ e h => h.step e) inOrder_new es

/-- Calling a function does nothing to the queue. -/
theorem call_queue (s : State) (ending : Except Exn Bool) (m : StateManager) :
    (m.call s ending).got = m.got ∧ (m.call s ending).stateQueue = m.stateQueue ∧
      (m.call s ending).close = m.close ∧ (m.call s ending).place ≠ .getting := by
  unfold call
  split
  · exact ⟨rfl,rfl,rfl,fun h => by cases h⟩
  · exact ⟨rfl,rfl,rfl,fun h => by cases h⟩
  · exact ⟨rfl,rfl,rfl,fun h => by cases h⟩
  · cases ending with
    | ok isTask => exact ⟨rfl,rfl,rfl,fun h => by cases h⟩
    | error e => exact ⟨rfl,rfl,rfl,fun h => by cases h⟩

theorem enterState_queue (isSet : ℕ → Bool) (ending : Except Exn Bool) (m : StateManager) (x : Option State) :
    (m.enterState isSet ending x).got = m.got ∧ (m.enterState isSet ending x).stateQueue = m.stateQueue ∧
      (m.enterState isSet ending x).close = m.close ∧ (m.enterState isSet ending x).place ≠ .getting := by
  cases x with
  | none => exact ⟨rfl,rfl,rfl,fun h => by cases h⟩
  | some s =>
    unfold enterState
    dsimp only
    split
    · exact call_queue s ending m
    · split
      · exact call_queue s ending m
      · exact ⟨rfl,rfl,rfl,fun h => by cases h⟩

/-- What `goOn` does to the queue: nothing, unless it takes the next state from it. -/
theorem goOn_queue (isSet : ℕ → Bool) (ending : Except Exn Bool) (m : StateManager) :
    (m.goOn isSet ending).close = m.close ∧
    ((m.goOn isSet ending).got = m.got ∧ (m.goOn isSet ending).stateQueue = m.stateQueue ∧
        ((m.goOn isSet ending).place = .getting → m.place = .getting ∨ m.close = false) ∨
      m.place = .getting ∧ (m.goOn isSet ending).place ≠ .getting ∧ ∃ s rest, m.stateQueue = s::rest ∧
        (m.goOn isSet ending).got = m.got ++ [s] ∧ (m.goOn isSet ending).stateQueue = rest) := by
  unfold goOn
  split
  · split
    · exact ⟨rfl,.inl ⟨rfl,rfl,fun h => by cases h⟩⟩
    next hc => exact ⟨rfl,.inl ⟨rfl,rfl,fun _ => .inr (Bool.not_eq_true _ ▸ hc)⟩⟩
  next hplace =>
    split
    · exact ⟨rfl,.inl ⟨rfl,rfl,fun _ => .inl hplace⟩⟩
    next s rest hq =>
      obtain ⟨hg,hr,hc,hp⟩ := enterState_queue isSet ending { m with stateQueue := rest, got := m.got ++ [s] } s
      exact ⟨hc,.inr ⟨hplace,hp,s,rest,hq,hg,hr⟩⟩
  next s woken hplace =>
    split
    · obtain ⟨hg,hr,hc,hp⟩ := call_queue s ending m
      exact ⟨hc,.inl ⟨hg,hr,fun h => absurd h hp⟩⟩
    · exact ⟨rfl,.inl ⟨rfl,rfl,fun h => .inl h⟩⟩
  next s hplace =>
    cases ending with
    | ok isTask => exact ⟨rfl,.inl ⟨rfl,rfl,fun h => by cases h⟩⟩
    | error e => exact ⟨rfl,.inl ⟨rfl,rfl,fun h => by cases h⟩⟩
  next failed hplace => exact ⟨rfl,.inl ⟨rfl,rfl,fun h => .inl h⟩⟩

theorem set_eq (event : ℕ) (m : StateManager) : (m.set event).got = m.got ∧
    (m.set event).stateQueue = m.stateQueue ∧ (m.set event).close = m.close ∧
      ((m.set event).place = .getting → m.place = .getting) := by
  unfold set
  split
  · exact ⟨rfl,rfl,rfl,fun h => by cases h⟩
  · exact ⟨rfl,rfl,rfl,id⟩

/-- No state is lost, and none is taken twice. -/
theorem got_append_stateQueue (m : StateManager) (e : Event) :
    (step m e).got ++ (step m e).stateQueue = m.got ++ m.stateQueue ++ puts [e] := by
  cases e with
  | putState s => exact (List.append_assoc _ _ _).symm
  | signalStopping => exact (List.append_nil _).symm
  | set event =>
    obtain ⟨hg,hq,-⟩ := set_eq event m
    change (m.set event).got ++ (m.set event).stateQueue = _ ++ []
    rw [hg, hq, List.append_nil]
  | goOn isSet ending =>
    change (m.goOn isSet ending).got ++ (m.goOn isSet ending).stateQueue = _ ++ []
    rw [List.append_nil]
    rcases (goOn_queue isSet ending m).2 with ⟨hg,hq,-⟩ | ⟨-,-,s,rest,hs,hg,hq⟩
    · rw [hg, hq]
    · rw [hg, hq, hs, List.append_assoc]
      rfl

theorem after_got_append_stateQueue (m : StateManager) (es : List Event) :
    (after step m es).got ++ (after step m es).stateQueue = m.got ++ m.stateQueue ++ puts es := by
  induction es generalizing m with
  | nil => exact (List.append_nil _).symm
  | cons e es ih =>
    rw [after_cons, ih, got_append_stateQueue, List.append_assoc, puts, puts, ← List.filterMap_append]
    rfl

/-- How many states can have been got at the most before the loop is at its head again. -/
def reach (m : StateManager) : ℕ := m.got.length+if m.place = .getting then 1 else 0

theorem reach_step (hm : m.close = true) (e : Event) :
    (step m e).close = true ∧ (step m e).reach ≤ m.reach := by
  have hsame : ∀ m' : StateManager, m'.got = m.got → (m'.place = .getting → m.place = .getting) →
      m'.reach ≤ m.reach := by
    intro m' hg hp
    unfold reach
    rw [hg]
    split
    next h => rw [if_pos (hp h)]
    · exact Nat.le_add_right _ _
  cases e with
  | putState s => exact ⟨hm,hsame _ rfl id⟩
  | signalStopping => exact ⟨rfl,hsame _ rfl id⟩
  | set event =>
    obtain ⟨hg,-,hc,hp⟩ := set_eq event m
    exact ⟨hc.trans hm,hsame _ hg hp⟩
  | goOn isSet ending =>
    obtain ⟨hc,hcases⟩ := goOn_queue isSet ending m
    refine ⟨hc.trans hm,?_⟩
    rcases hcases with ⟨hg,-,hp⟩ | ⟨hp,hnot,s,rest,-,hg,-⟩
    · exact hsame _ hg fun h => (hp h).resolve_right (by rw [hm]; exact Bool.true_eq_false.mp)
    · change (m.goOn isSet ending).reach ≤ m.reach
      rw [reach, reach, hg, if_pos hp, if_neg hnot, List.length_append]
      exact le_refl _

theorem reach_after (hm : m.close = true) (es : List Event) : (after step m es).reach ≤ m.reach := by
  induction es generalizing m with
  | nil => exact le_refl _
  | cons e es ih =>
    obtain ⟨hc,hle⟩ := reach_step hm e
    exact (ih hc).trans hle

/-- The loop goes on twice for each of the states in front of the queue that are blocking and wait for no
event: the functions of all of them are called. -/
theorem called_blocking {ss : List State} (hs : ∀ s ∈ ss, s.isBlocking = true ∧ s.event = none)
    {rest : List (Option State)} (hq : m.stateQueue = ss.map some ++ rest) (hp : m.place = .head)
    (hc : m.close = false) (isSet : ℕ → Bool) (ending : Except Exn Bool) :
    (after step m (List.replicate (2*ss.length) (.goOn isSet ending))).called = m.called ++ ss := by
  induction ss generalizing m with
  | nil => exact (List.append_nil _).symm
  | cons s ss ih =>
    obtain ⟨⟨hb,he⟩,hss⟩ := List.forall_mem_cons.mp hs
    have hfirst : m.goOn isSet ending = { m with place := .getting } := by
      simp [goOn, hp, hc]
    have hsecond : ({ m with place := .getting } : StateManager).goOn isSet ending =
        keep s s.isCoro { m with
          stateQueue := ss.map some ++ rest, got := m.got ++ [some s], called := m.called ++ [s]
          place := .getting } := by
      have hq' : m.stateQueue = some s::(ss.map some ++ rest) := hq
      simp only [goOn, hq', enterState, he, call, hb]
      cases s.isCoro <;> rfl
    rw [List.length_cons, Nat.mul_succ, List.replicate_succ, List.replicate_succ, after_cons, after_cons]
    change (after step ((m.goOn isSet ending).goOn isSet ending) _).called = _
    rw [hfirst, hsecond]
    refine Eq.trans (ih hss ?_ ?_ ?_) (List.append_cons m.called s ss).symm
    · rfl
    · rfl
    · exact hc

/-- In every run the states are got in the order in which they have been put, each is entered when the
functions of all before it have returned, and the tasks that are kept are those that have been returned. Once
stopping is signalled, no more states are got but one for which the loop waits then. Blocking states at
the front of the queue do not hold up one another. -/
theorem states_in_order (es : List Event) :
    (run es).got ++ (run es).stateQueue = puts es ∧ InOrder (run es) ∧
    (∀ es', (run (es ++ .signalStopping::es')).got.length ≤
      (run es).got.length+if (run es).place = .getting then 1 else 0) ∧
    ∀ ss rest isSet ending, (∀ s ∈ ss, s.isBlocking = true ∧ s.event = none) →
      (run es).stateQueue = ss.map some ++ rest → (run es).place = .head → (run es).close = false →
      (run (es ++ List.replicate (2*ss.length) (.goOn isSet ending))).called = (run es).called ++ ss := by
  refine ⟨?_,inOrder_run es,fun es' => ?_,fun ss rest isSet ending hs hq hp hc => ?_⟩
  · exact after_got_append_stateQueue {} es
  · unfold run
    rw [after_append, after_cons]
    have hle := reach_after (m := step (after step {} es) .signalStopping) rfl es'
    exact (Nat.le_add_right _ _).trans hle
  · unfold run
    rw [after_append]
    exact called_blocking hs hq hp hc isSet ending

/-- The two states that initiating the requests puts. -/
def requestStates : List State :=
  [⟨"discovery".toList,true,true,none⟩,⟨"adding this peer to lists".toList,true,true,none⟩]

theorem states_in_order_requests :
    (run (requestStates.map (fun s => .putState (some s)) ++
      List.replicate (2*requestStates.length) (.goOn (fun _ => false) (.ok false)))).called =
        requestStates :=
  (states_in_order (requestStates.map fun s => .putState (some s))).2.2.2 requestStates []
    (fun _ => false) (.ok false) (by decide) rfl rfl rfl

end StateManager
end PeerConnect.Managers
