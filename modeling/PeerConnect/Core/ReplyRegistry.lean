import PeerConnect.Library.Run
import PeerConnect.Wire.Value
import Mathlib.Data.List.AList

/-! The registry of expected replies. A message that arrives settles the future that was registered under
its id, unless a timeout has cancelled it. -/
namespace PeerConnect.Core
open Library Wire

inductive FutureState (μ : Type)
  | pending
  | cancelled
  | result (message : μ)

/-- The futures stand in the order in which they were made, and the registry has their positions.
`resolved` has the calls of `set_result` that have been made. -/
structure ReplyRegistry (ι μ : Type) where
  replyRegistry : AList fun _ : ι => ℕ := ∅
  futures : List (FutureState μ) := []
  resolved : List (ℕ × μ) := []

namespace ReplyRegistry
variable {ι μ : Type} [DecidableEq ι] (id : μ → ι)

def setResult (fut : ℕ) (message : μ) : Coro Exn (ReplyRegistry ι μ) Unit := do
  match ← Coro.get fun s => s.futures[fut]? with
  | some .pending =>
    Coro.modify fun s => { s with
      futures := s.futures.set fut (.result message)
      resolved := s.resolved ++ [(fut,message)] }
  | _ => Coro.raise .invalidStateError

/-- `fut.done()` -/
def done (fut : ℕ) (s : ReplyRegistry ι μ) : Bool :=
  match s.futures[fut]? with
  | some .pending => false
  | _ => true

def msgArrived (message : μ) : Coro Exn (ReplyRegistry ι μ) Unit := do
  match ← Coro.get fun s => s.replyRegistry.lookup (id message) with
  | none => pure ()
  | some fut =>
    Coro.modify fun s => { s with replyRegistry := s.replyRegistry.erase (id message) }
    if ← Coro.get (done fut) then pure () else setResult fut message

def registerReply (replyId : ι) : Coro Exn (ReplyRegistry ι μ) ℕ := do
  let fut ← Coro.get fun s => s.futures.length
  Coro.modify fun s => { s with
    futures := s.futures ++ [.pending]
    replyRegistry := s.replyRegistry.insert replyId fut }
  pure fut

/-- `fut.cancel()`, which does nothing to a future that is done. -/
def cancel (fut : ℕ) : Coro Exn (ReplyRegistry ι μ) Unit := do
  if ← Coro.get (done fut) then pure ()
  else Coro.modify fun s => { s with futures := s.futures.set fut .cancelled }

/-- What happens to the registry: a reply is registered, a timeout cancels a future, or a message
arrives. -/
inductive Event (ι μ : Type)
  | register (replyId : ι)
  | timeout (fut : ℕ)
  | arrive (message : μ)

def Event.run : Event ι μ → Coro Exn (ReplyRegistry ι μ) Unit
  | .register replyId => do
    let _ ← registerReply replyId
    pure ()
  | .timeout fut => cancel fut
  | .arrive message => msgArrived id message

def step (s : ReplyRegistry ι μ) (e : Event ι μ) : ReplyRegistry ι μ := (e.run id s).state

/-- No reply that is still registered has the id. -/
def Fresh (s : ReplyRegistry ι μ) : Event ι μ → Prop
  | .register replyId => replyId ∉ s.replyRegistry
  | _ => True

instance Fresh.decidable (s : ReplyRegistry ι μ) : ∀ e, Decidable (Fresh s e)
  | .register replyId => inferInstanceAs (Decidable (replyId ∉ s.replyRegistry))
  | .timeout _ => .isTrue trivial
  | .arrive _ => .isTrue trivial

/-- What becomes of a future that is registered under the id before the events. -/
def fate (fut : ℕ) (replyId : ι) : List (Event ι μ) → FutureState μ
  | [] => .pending
  | .register _::es => fate fut replyId es
  | .timeout k::es => if k = fut then .cancelled else fate fut replyId es
  | .arrive message::es => if id message = replyId then .result message else fate fut replyId es

variable {id : μ → ι} {s : ReplyRegistry ι μ} {fut : ℕ} {replyId : ι} {message : μ}

omit [DecidableEq ι] in
theorem done_eq_false_iff : done fut s = false ↔ s.futures[fut]? = some .pending := by
  unfold done
  split
  next h => exact iff_of_true rfl h
  next h => exact iff_of_false (by decide) h

theorem run_register (id : μ → ι) (replyId : ι) (s : ReplyRegistry ι μ) :
    Event.run id (.register replyId) s = .done () { s with
      futures := s.futures ++ [.pending]
      replyRegistry := s.replyRegistry.insert replyId s.futures.length } := rfl

theorem run_timeout_pending (h : s.futures[fut]? = some .pending) :
    Event.run id (.timeout fut) s = .done () { s with futures := s.futures.set fut .cancelled } := by
  simp only [Event.run, cancel, Coro.bind_apply, Coro.get_apply, Run.bind_done, done_eq_false_iff.mpr h,
    Bool.false_eq_true, if_false, Coro.modify_apply]

theorem run_timeout_done (h : s.futures[fut]? ≠ some .pending) :
    Event.run id (.timeout fut) s = .done () s := by
  have hd : done fut s = true := Bool.of_not_eq_false fun hf => h (done_eq_false_iff.mp hf)
  simp only [Event.run, cancel, Coro.bind_apply, Coro.get_apply, Run.bind_done, hd, if_true,
    Coro.pure_apply]

theorem run_arrive_unknown (h : s.replyRegistry.lookup (id message) = none) :
    Event.run id (.arrive message) s = .done () s := by
  simp only [Event.run, msgArrived, Coro.bind_apply, Coro.get_apply, Run.bind_done, h, Coro.pure_apply]

/-- `done` is asked before `set_result`, which therefore does not raise. -/
theorem run_arrive_pending (h : s.replyRegistry.lookup (id message) = some fut)
    (hp : s.futures[fut]? = some .pending) : Event.run id (.arrive message) s = .done () {
      replyRegistry := s.replyRegistry.erase (id message)
      futures := s.futures.set fut (.result message)
      resolved := s.resolved ++ [(fut,message)] } := by
  have hd : done fut { s with replyRegistry := s.replyRegistry.erase (id message) } = false :=
    done_eq_false_iff.mpr hp
  simp only [Event.run, msgArrived, Coro.bind_apply, Coro.get_apply, Run.bind_done, h, Coro.modify_apply,
    hd, Bool.false_eq_true, if_false, setResult, hp]

theorem run_arrive_done (h : s.replyRegistry.lookup (id message) = some fut)
    (hp : s.futures[fut]? ≠ some .pending) : Event.run id (.arrive message) s =
      .done () { s with replyRegistry := s.replyRegistry.erase (id message) } := by
  have hd : done fut { s with replyRegistry := s.replyRegistry.erase (id message) } = true :=
    Bool.of_not_eq_false fun hf => hp (done_eq_false_iff.mp hf)
  simp only [Event.run, msgArrived, Coro.bind_apply, Coro.get_apply, Run.bind_done, h, Coro.modify_apply,
    hd, if_true, Coro.pure_apply]

/-- No event raises, whatever the ids. -/
theorem run_returns (id : μ → ι) (e : Event ι μ) (s : ReplyRegistry ι μ) :
    ∃ s', e.run id s = .done () s' := by
  cases e with
  | register replyId => exact ⟨_,run_register id replyId s⟩
  | timeout fut =>
    by_cases hp : s.futures[fut]? = some .pending
    · exact ⟨_,run_timeout_pending hp⟩
    · exact ⟨_,run_timeout_done hp⟩
  | arrive message =>
    cases h : s.replyRegistry.lookup (id message) with
    | none => exact ⟨_,run_arrive_unknown h⟩
    | some fut =>
      by_cases hp : s.futures[fut]? = some .pending
      · exact ⟨_,run_arrive_pending h hp⟩
      · exact ⟨_,run_arrive_done h hp⟩

/-- Every entry has a future of its own, and what has been resolved is a result. -/
structure Sound (s : ReplyRegistry ι μ) : Prop where
  bound : ∀ i k, s.replyRegistry.lookup i = some k → k < s.futures.length
  own : ∀ i j k, s.replyRegistry.lookup i = some k → s.replyRegistry.lookup j = some k → i = j
  once : (s.resolved.map Prod.fst).Nodup
  results : ∀ k m, (k,m) ∈ s.resolved → s.futures[k]? = some (.result m)

theorem Sound.erase (h : Sound s) (i : ι) :
    Sound { s with replyRegistry := s.replyRegistry.erase i } := by
  have hsub : ∀ j k, (s.replyRegistry.erase i).lookup j = some k → s.replyRegistry.lookup j = some k := by
    intro j k hj
    by_cases hji : j = i
    · rw [hji, AList.lookup_erase] at hj
      cases hj
    · rwa [AList.lookup_erase_ne hji] at hj
  exact ⟨fun j k hj => h.bound j k (hsub j k hj),fun j j' k hj hj' => h.own j j' k (hsub j k hj) (hsub j' k hj'),
    h.once,h.results⟩

theorem Sound.register (h : Sound s) (i : ι) : Sound { s with
    futures := s.futures ++ [.pending]
    replyRegistry := s.replyRegistry.insert i s.futures.length } := by
  have hcases : ∀ j k, (s.replyRegistry.insert i s.futures.length).lookup j = some k →
      j = i ∧ k = s.futures.length ∨ s.replyRegistry.lookup j = some k ∧ k < s.futures.length := by
    intro j k hj
    by_cases hji : j = i
    · rw [hji, AList.lookup_insert] at hj
      exact .inl ⟨hji,(Option.some.inj hj).symm⟩
    · rw [AList.lookup_insert_ne hji] at hj
      exact .inr ⟨hj,h.bound j k hj⟩
  refine ⟨fun j k hj => ?_,fun j j' k hj hj' => ?_,h.once,fun k m hm => ?_⟩
  · rw [List.length_append, List.length_singleton]
    rcases hcases j k hj with ⟨_,rfl⟩ | ⟨_,hk⟩ <;> omega
  · rcases hcases j k hj with ⟨rfl,hk⟩ | ⟨hl,hk⟩ <;> rcases hcases j' k hj' with ⟨rfl,hk'⟩ | ⟨hl',hk'⟩
    · rfl
    · omega
    · omega
    · exact h.own j j' k hl hl'
  · have hr := h.results k m hm
    rwa [List.getElem?_append_left (List.getElem?_eq_some_iff.mp hr).1]

/-- A future that is pending may be settled, as nothing has been resolved under its number. -/
theorem Sound.settle (h : Sound s) (hp : s.futures[fut]? = some .pending) (state : FutureState μ) :
    Sound { s with futures := s.futures.set fut state } := by
  refine ⟨fun i k hi => ?_,h.own,h.once,fun k m hm => ?_⟩
  · rw [List.length_set]
    exact h.bound i k hi
  · have hr := h.results k m hm
    have hne : fut ≠ k := by
      rintro rfl
      rw [hp] at hr
      cases hr
    rwa [List.getElem?_set_ne hne]

theorem Sound.resolve (h : Sound s) (hp : s.futures[fut]? = some .pending) (message : μ) :
    Sound { s with
      futures := s.futures.set fut (.result message)
      resolved := s.resolved ++ [(fut,message)] } := by
  have hs := h.settle hp (.result message)
  refine ⟨hs.bound,hs.own,?_,fun k m hm => ?_⟩
  · rw [List.map_append, List.map_singleton]
    refine List.nodup_append.mpr ⟨h.once,List.nodup_singleton _,fun a ha b hb hab => ?_⟩
    obtain ⟨⟨k,m⟩,hm,rfl⟩ := List.mem_map.mp ha
    have hr := h.results k m hm
    have hk : k = fut := hab.trans (List.mem_singleton.mp hb)
    rw [hk, hp] at hr
    cases hr
  · rcases List.mem_append.mp hm with hm | hm
    · exact hs.results k m hm
    · cases List.mem_singleton.mp hm
      rw [List.getElem?_set_self (List.getElem?_eq_some_iff.mp hp).1]

theorem Sound.step (h : Sound s) (e : Event ι μ) : Sound (step id s e) := by
  rw [ReplyRegistry.step]
  cases e with
  | register replyId =>
    rw [run_register]
    exact h.register replyId
  | timeout fut =>
    by_cases hp : s.futures[fut]? = some .pending
    · rw [run_timeout_pending hp]
      exact h.settle hp .cancelled
    · rwa [run_timeout_done hp]
  | arrive message =>
    cases hl : s.replyRegistry.lookup (id message) with
    | none => rwa [run_arrive_unknown hl]
    | some fut =>
      by_cases hp : s.futures[fut]? = some .pending
      · rw [run_arrive_pending hl hp]
        exact (h.resolve hp message).erase (id message)
      · rw [run_arrive_done hl hp]
        exact h.erase (id message)

theorem Sound.start : Sound ({} : ReplyRegistry ι μ) where
  bound i k h := by cases h
  own i j k h := by cases h
  once := List.nodup_nil
  results k m h := by cases h

theorem sound_after (id : μ → ι) (es : List (Event ι μ)) : Sound (after (step id) {} es) :=
  after_invariant (fun _ e h => h.step e) .start es

/-- A future that is done stays as it is. -/
theorem step_of_done {state : FutureState μ} (h : s.futures[fut]? = some state) (hd : state ≠ .pending)
    (e : Event ι μ) : (step id s e).futures[fut]? = some state := by
  have hset : ∀ k state', s.futures[k]? = some .pending →
      (s.futures.set k state')[fut]? = some state := by
    intro k state' hp
    have hne : k ≠ fut := by
      rintro rfl
      rw [hp] at h
      exact hd (Option.some.inj h).symm
    rwa [List.getElem?_set_ne hne]
  rw [step]
  cases e with
  | register replyId =>
    rw [run_register]
    exact (List.getElem?_append_left (List.getElem?_eq_some_iff.mp h).1).trans h
  | timeout k =>
    by_cases hp : s.futures[k]? = some .pending
    · rw [run_timeout_pending hp]
      exact hset k .cancelled hp
    · rwa [run_timeout_done hp]
  | arrive message =>
    cases hl : s.replyRegistry.lookup (id message) with
    | none => rwa [run_arrive_unknown hl]
    | some k =>
      by_cases hp : s.futures[k]? = some .pending
      · rw [run_arrive_pending hl hp]
        exact hset k (.result message) hp
      · rwa [run_arrive_done hl hp]

theorem after_of_done {state : FutureState μ} (h : s.futures[fut]? = some state) (hd : state ≠ .pending)
    (es : List (Event ι μ)) : (after (step id) s es).futures[fut]? = some state := by
  induction es generalizing s with
  | nil => exact h
  | cons e es ih => exact ih (step_of_done h hd e)

/-- The future is pending, and the entry of the id is its own. -/
structure Waiting (fut : ℕ) (replyId : ι) (s : ReplyRegistry ι μ) : Prop where
  pending : s.futures[fut]? = some .pending
  entry : s.replyRegistry.lookup replyId = some fut

theorem Waiting.register (h : Waiting fut replyId s) {i : ι} (hfresh : i ∉ s.replyRegistry) :
    Waiting fut replyId (step id s (.register i)) := by
  have hne : replyId ≠ i := by
    rintro rfl
    exact hfresh (AList.lookup_isSome.mp (by rw [h.entry]; rfl))
  rw [step, run_register]
  exact ⟨(List.getElem?_append_left (List.getElem?_eq_some_iff.mp h.pending).1).trans h.pending,
    (AList.lookup_insert_ne hne).trans h.entry⟩

theorem Waiting.timeout (h : Waiting fut replyId s) {k : ℕ} (hne : k ≠ fut) :
    Waiting fut replyId (step id s (.timeout k)) := by
  rw [step]
  by_cases hp : s.futures[k]? = some .pending
  · rw [run_timeout_pending hp]
    exact ⟨(List.getElem?_set_ne hne).trans h.pending,h.entry⟩
  · rwa [run_timeout_done hp]

/-- A message with another id leaves the entry and its future alone. -/
theorem arrive_other (h : Sound s) (hl : s.replyRegistry.lookup replyId = some fut)
    (hne : id message ≠ replyId) :
    (step id s (.arrive message)).replyRegistry.lookup replyId = some fut ∧
      (step id s (.arrive message)).futures[fut]? = s.futures[fut]? := by
  rw [step]
  cases hm : s.replyRegistry.lookup (id message) with
  | none => exact (run_arrive_unknown hm).symm ▸ ⟨hl,rfl⟩
  | some k =>
    have herase := (AList.lookup_erase_ne (s := s.replyRegistry) (Ne.symm hne)).trans hl
    by_cases hp : s.futures[k]? = some .pending
    · have hk : k ≠ fut := by
        rintro rfl
        exact hne (h.own _ _ _ hm hl)
      rw [run_arrive_pending hm hp]
      exact ⟨herase,List.getElem?_set_ne hk⟩
    · rw [run_arrive_done hm hp]
      exact ⟨herase,rfl⟩

theorem Waiting.arrive (hs : Sound s) (h : Waiting fut replyId s) (hne : id message ≠ replyId) :
    Waiting fut replyId (step id s (.arrive message)) := by
  obtain ⟨hentry,hfut⟩ := arrive_other hs h.entry hne
  exact ⟨hfut.trans h.pending,hentry⟩

/-- The run of a future that is waited for: the first event that concerns it settles it, and nothing
changes it afterwards. -/
theorem after_of_waiting (hs : Sound s) (h : Waiting fut replyId s) (es : List (Event ι μ))
    (hfresh : Along (step id) Fresh s es) :
    (after (step id) s es).futures[fut]? = some (fate id fut replyId es) := by
  induction es generalizing s with
  | nil => exact h.pending
  | cons e es ih =>
    rw [after_cons]
    cases e with
    | register i => exact ih (hs.step _) (h.register hfresh.1) hfresh.2
    | timeout k =>
      rw [fate]
      split
      next hk =>
        subst hk
        refine after_of_done ?_ (fun he => by cases he) es
        rw [step, run_timeout_pending h.pending]
        exact List.getElem?_set_self (List.getElem?_eq_some_iff.mp h.pending).1
      next hk => exact ih (hs.step _) (h.timeout hk) hfresh.2
    | arrive message =>
      rw [fate]
      split
      next hk =>
        subst hk
        refine after_of_done ?_ (fun he => by cases he) es
        rw [step, run_arrive_pending h.entry h.pending]
        exact List.getElem?_set_self (List.getElem?_eq_some_iff.mp h.pending).1
      next hk => exact ih (hs.step _) (h.arrive hs hk) hfresh.2

theorem waiting_register (id : μ → ι) (replyId : ι) (s : ReplyRegistry ι μ) :
    Waiting s.futures.length replyId (step id s (.register replyId)) := by
  rw [step, run_register]
  exact ⟨List.getElem?_concat_length,AList.lookup_insert _⟩

/-- Whatever is registered under fresh ids, times out and arrives: nothing raises; a future ends as the
first event that concerns it says and is resolved once at most; and a message changes no other entry. -/
theorem replies_matched (id : μ → ι) (es : List (Event ι μ)) (hfresh : Along (step id) Fresh {} es) :
    Along (step id) (fun s e => ∃ s', e.run id s = .done () s') {} es ∧
    (∀ earlier replyId later, es = earlier ++ .register replyId::later →
      (after (step id) {} es).futures[(after (step id) {} earlier).futures.length]? =
        some (fate id (after (step id) {} earlier).futures.length replyId later)) ∧
    ((after (step id) {} es).resolved.map Prod.fst).Nodup ∧
    (∀ fut message, (fut,message) ∈ (after (step id) {} es).resolved →
      (after (step id) {} es).futures[fut]? = some (.result message)) ∧
    (∀ earlier message later, es = earlier ++ .arrive message::later →
      ∀ other fut, other ≠ id message →
        (after (step id) {} earlier).replyRegistry.lookup other = some fut →
          (step id (after (step id) {} earlier) (.arrive message)).replyRegistry.lookup other = some fut ∧
          (step id (after (step id) {} earlier) (.arrive message)).futures[fut]? =
            (after (step id) {} earlier).futures[fut]?) := by
  refine ⟨along_of_forall (fun s e => run_returns id e s) {} es,?_,(sound_after id es).once,
    (sound_after id es).results,?_⟩
  · rintro earlier replyId later rfl
    rw [after_append, after_cons]
    refine after_of_waiting ((sound_after id earlier).step _) (waiting_register id replyId _) later ?_
    exact (along_append.mp hfresh).2.2
  · rintro earlier message later rfl other fut hne hl
    exact arrive_other (sound_after id earlier) hl hne.symm

/-- A reply, a timeout with a late reply, and a message that nothing waits for. -/
def repliesAndTimeouts : List (Event ℕ (ℕ × ℕ)) :=
  [.register 1,.register 2,.arrive (1,5),.arrive (1,6),.timeout 1,.arrive (2,7),.arrive (3,8)]

theorem replies_matched_some :
    Along (step Prod.fst) Fresh ({} : ReplyRegistry ℕ (ℕ × ℕ)) repliesAndTimeouts ∧
    (after (step Prod.fst) {} repliesAndTimeouts).futures[0]? = some (.result (1,5)) ∧
    (after (step Prod.fst) {} repliesAndTimeouts).futures[1]? = some .cancelled := by
  have hfresh : Along (step Prod.fst) Fresh ({} : ReplyRegistry ℕ (ℕ × ℕ)) repliesAndTimeouts := by
    decide
  have h := (replies_matched Prod.fst repliesAndTimeouts hfresh).2.1
  exact ⟨hfresh,h [] 1 _ rfl,h [.register 1] 2 _ rfl⟩

end ReplyRegistry
end PeerConnect.Core
