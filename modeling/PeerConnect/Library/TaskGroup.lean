import PeerConnect.Library.Coroutine
import Mathlib.Data.List.Basic

/-! Structured concurrency. A group owns the tasks started in it; the first of them to end with
an error aborts the group, which cancels the others and starts no more. A queue is a group all
of whose tasks run one coroutine, each on its own argument. -/
namespace PeerConnect.Library

variable {τ ε σ : Type}

structure TaskGroup (τ : Type) where
  running : List τ := []
  aborting : Bool := false

namespace TaskGroup

/-- Start a task. An aborting group refuses. -/
def createTask (g : TaskGroup τ) (t : τ) : Option (TaskGroup τ) :=
  if g.aborting then none else some { g with running := g.running ++ [t] }

def finished (g : TaskGroup τ) (i : ℕ) : TaskGroup τ := { g with running := g.running.eraseIdx i }

def abort (_ : TaskGroup τ) : TaskGroup τ := ⟨[],true⟩

@[simp] theorem finished_aborting (g : TaskGroup τ) (i : ℕ) :
    (g.finished i).aborting = g.aborting := rfl
@[simp] theorem abort_aborting (g : TaskGroup τ) : g.abort.aborting = true := rfl
@[simp] theorem abort_running (g : TaskGroup τ) : g.abort.running = [] := rfl

theorem createTask_eq_some {g g' : TaskGroup τ} {t : τ} (h : g.createTask t = some g') :
    g.aborting = false ∧ g' = { g with running := g.running ++ [t] } := by
  unfold createTask at h
  split at h
  · cases h
  · exact ⟨by simp_all,(Option.some.inj h).symm⟩

end TaskGroup

/-- A task group with the state its tasks work on. -/
structure TaskQueue (τ σ : Type) where
  group : TaskGroup τ := {}
  env : σ

/-- What can happen to a queue: somebody calls it, one of its tasks runs to its end, or the
state is changed from outside. -/
inductive QueueEvent (τ σ : Type)
  | call (t : τ)
  | resume (i : ℕ)
  | outside (s : σ)

namespace TaskQueue
variable (submit : τ → Coro ε σ Unit)

/-- A call the group refuses is lost. A task that waits forever stays in the group. -/
def step (q : TaskQueue τ σ) : QueueEvent τ σ → TaskQueue τ σ
  | .call t => { q with group := (q.group.createTask t).getD q.group }
  | .resume i =>
    match q.group.running[i]? with
    | none => q
    | some t =>
      match submit t q.env with
      | .done _ s => ⟨q.group.finished i,s⟩
      | .raised _ s => ⟨q.group.abort,s⟩
      | .blocked s => ⟨q.group,s⟩
  | .outside s => { q with env := s }

def run (q : TaskQueue τ σ) (es : List (QueueEvent τ σ)) : TaskQueue τ σ := es.foldl (step submit) q

/-- The event ends a task of the queue with an error. -/
def Fails (q : TaskQueue τ σ) (e : QueueEvent τ σ) : Prop :=
  ∃ i t x s, e = .resume i ∧ q.group.running[i]? = some t ∧ submit t q.env = .raised x s

theorem step_aborting (q : TaskQueue τ σ) (e : QueueEvent τ σ) :
    (step submit q e).group.aborting = true ↔ q.group.aborting = true ∨ Fails submit q e := by
  cases e with
  | call t =>
    have hn : ¬ Fails submit q (.call t) := by rintro ⟨_,_,_,_,h,_⟩; cases h
    cases hc : q.group.createTask t with
    | none => simp [step, hc, hn]
    | some g => simp [step, hc, hn, (TaskGroup.createTask_eq_some hc).2]
  | outside s =>
    have hn : ¬ Fails submit q (.outside s) := by rintro ⟨_,_,_,_,h,_⟩; cases h
    simp [step, hn]
  | resume i =>
    cases ht : q.group.running[i]? with
    | none => simp [step, Fails, ht]
    | some t =>
      cases hr : submit t q.env with
      | done _ s => simp [step, Fails, ht, hr]
      | raised x s => simp [step, Fails, ht, hr]
      | blocked s => simp [step, Fails, ht, hr]

/-- A group is aborted by a run if and only if one of its tasks ended with an error on the way. -/
theorem run_aborting (q : TaskQueue τ σ) (es : List (QueueEvent τ σ)) :
    (run submit q es).group.aborting = true ↔
      q.group.aborting = true ∨
        ∃ before e after, es = before ++ e::after ∧ Fails submit (run submit q before) e := by
  induction es generalizing q with
  | nil => simp [run]
  | cons e es ih =>
    rw [show run submit q (e::es) = run submit (step submit q e) es from rfl, ih, step_aborting]
    constructor
    · rintro ((h | h) | ⟨before,e',after,rfl,h⟩)
      · exact .inl h
      · exact .inr ⟨[],e,es,rfl,h⟩
      · exact .inr ⟨e::before,e',after,rfl,h⟩
    · rintro (h | ⟨before,e',after,hes,h⟩)
      · exact .inl (.inl h)
      · cases before with
        | nil =>
          obtain ⟨rfl,rfl⟩ := List.cons.inj hes
          exact .inl (.inr h)
        | cons b before =>
          obtain ⟨rfl,rfl⟩ := List.cons.inj hes
          exact .inr ⟨before,e',after,rfl,h⟩

/-- As long as a group has not been aborted, a call to its queue starts a task. -/
theorem step_call_running (q : TaskQueue τ σ) (t : τ) (h : q.group.aborting = false) :
    (step submit q (.call t)).group.running = q.group.running ++ [t] := by
  simp [step, TaskGroup.createTask, h]

/-- The tasks of a queue are those it had and those it was called with. -/
theorem mem_run_running (q : TaskQueue τ σ) (es : List (QueueEvent τ σ)) {t : τ}
    (h : t ∈ (run submit q es).group.running) : t ∈ q.group.running ∨ .call t ∈ es := by
  induction es generalizing q with
  | nil => exact .inl h
  | cons e es ih =>
    rcases ih (step submit q e) h with hs | hs
    · cases e with
      | call t' =>
        cases hc : q.group.createTask t' with
        | none => exact .inl (by simpa [step, hc] using hs)
        | some g =>
          rw [step, hc, Option.getD_some, (TaskGroup.createTask_eq_some hc).2] at hs
          rcases List.mem_append.mp hs with hs | hs
          · exact .inl hs
          · rw [List.mem_singleton.mp hs]
            exact .inr List.mem_cons_self
      | outside s => exact .inl hs
      | resume i =>
        left
        cases ht : q.group.running[i]? with
        | none => simpa [step, ht] using hs
        | some t' =>
          cases hr : submit t' q.env with
          | done _ s =>
            simp only [step, ht, hr] at hs
            exact List.mem_of_mem_eraseIdx hs
          | raised x s => simp [step, ht, hr] at hs
          | blocked s => simpa [step, ht, hr] using hs
    · exact .inr (List.mem_cons_of_mem _ hs)

def Raises (x : Coro ε σ Unit) (s : σ) : Prop := ∃ e s', x s = .raised e s'

/-- The condition `Meets` on a task and the state it runs in tells exactly which tasks the queue
survives: the others end with an error, and only they abort the group. While the group has not
been aborted, whoever calls the queue gets his task started. -/
structure SurvivesExactlyWhen (Meets : τ → σ → Prop) : Prop where
  raises : ∀ t s, Raises (submit t) s ↔ ¬ Meets t s
  aborted : ∀ q es, q.group.aborting = false →
    ((run submit q es).group.aborting = true ↔
      ∃ before i after t, es = before ++ .resume i::after ∧
        (run submit q before).group.running[i]? = some t ∧ ¬ Meets t (run submit q before).env)
  started : ∀ q t, q.group.aborting = false →
    (step submit q (.call t)).group.running = q.group.running ++ [t]

theorem SurvivesExactlyWhen.of_raises {submit : τ → Coro ε σ Unit} {Meets : τ → σ → Prop}
    (h : ∀ t s, Raises (submit t) s ↔ ¬ Meets t s) : SurvivesExactlyWhen submit Meets where
  raises := h
  aborted := by
    intro q es hq
    rw [run_aborting]
    constructor
    · rintro (ha | ⟨before,e,after,hes,i,t,x,s,rfl,ht,hr⟩)
      · rw [hq] at ha; cases ha
      · exact ⟨before,i,after,t,hes,ht,(h t _).mp ⟨x,s,hr⟩⟩
    · rintro ⟨before,i,after,t,hes,ht,hm⟩
      obtain ⟨x,s,hr⟩ := (h t _).mpr hm
      exact .inr ⟨before,_,after,hes,i,t,x,s,rfl,ht,hr⟩
  started := step_call_running submit

/-- A queue that is only ever called with tasks that meet the condition in every state is not
aborted. -/
theorem SurvivesExactlyWhen.not_aborting {submit : τ → Coro ε σ Unit} {Meets : τ → σ → Prop}
    (h : SurvivesExactlyWhen submit Meets) (s : σ) (es : List (QueueEvent τ σ))
    (hes : ∀ t, .call t ∈ es → ∀ s', Meets t s') :
    (run submit ⟨{},s⟩ es).group.aborting = false := by
  rw [← Bool.not_eq_true]
  intro ha
  obtain ⟨before,i,after,t,rfl,ht,hm⟩ := (h.aborted _ es rfl).mp ha
  rcases mem_run_running submit _ _ (List.mem_of_getElem? ht) with hr | hc
  · cases hr
  · exact hm (hes t (List.mem_append_left _ hc) _)

end TaskQueue
end PeerConnect.Library
