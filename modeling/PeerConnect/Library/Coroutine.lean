import Mathlib.Logic.Relation

/-! Coroutines run to their end over an explicit state. A run returns, raises, or waits for
something that never comes; every ending keeps the state it was reached in, so that what a
failed run has already done is not lost. -/
namespace PeerConnect.Library

variable {ε ε' σ τ α β : Type}

/-- How a run ends. -/
inductive Run (ε σ α : Type)
  | done (value : α) (state : σ)
  | raised (error : ε) (state : σ)
  | blocked (state : σ)

namespace Run

/-- The state a run leaves behind, whichever way it ended. -/
def state : Run ε σ α → σ
  | done _ s => s
  | raised _ s => s
  | blocked s => s

def bind (r : Run ε σ α) (f : α → σ → Run ε σ β) : Run ε σ β :=
  match r with
  | done a s => f a s
  | raised e s => raised e s
  | blocked s => blocked s

/-- Run the handler on an error. A run that waits forever is not an error. -/
def handle (r : Run ε σ α) (h : ε → σ → Run ε' σ α) : Run ε' σ α :=
  match r with
  | done a s => done a s
  | raised e s => h e s
  | blocked s => blocked s

/-- Answer a run that waits forever with an error. -/
def expire (r : Run ε σ α) (e : ε) : Run ε σ α :=
  match r with
  | done a s => done a s
  | raised e' s => raised e' s
  | blocked s => raised e s

/-- Carry a run over a part of a larger state. -/
def within (r : Run ε σ α) (put : σ → τ) (err : ε → ε') : Run ε' τ α :=
  match r with
  | done a s => done a (put s)
  | raised e s => raised (err e) (put s)
  | blocked s => blocked (put s)

@[simp] theorem state_done (a : α) (s : σ) : (done a s : Run ε σ α).state = s := rfl
@[simp] theorem state_raised (e : ε) (s : σ) : (raised e s : Run ε σ α).state = s := rfl
@[simp] theorem state_blocked (s : σ) : (blocked s : Run ε σ α).state = s := rfl

@[simp] theorem bind_done (a : α) (s : σ) (f : α → σ → Run ε σ β) :
    (done a s).bind f = f a s := rfl
@[simp] theorem bind_raised (e : ε) (s : σ) (f : α → σ → Run ε σ β) :
    (raised e s).bind f = raised e s := rfl
@[simp] theorem bind_blocked (s : σ) (f : α → σ → Run ε σ β) :
    (blocked s).bind f = blocked s := rfl

@[simp] theorem handle_done (a : α) (s : σ) (h : ε → σ → Run ε' σ α) :
    (done a s).handle h = done a s := rfl
@[simp] theorem handle_raised (e : ε) (s : σ) (h : ε → σ → Run ε' σ α) :
    (raised e s).handle h = h e s := rfl
@[simp] theorem handle_blocked (s : σ) (h : ε → σ → Run ε' σ α) :
    (blocked s).handle h = blocked s := rfl

@[simp] theorem expire_done (a : α) (s : σ) (e : ε) : (done a s).expire e = done a s := rfl
@[simp] theorem expire_raised (e' : ε) (s : σ) (e : ε) :
    (raised e' s : Run ε σ α).expire e = raised e' s := rfl
@[simp] theorem expire_blocked (s : σ) (e : ε) :
    (blocked s : Run ε σ α).expire e = raised e s := rfl

@[simp] theorem within_done (a : α) (s : σ) (put : σ → τ) (err : ε → ε') :
    (done a s).within put err = done a (put s) := rfl
@[simp] theorem within_raised (e : ε) (s : σ) (put : σ → τ) (err : ε → ε') :
    (raised e s : Run ε σ α).within put err = raised (err e) (put s) := rfl
@[simp] theorem within_blocked (s : σ) (put : σ → τ) (err : ε → ε') :
    (blocked s : Run ε σ α).within put err = blocked (put s) := rfl

theorem state_within (r : Run ε σ α) (put : σ → τ) (err : ε → ε') :
    (r.within put err).state = put r.state := by
  cases r <;> rfl

theorem bind_eq_done {r : Run ε σ α} {f : α → σ → Run ε σ β} {b : β} {t : σ}
    (h : r.bind f = done b t) : ∃ a s, r = done a s ∧ f a s = done b t := by
  cases r with
  | done a s => exact ⟨a,s,rfl,h⟩
  | raised e s => cases h
  | blocked s => cases h

end Run

/-- A coroutine, given by its run from each state. -/
def Coro (ε σ α : Type) : Type := σ → Run ε σ α

namespace Coro

def ret (a : α) : Coro ε σ α := fun s => .done a s
def raise (e : ε) : Coro ε σ α := fun s => .raised e s
def get (f : σ → α) : Coro ε σ α := fun s => .done (f s) s
def modify (f : σ → σ) : Coro ε σ Unit := fun s => .done () (f s)
def tryCatch (x : Coro ε σ α) (h : ε → Coro ε' σ α) : Coro ε' σ α :=
  fun s => (x s).handle fun e s' => h e s'

def ofExcept : Except ε α → Coro ε σ α
  | .ok a => ret a
  | .error e => raise e

/-- Give up waiting with an error. -/
def waitFor (e : ε) (x : Coro ε σ α) : Coro ε σ α :=
  fun s => (x s).expire e

/-- Run a coroutine of a component on the whole state. -/
def zoom (get : τ → σ) (put : σ → τ → τ) (err : ε → ε') (x : Coro ε σ α) : Coro ε' τ α :=
  fun t => (x (get t)).within (fun s => put s t) err

instance : Monad (Coro ε σ) where
  pure := ret
  bind x f := fun s => (x s).bind fun a s' => f a s'

@[simp] theorem pure_apply (a : α) (s : σ) : (pure a : Coro ε σ α) s = .done a s := rfl
@[simp] theorem bind_apply (x : Coro ε σ α) (f : α → Coro ε σ β) (s : σ) :
    (x >>= f) s = (x s).bind fun a s' => f a s' := rfl
@[simp] theorem raise_apply (e : ε) (s : σ) : (raise e : Coro ε σ α) s = .raised e s := rfl
@[simp] theorem get_apply (f : σ → α) (s : σ) : (get f : Coro ε σ α) s = .done (f s) s := rfl
@[simp] theorem modify_apply (f : σ → σ) (s : σ) :
    (modify f : Coro ε σ Unit) s = .done () (f s) := rfl
@[simp] theorem tryCatch_apply (x : Coro ε σ α) (h : ε → Coro ε' σ α) (s : σ) :
    tryCatch x h s = (x s).handle fun e s' => h e s' := rfl
@[simp] theorem ofExcept_ok (a : α) (s : σ) :
    (ofExcept (.ok a) : Coro ε σ α) s = .done a s := rfl
@[simp] theorem ofExcept_error (e : ε) (s : σ) :
    (ofExcept (.error e) : Coro ε σ α) s = .raised e s := rfl
@[simp] theorem waitFor_apply (e : ε) (x : Coro ε σ α) (s : σ) :
    waitFor e x s = (x s).expire e := rfl
@[simp] theorem zoom_apply (get : τ → σ) (put : σ → τ → τ) (err : ε → ε')
    (x : Coro ε σ α) (t : τ) :
    zoom get put err x t = (x (get t)).within (fun s => put s t) err := rfl
@[simp] theorem ite_apply (c : Prop) [Decidable c] (x y : Coro ε σ α) (s : σ) :
    (if c then x else y) s = if c then x s else y s := by split <;> rfl

/-- A caught coroutine returns what it returned inside, if the handler never returns that. -/
theorem tryCatch_done {x : Coro ε σ α} {h : ε → Coro ε' σ α} {s s' : σ} {a : α}
    (hr : tryCatch x h s = .done a s') (hh : ∀ e t, h e t ≠ .done a s') : x s = .done a s' := by
  rw [tryCatch_apply] at hr
  cases hx : x s with
  | done b t =>
    rw [hx, Run.handle_done] at hr
    cases hr
    rfl
  | raised e t => rw [hx] at hr; exact absurd hr (hh e t)
  | blocked t => rw [hx] at hr; cases hr

/-- A component that returns has returned inside, and its state has been put back. -/
theorem zoom_done {get : τ → σ} {put : σ → τ → τ} {err : ε → ε'} {x : Coro ε σ α} {t t' : τ} {a : α}
    (h : zoom get put err x t = .done a t') : ∃ s, x (get t) = .done a s ∧ put s t = t' := by
  rw [zoom_apply] at h
  cases hx : x (get t) with
  | done b s =>
    rw [hx] at h
    cases h
    exact ⟨s,rfl,rfl⟩
  | raised e s => rw [hx] at h; cases h
  | blocked s => rw [hx] at h; cases h

/-- What comes last and leaves the state as it is does not show in the state. -/
theorem state_bind {x : Coro ε σ α} {f : α → Coro ε σ β} (hf : ∀ a t, (f a t).state = t) (s : σ) :
    ((x >>= f) s).state = (x s).state := by
  rw [bind_apply]
  cases x s with
  | done a t => exact hf a t
  | raised e t => rfl
  | blocked t => rfl

theorem state_ofExcept (x : Except ε α) (s : σ) : (ofExcept x s).state = s := by
  cases x <;> rfl

/-- Every run of the coroutine, however it ends, moves the state along the relation. -/
def Moves (R : σ → σ → Prop) (x : Coro ε σ α) : Prop := ∀ s, R s (x s).state

section Moves
variable {R : σ → σ → Prop}

theorem Moves.ret [Std.Refl R] (a : α) : Moves R (ret a : Coro ε σ α) :=
  fun s => Std.Refl.refl s

theorem Moves.pure [Std.Refl R] (a : α) : Moves R (pure a : Coro ε σ α) :=
  fun s => Std.Refl.refl s

theorem Moves.raise [Std.Refl R] (e : ε) : Moves R (raise e : Coro ε σ α) :=
  fun s => Std.Refl.refl s

theorem Moves.get [Std.Refl R] (f : σ → α) : Moves R (get f : Coro ε σ α) :=
  fun s => Std.Refl.refl s

theorem Moves.modify {f : σ → σ} (h : ∀ s, R s (f s)) :
    Moves R (modify f : Coro ε σ Unit) := h

/-- One run of a sequence, from its first part and from where that has left the state. -/
theorem Moves.bind_at [IsTrans σ R] {x : Coro ε σ α} {f : α → Coro ε σ β} {s : σ}
    (hx : R s (x s).state) (hf : ∀ a t, x s = .done a t → R t (f a t).state) :
    R s ((x >>= f) s).state := by
  rw [bind_apply]
  cases hr : x s with
  | done a t => rw [hr] at hx; exact IsTrans.trans _ _ _ hx (hf a t hr)
  | raised e t => rwa [hr] at hx
  | blocked t => rwa [hr] at hx

theorem Moves.bind [IsTrans σ R] {x : Coro ε σ α} {f : α → Coro ε σ β}
    (hx : Moves R x) (hf : ∀ a, Moves R (f a)) : Moves R (x >>= f) := by
  intro s
  exact Moves.bind_at (hx s) fun a t _ => hf a t

theorem Moves.ofExcept [Std.Refl R] (x : Except ε α) : Moves R (ofExcept x : Coro ε σ α) := by
  cases x with
  | ok a => exact Moves.ret a
  | error e => exact Moves.raise e

theorem Moves.tryCatch_at [IsTrans σ R] {x : Coro ε σ α} {h : ε → Coro ε' σ α} {s : σ}
    (hx : R s (x s).state) (hh : ∀ e, Moves R (h e)) : R s (Coro.tryCatch x h s).state := by
  rw [tryCatch_apply]
  cases hr : x s with
  | done a t => rwa [hr] at hx
  | raised e t => rw [hr] at hx; exact IsTrans.trans _ _ _ hx (hh e t)
  | blocked t => rwa [hr] at hx

theorem Moves.tryCatch [IsTrans σ R] {x : Coro ε σ α} {h : ε → Coro ε' σ α}
    (hx : Moves R x) (hh : ∀ e, Moves R (h e)) : Moves R (tryCatch x h) :=
  fun s => Moves.tryCatch_at (hx s) hh

theorem Moves.ite {c : Prop} [Decidable c] {x y : Coro ε σ α} (hx : c → Moves R x)
    (hy : ¬ c → Moves R y) : Moves R (if c then x else y) := by
  split
  next h => exact hx h
  next h => exact hy h

/-- A component moves the whole state as its own relation says. -/
theorem Moves.zoom {S : τ → τ → Prop} {get : τ → σ} {put : σ → τ → τ} {err : ε → ε'}
    {x : Coro ε σ α} (h : ∀ t, S t (put (x (get t)).state t)) :
    Moves S (zoom get put err x) := by
  intro t
  have ht := h t
  rw [zoom_apply]
  cases hr : x (get t) <;> rw [hr] at ht <;> exact ht

end Moves

/-- Whatever the coroutine returns has the property. -/
def Returns (P : α → Prop) (x : Coro ε σ α) : Prop := ∀ s a s', x s = .done a s' → P a

section Returns
variable {P : α → Prop} {Q : β → Prop}

theorem Returns.pure {a : α} (h : P a) : Returns P (pure a : Coro ε σ α) := by
  intro s a' s' hr
  cases hr
  exact h

theorem Returns.raise (e : ε) : Returns P (raise e : Coro ε σ α) := nofun

theorem Returns.bind {x : Coro ε σ α} {f : α → Coro ε σ β} (h : ∀ a, Returns Q (f a)) :
    Returns Q (x >>= f) := by
  intro s b s' hr
  obtain ⟨a,t,_,ht⟩ := Run.bind_eq_done hr
  exact h a t b s' ht

theorem Returns.ite {c : Prop} [Decidable c] {x y : Coro ε σ α} (hx : c → Returns P x)
    (hy : ¬ c → Returns P y) : Returns P (if c then x else y) := by
  split
  next h => exact hx h
  next h => exact hy h

end Returns
end Coro
end PeerConnect.Library
