import PeerConnect.Library.Coroutine

/-! Simulation of one coroutine by another on a different state, as far as runs that return. -/
namespace PeerConnect.Library.Coro

variable {ε ε' ε₁ ε₁' σ τ α β : Type} {R : σ → τ → Prop}

/-- Whenever the second coroutine returns, so does the first from any related state, with the same
value and in a related state. -/
def Simulates (R : σ → τ → Prop) (x : Coro ε σ α) (y : Coro ε' τ α) : Prop :=
  ∀ s t a t', R s t → y t = .done a t' → ∃ s', x s = .done a s' ∧ R s' t'

namespace Simulates

theorem pure (a : α) : Simulates R (pure a : Coro ε σ α) (pure a : Coro ε' τ α) := by
  intro s t b t' h hy
  rw [pure_apply, Run.done.injEq] at hy
  obtain ⟨rfl,rfl⟩ := hy
  exact ⟨s,rfl,h⟩

theorem raise (x : Coro ε σ α) (e : ε') : Simulates R x (raise e : Coro ε' τ α) := by
  intro s t a t' _ hy
  rw [raise_apply] at hy
  cases hy

theorem modify {f : σ → σ} {g : τ → τ} (h : ∀ {s t}, R s t → R (f s) (g t)) :
    Simulates R (modify f : Coro ε σ Unit) (modify g : Coro ε' τ Unit) := by
  intro s t a t' hst hy
  rw [modify_apply, Run.done.injEq] at hy
  obtain ⟨_,rfl⟩ := hy
  exact ⟨f s,rfl,h hst⟩

theorem ofExcept (x : Except ε α) :
    Simulates R (ofExcept x : Coro ε σ α) (ofExcept x : Coro ε τ α) := by
  cases x with
  | ok a => exact Simulates.pure a
  | error e => exact Simulates.raise _ e

theorem bind {x : Coro ε σ α} {y : Coro ε' τ α} {f : α → Coro ε σ β} {g : α → Coro ε' τ β}
    (h : Simulates R x y) (hf : ∀ a, Simulates R (f a) (g a)) :
    Simulates R (x >>= f) (y >>= g) := by
  intro s t b t' hst hy
  obtain ⟨a,t₁,hy₁,hg⟩ := Run.bind_eq_done hy
  obtain ⟨s₁,hx₁,h₁⟩ := h _ _ _ _ hst hy₁
  obtain ⟨s',hf',h'⟩ := hf a _ _ _ _ h₁ hg
  exact ⟨s',by rw [bind_apply, hx₁, Run.bind_done, hf'],h'⟩

/-- The second coroutine does something of its own first. -/
theorem before {x : Coro ε σ β} {y : Coro ε' τ Unit} {g : Unit → Coro ε' τ β}
    (hy : ∀ {s t t'}, R s t → y t = .done () t' → R s t') (h : Simulates R x (g ())) :
    Simulates R x (y >>= g) := by
  intro s t b t' hst hr
  obtain ⟨_,t₁,hy₁,hg⟩ := Run.bind_eq_done hr
  exact h _ _ _ _ (hy hst hy₁) hg

/-- The second coroutine does something of its own afterwards. -/
theorem after {x : Coro ε σ Unit} {y z : Coro ε' τ Unit} (h : Simulates R x y)
    (hz : ∀ {s t t'}, R s t → z t = .done () t' → R s t') :
    Simulates R x (y >>= fun _ => z) := by
  intro s t b t' hst hr
  obtain ⟨_,t₁,hy₁,hz₁⟩ := Run.bind_eq_done hr
  obtain ⟨s',hx,h'⟩ := h _ _ _ _ hst hy₁
  exact ⟨s',hx,hz h' hz₁⟩

/-- Handlers that never return are left out. -/
theorem tryCatch {x : Coro ε σ α} {y : Coro ε' τ α} {h : ε → Coro ε₁ σ α} {h' : ε' → Coro ε₁' τ α}
    (hxy : Simulates R x y) (hh : ∀ e t a t', h' e t ≠ .done a t') :
    Simulates R (Coro.tryCatch x h) (Coro.tryCatch y h') := by
  intro s t a t' hst hr
  obtain ⟨s',hx,hs'⟩ := hxy _ _ _ _ hst (tryCatch_done hr fun e t => hh e t _ _)
  exact ⟨s',by rw [tryCatch_apply, hx, Run.handle_done],hs'⟩

theorem ite {c : Prop} [Decidable c] {x x' : Coro ε σ α} {y y' : Coro ε' τ α}
    (h : c → Simulates R x y) (h' : ¬ c → Simulates R x' y') :
    Simulates R (if c then x else x') (if c then y else y') := by
  split
  next hc => exact h hc
  next hc => exact h' hc

end Simulates
end PeerConnect.Library.Coro
