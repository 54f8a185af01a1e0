import Mathlib.Data.List.Basic

/-! Generators: a loop that hands out one value after the other, though not one in every pass. -/
namespace PeerConnect.Library

/-- What one pass of the loop does. -/
inductive Pass (σ α : Type)
  | yields (a : α) (s : σ)
  | silent (s : σ)
  | stops
  deriving DecidableEq, Repr

variable {σ α : Type}

/-- These are the first values that the loop hands out from a state. -/
inductive Begins (g : σ → Pass σ α) : σ → List α → Prop
  | none (s : σ) : Begins g s []
  | yields {s t : σ} {a : α} {xs : List α} (h : g s = .yields a t) (ht : Begins g t xs) :
    Begins g s (a::xs)
  | silent {s t : σ} {xs : List α} (h : g s = .silent t) (ht : Begins g t xs) : Begins g s xs

/-- These are all the values that the loop hands out from a state, and it ends behind them. -/
inductive Lists (g : σ → Pass σ α) : σ → List α → Prop
  | stops {s : σ} (h : g s = .stops) : Lists g s []
  | yields {s t : σ} {a : α} {xs : List α} (h : g s = .yields a t) (ht : Lists g t xs) :
    Lists g s (a::xs)
  | silent {s t : σ} {xs : List α} (h : g s = .silent t) (ht : Lists g t xs) : Lists g s xs

variable {g : σ → Pass σ α} {s : σ}

/-- There is one list of each length that the loop hands out first. -/
theorem Begins.unique {xs ys : List α} (h : Begins g s xs) (h' : Begins g s ys)
    (hl : xs.length = ys.length) : xs = ys := by
  induction h generalizing ys with
  | none s => exact (List.length_eq_zero_iff.mp hl.symm).symm
  | yields h _ ih =>
    cases h' with
    | none => cases hl
    | yields he h' =>
      cases h.symm.trans he
      exact congrArg _ (ih h' (Nat.succ.inj hl))
    | silent he => cases h.symm.trans he
  | silent h _ ih =>
    cases h' with
    | none => exact List.length_eq_zero_iff.mp hl
    | yields he => cases h.symm.trans he
    | silent he h' =>
      cases h.symm.trans he
      exact ih h' hl

end PeerConnect.Library
