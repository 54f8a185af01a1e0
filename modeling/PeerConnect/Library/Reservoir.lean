import Mathlib.Data.List.Nodup
import Mathlib.Data.List.Basic
import Mathlib.Tactic.Common

/-! Reservoir sampling: one pass over a list of unknown length that keeps a sample of bounded size.
The draws are arbitrary; the sample is one whatever they are. -/
namespace PeerConnect.Library

variable {α : Type}

/-- A random number between 0 and `i`, for each `i`. -/
abbrev Draws := (i : ℕ) → Fin (i+1)

namespace Reservoir

/-- What the sample is after the element at position `i`. -/
def step (size : ℕ) (draw : Draws) (reservoir : List α) (i : ℕ) (x : α) : List α :=
  if i < size then reservoir ++ [x]
  else if (draw i : ℕ) < size then reservoir.set (draw i) x
  else reservoir

def sampleFrom (size : ℕ) (draw : Draws) : ℕ → List α → List α → List α
  | _,reservoir,[] => reservoir
  | i,reservoir,x::xs => sampleFrom size draw (i+1) (step size draw reservoir i x) xs

def sample (size : ℕ) (draw : Draws) (xs : List α) : List α := sampleFrom size draw 0 [] xs

variable {size : ℕ} {draw : Draws}

/-- The sample fills up and then keeps its size. -/
theorem step_length {reservoir : List α} {i : ℕ} (h : reservoir.length = min size i) (x : α) :
    (step size draw reservoir i x).length = min size (i+1) := by
  unfold step
  split_ifs
  · rw [List.length_append, List.length_singleton]
    omega
  · rw [List.length_set]
    omega
  · omega

theorem mem_step {reservoir : List α} {i : ℕ} {x y : α}
    (h : y ∈ step size draw reservoir i x) : y ∈ reservoir ∨ y = x := by
  unfold step at h
  split_ifs at h
  · simpa using h
  · exact List.mem_or_eq_of_mem_set h
  · exact .inl h

/-- An element that is not in the sample makes no duplicate. -/
theorem step_nodup {reservoir : List α} {i : ℕ} {x : α} (h : reservoir.Nodup)
    (hx : x ∉ reservoir) : (step size draw reservoir i x).Nodup := by
  unfold step
  split_ifs
  · rw [← List.concat_eq_append]
    exact h.concat hx
  · exact h.set hx
  · exact h

theorem sampleFrom_length (xs : List α) {reservoir : List α} {i : ℕ}
    (h : reservoir.length = min size i) :
    (sampleFrom size draw i reservoir xs).length = min size (i+xs.length) := by
  induction xs generalizing reservoir i with
  | nil => exact h
  | cons x xs ih =>
    rw [sampleFrom, ih (step_length h x), List.length_cons, Nat.add_right_comm, Nat.add_assoc]

theorem mem_sampleFrom {xs reservoir : List α} {i : ℕ} {y : α}
    (h : y ∈ sampleFrom size draw i reservoir xs) : y ∈ reservoir ∨ y ∈ xs := by
  induction xs generalizing reservoir i with
  | nil => exact .inl h
  | cons x xs ih =>
    rcases ih h with hy | hy
    · rcases mem_step hy with hy | rfl
      · exact .inl hy
      · exact .inr List.mem_cons_self
    · exact .inr (List.mem_cons_of_mem _ hy)

theorem sampleFrom_nodup {xs reservoir : List α} {i : ℕ} (h : (reservoir ++ xs).Nodup) :
    (sampleFrom size draw i reservoir xs).Nodup := by
  induction xs generalizing reservoir i with
  | nil => rwa [List.append_nil] at h
  | cons x xs ih =>
    obtain ⟨hr,hx,hd⟩ := List.nodup_append.mp h
    have hxr : x ∉ reservoir := fun hm => hd x hm x List.mem_cons_self rfl
    refine ih (List.nodup_append.mpr ⟨step_nodup hr hxr,hx.of_cons,?_⟩)
    intro y hy z hz
    rcases mem_step hy with hy | rfl
    · exact hd y hy z (List.mem_cons_of_mem _ hz)
    · rintro rfl
      exact (List.nodup_cons.mp hx).1 hz

/-- As many as asked for, as far as there are that many. -/
theorem sample_length (size : ℕ) (draw : Draws) (xs : List α) :
    (sample size draw xs).length = min size xs.length := by
  rw [sample, sampleFrom_length xs (by simp), Nat.zero_add]

theorem mem_of_mem_sample {xs : List α} {y : α} (h : y ∈ sample size draw xs) : y ∈ xs :=
  (mem_sampleFrom h).resolve_left List.not_mem_nil

theorem sample_nodup {xs : List α} (h : xs.Nodup) : (sample size draw xs).Nodup :=
  sampleFrom_nodup h

end Reservoir
end PeerConnect.Library
