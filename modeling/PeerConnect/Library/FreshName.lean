import Mathlib.Data.Finset.Card
import Mathlib.Data.Finset.Range
import Mathlib.Data.Finset.Image
import Mathlib.Tactic.Linarith

/-! Counting through candidate names until one is free. The search of a loop
`while taken(candidate): counter += 1`, bounded by as many rounds as there can be taken names. -/
namespace PeerConnect.Library

variable {α : Type}

/-- The first index from `k` on with a free candidate, after at most `rounds` rounds. -/
def firstFree (taken : α → Bool) (candidate : ℕ → α) : ℕ → ℕ → ℕ
  | 0,k => k
  | rounds+1,k => if taken (candidate k) then firstFree taken candidate rounds (k+1) else k

theorem firstFree_of_free {taken : α → Bool} {candidate : ℕ → α} {k : ℕ}
    (h : taken (candidate k) = false) (rounds : ℕ) :
    firstFree taken candidate rounds k = k := by
  cases rounds <;> simp [firstFree, h]

/-- Every candidate the search has passed was taken. -/
theorem taken_of_lt_firstFree (taken : α → Bool) (candidate : ℕ → α) (rounds k j : ℕ)
    (hj : k ≤ j) (h : j < firstFree taken candidate rounds k) : taken (candidate j) = true := by
  induction rounds generalizing k with
  | zero => simp only [firstFree] at h; omega
  | succ rounds ih =>
    rw [firstFree] at h
    split at h
    next ht =>
      rcases Nat.eq_or_lt_of_le hj with rfl | hlt
      · exact ht
      · exact ih (k+1) hlt h
    next => omega

/-- The search has not run out of rounds unless it went through all of them. -/
theorem free_or_exhausted (taken : α → Bool) (candidate : ℕ → α) (rounds k : ℕ) :
    taken (candidate (firstFree taken candidate rounds k)) = false ∨
      firstFree taken candidate rounds k = k+rounds := by
  induction rounds generalizing k with
  | zero => exact .inr rfl
  | succ rounds ih =>
    by_cases ht : taken (candidate k) = true
    · have he : firstFree taken candidate (rounds+1) k = firstFree taken candidate rounds (k+1) := by
        simp [firstFree, ht]
      rw [he]
      refine (ih (k+1)).imp_right fun h => ?_
      omega
    · left
      have hf : taken (candidate k) = false := by simpa using ht
      rwa [firstFree_of_free hf]

/-- With distinct candidates and at least as many rounds as there are taken names, the loop
ends by itself, at a free candidate. -/
theorem firstFree_free [DecidableEq α] {taken : α → Bool} {candidate : ℕ → α} {rounds : ℕ}
    (hc : Function.Injective candidate) (names : Finset α)
    (hn : ∀ j, taken (candidate j) = true → candidate j ∈ names) (hr : names.card < rounds) (k : ℕ) :
    taken (candidate (firstFree taken candidate rounds k)) = false := by
  rcases free_or_exhausted taken candidate rounds k with h | h
  · exact h
  · exfalso
    have hsub : (Finset.range rounds).image (fun j => candidate (k+j)) ⊆ names := by
      intro a ha
      obtain ⟨j,hj,rfl⟩ := Finset.mem_image.mp ha
      have hlt := Finset.mem_range.mp hj
      exact hn _ (taken_of_lt_firstFree taken candidate rounds k (k+j) (by omega) (by omega))
    have hcard := Finset.card_le_card hsub
    rw [Finset.card_image_of_injective _ (fun a b hab => by
      have := hc hab
      omega), Finset.card_range] at hcard
    omega

end PeerConnect.Library
