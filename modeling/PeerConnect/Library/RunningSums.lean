import Mathlib.Algebra.Order.BigOperators.Group.List
import Mathlib.Data.List.Basic
import Mathlib.Tactic.Linarith

/-! The sums of the prefixes of a list of sizes, and which of them an offset comes to. -/
namespace PeerConnect.Library

/-- Each size added to all before it and to the starting value. -/
def runningSums : ℕ → List ℕ → List ℕ
  | _,[] => []
  | acc,s::ss => (acc+s)::runningSums (acc+s) ss

/-- The index of the first element of a sorted list that is at least the value, or the length. -/
def bisectLeft (xs : List ℕ) (x : ℕ) : ℕ := xs.findIdx fun s => decide (x ≤ s)

@[simp] theorem runningSums_length (acc : ℕ) (sizes : List ℕ) :
    (runningSums acc sizes).length = sizes.length := by
  induction sizes generalizing acc with
  | nil => rfl
  | cons s ss ih => simp [runningSums, ih]

theorem runningSums_getElem (acc : ℕ) (sizes : List ℕ) (k : ℕ)
    (h : k < (runningSums acc sizes).length) :
    (runningSums acc sizes)[k] = acc + (sizes.take (k+1)).sum := by
  induction sizes generalizing acc k with
  | nil => simp at h
  | cons s ss ih =>
    cases k with
    | zero => simp [runningSums]
    | succ k =>
      simp only [runningSums, List.getElem_cons_succ, List.take_succ_cons, List.sum_cons]
      rw [ih]
      omega

/-- The sums do not decrease. -/
theorem runningSums_mono (acc : ℕ) (sizes : List ℕ) {j k : ℕ} (hjk : j ≤ k)
    (hk : k < (runningSums acc sizes).length) :
    (runningSums acc sizes)[j] ≤ (runningSums acc sizes)[k] := by
  rw [runningSums_getElem, runningSums_getElem]
  have hsplit : sizes.take (k+1) = sizes.take (j+1) ++ (sizes.drop (j+1)).take (k-j) := by
    rw [← List.take_add]
    congr 1
    omega
  rw [hsplit, List.sum_append]
  omega

/-- The last of the sums is the sum of all sizes. -/
theorem runningSums_getLast? (acc : ℕ) {sizes : List ℕ} (hne : sizes ≠ []) :
    (runningSums acc sizes).getLast? = some (acc+sizes.sum) := by
  have hpos := List.length_pos_iff.mpr hne
  have hlast : (runningSums acc sizes).length-1 < (runningSums acc sizes).length := by
    rw [runningSums_length]
    omega
  rw [List.getLast?_eq_getElem?, List.getElem?_eq_getElem hlast, runningSums_getElem,
    runningSums_length, List.take_of_length_le (by omega)]

/-- All sums are within a bound exactly if the sum of all sizes is. -/
theorem forall_runningSums_lt {sizes : List ℕ} (hne : sizes ≠ []) {b : ℕ} :
    (∀ s ∈ runningSums 0 sizes, s < b) ↔ sizes.sum < b := by
  constructor
  · intro h
    have hlast := List.mem_of_getLast? (runningSums_getLast? 0 hne)
    rw [Nat.zero_add] at hlast
    exact h _ hlast
  · intro h s hs
    obtain ⟨k,hk,rfl⟩ := List.mem_iff_getElem.mp hs
    rw [runningSums_getElem, Nat.zero_add]
    have hsum := List.sum_take_add_sum_drop sizes (k+1)
    omega

theorem bisectLeft_le {xs : List ℕ} {x k : ℕ} (hk : k < xs.length) (h : x ≤ xs[k]) :
    bisectLeft xs x ≤ k := by
  by_contra hlt
  have := List.not_of_lt_findIdx (not_le.mp hlt)
  simp [h] at this

theorem lt_bisectLeft {xs : List ℕ} {x k : ℕ} (hk : k < xs.length)
    (h : ∀ (j : ℕ) (hj : j < xs.length), j ≤ k → xs[j] < x) : k < bisectLeft xs x := by
  by_contra hle
  rw [not_lt] at hle
  have hlt : bisectLeft xs x < xs.length := hle.trans_lt hk
  have hget := List.findIdx_getElem (p := fun s => decide (x ≤ s)) (w := hlt)
  have hx := h _ hlt hle
  rw [decide_eq_true_iff] at hget
  exact absurd hx (not_lt.mpr hget)

/-- An offset within all sizes comes to a place up to which there is no more than it. -/
theorem bisectLeft_runningSums {sizes : List ℕ} (hne : sizes ≠ []) {x : ℕ} (hx : x ≤ sizes.sum) :
    bisectLeft (runningSums 0 sizes) x < sizes.length ∧
      (sizes.take (bisectLeft (runningSums 0 sizes) x)).sum ≤ x := by
  have hpos := List.length_pos_iff.mpr hne
  have hlast : sizes.length-1 < (runningSums 0 sizes).length := by
    rw [runningSums_length]
    omega
  constructor
  · have hle := bisectLeft_le (x := x) hlast (by
      rw [runningSums_getElem, Nat.zero_add, List.take_of_length_le (by omega)]
      exact hx)
    omega
  · cases hi : bisectLeft (runningSums 0 sizes) x with
    | zero => simp
    | succ j =>
      have hj : j < (runningSums 0 sizes).findIdx fun s => decide (x ≤ s) := by
        rw [← bisectLeft, hi]
        exact Nat.lt_succ_self j
      have hnot := List.not_of_lt_findIdx hj
      rw [runningSums_getElem, Nat.zero_add, decide_eq_false_iff_not, not_le] at hnot
      exact Nat.le_of_lt hnot

end PeerConnect.Library
