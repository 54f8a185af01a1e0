import Mathlib.Data.List.Basic
import Mathlib.Tactic.Linarith

/-! Cutting a list into consecutive slices of one size, the last possibly shorter. -/
namespace PeerConnect.Library

variable {α : Type}

/-- The multiples of `step` from `start` on and below `stop`, in increasing order. -/
def steps (start stop step : ℕ) : List ℕ :=
  List.range' start ((stop-start+step-1)/step) step

/-- The elements from `first` up to, not including, `last`. -/
def slice (xs : List α) (first last : ℕ) : List α := (xs.drop first).take (last-first)

/-- The list cut into slices of one size. -/
def pieces (size : ℕ) (xs : List α) : List (List α) :=
  (steps 0 xs.length size).map fun first => slice xs first (first+size)

/-- A position counted from the end if it is negative, and then brought into the list. -/
def clampIndex (length : ℕ) (i : ℤ) : ℕ :=
  if i < 0 then (i+length).toNat else min i.toNat length

/-- `xs[first:last]` -/
def sliceInt (xs : List α) (first last : ℤ) : List α :=
  slice xs (clampIndex xs.length first) (clampIndex xs.length last)

theorem mem_of_mem_sliceInt {xs : List α} {first last : ℤ} {x : α} (h : x ∈ sliceInt xs first last) : x ∈ xs :=
  List.mem_of_mem_drop (List.mem_of_mem_take h)

/-- What stands in front of a slice is not in it. -/
theorem notMem_sliceInt {xs : List α} (hxs : xs.Nodup) {first last : ℤ} {x : α} (h : x ∈ xs.take first.toNat) :
    x ∉ sliceInt xs first last := by
  intro hx
  have hdrop : x ∈ xs.drop (clampIndex xs.length first) := List.mem_of_mem_take hx
  by_cases hneg : first < 0
  · rw [Int.toNat_of_nonpos hneg.le, List.take_zero] at h
    cases h
  · rw [clampIndex, if_neg hneg] at hdrop
    rw [List.take_eq_take_min] at h
    exact List.disjoint_take_drop hxs le_rfl h hdrop

theorem steps_of_le {start stop step : ℕ} (h : stop ≤ start) : steps start stop step = [] := by
  have hz : (stop-start+step-1)/step = 0 := by
    rw [Nat.sub_eq_zero_of_le h]
    rcases Nat.eq_zero_or_pos step with rfl | hs
    · rfl
    · exact Nat.div_eq_of_lt (by omega)
  rw [steps, hz, List.range'_zero]

theorem steps_of_lt {start stop step : ℕ} (hs : 0 < step) (h : start < stop) :
    steps start stop step = start :: steps (start+step) stop step := by
  have hcount : (stop-start+step-1)/step = (stop-(start+step)+step-1)/step+1 := by
    rw [show stop-start+step-1 = (stop-start-1)+step by omega, Nat.add_div_right _ hs]
    congr 1
    by_cases hle : stop ≤ start+step
    · rw [Nat.div_eq_of_lt (by omega), Nat.div_eq_of_lt (by omega)]
    · congr 1
      omega
  rw [steps, hcount, List.range'_succ]
  rfl

theorem slice_length (xs : List α) (first last : ℕ) :
    (slice xs first last).length = min (last-first) (xs.length-first) := by
  simp [slice]

/-- The first slice and what is left behind it. -/
theorem slice_append_drop (xs : List α) (first step : ℕ) :
    slice xs first (first+step) ++ xs.drop (first+step) = xs.drop first := by
  rw [slice, Nat.add_sub_cancel_left, ← List.drop_drop, List.take_append_drop]

/-- The slices put together again are the list from `start` on. -/
theorem flatMap_steps (xs : List α) {step : ℕ} (hs : 0 < step) (start : ℕ) :
    (steps start xs.length step).flatMap (fun o => slice xs o (o+step)) = xs.drop start := by
  by_cases h : start < xs.length
  · rw [steps_of_lt hs h, List.flatMap_cons, flatMap_steps xs hs (start+step),
      slice_append_drop]
  · rw [steps_of_le (by omega), List.drop_of_length_le (by omega)]
    rfl
termination_by xs.length-start

theorem slice_ne_nil {xs : List α} {first last : ℕ} (hl : first < last)
    (h : first < xs.length) : slice xs first last ≠ [] := by
  apply List.ne_nil_of_length_pos
  rw [slice_length]
  omega

/-- The multiples counted. -/
theorem steps_getElem? {start stop step i first : ℕ} (h : (steps start stop step)[i]? = some first) :
    first = start+step*i ∧ first < stop := by
  obtain ⟨hlt,hget⟩ := List.getElem?_eq_some_iff.mp h
  have hfirst : first = start+step*i := by
    rw [← hget]
    simp [steps]
  refine ⟨hfirst,?_⟩
  have hi : i < (stop-start+step-1)/step := by simpa [steps] using hlt
  rcases Nat.eq_zero_or_pos step with rfl | hs
  · simp at hi
  · have hmul := (Nat.lt_div_iff_mul_lt hs).mp hi
    rw [hfirst, Nat.mul_comm]
    omega

/-- A piece is not empty, and the pieces of its length up to it are not the whole list. -/
theorem pieces_getElem? {xs piece : List α} {size i : ℕ} (h : (pieces size xs)[i]? = some piece) :
    piece = slice xs (size*i) (size*i+size) ∧ piece ≠ [] ∧ i*piece.length < xs.length := by
  rw [pieces, List.getElem?_map] at h
  obtain ⟨first,hfirst,rfl⟩ := Option.map_eq_some_iff.mp h
  have hsize : 0 < size := by
    rcases Nat.eq_zero_or_pos size with rfl | hs
    · simp [steps] at hfirst
    · exact hs
  obtain ⟨hf,hlt⟩ := steps_getElem? hfirst
  rw [Nat.zero_add] at hf
  subst hf
  refine ⟨rfl,slice_ne_nil (by omega) hlt,?_⟩
  rw [slice_length, Nat.add_sub_cancel_left]
  calc i*min size (xs.length-size*i) ≤ i*size := Nat.mul_le_mul_left i (Nat.min_le_left _ _)
    _ = size*i := Nat.mul_comm i size
    _ < xs.length := hlt

theorem drop_zipIdx (l : List α) (k : ℕ) : l.zipIdx.drop k = (l.drop k).zipIdx k := by
  refine List.ext_getElem? fun i => ?_
  simp [List.getElem?_drop, List.getElem?_zipIdx]

/-- A change at the place behind a part of the list. -/
theorem modify_append_cons (earlier rest : List α) (a : α) (g : α → α) :
    (earlier ++ a::rest).modify earlier.length g = earlier ++ g a::rest := by
  induction earlier with
  | nil => rfl
  | cons b earlier ih => simpa using ih

end PeerConnect.Library
