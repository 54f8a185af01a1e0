import PeerConnect.Library.Generator
import Mathlib.Algebra.Order.Archimedean.Basic
import Mathlib.Algebra.Order.Field.Rat
import Mathlib.Tactic.Linarith
import Mathlib.Tactic.NormNum

/-! Exponential back-off: the time-outs of a bounded number of retries, and those of an endless
one. -/
namespace PeerConnect.Core
open Library

/-- Where `get_timeouts` is: the next value, and how many retries are left in the bounded loop. -/
structure Timeouts where
  current : ℚ
  retries : Option ℕ
  deriving DecidableEq, Repr

/-- `get_timeouts(initial, …, max_retries, …)` before its first pass. -/
def Timeouts.start (initial : ℚ) (maxRetries : ℤ) : Timeouts :=
  ⟨initial,if maxRetries = -1 then none else some maxRetries.toNat⟩

/-- One pass through the loop of `get_timeouts`. -/
def getTimeouts (factor maxValue : ℚ) (s : Timeouts) : Pass Timeouts ℚ :=
  match s.retries with
  | none =>
    if s.current ≥ maxValue then .yields maxValue { s with current := s.current*factor }
    else .silent { s with current := s.current*factor }
  | some 0 => .stops
  | some (k+1) => .yields (min s.current maxValue) ⟨s.current*factor,some k⟩

/-- The time-outs that a bounded back-off is meant to use. -/
def backOff (initial factor maxValue : ℚ) (n : ℕ) : List ℚ :=
  (List.range n).map fun i => min (initial*factor^i) maxValue

theorem backOff_succ (initial factor maxValue : ℚ) (n : ℕ) :
    backOff initial factor maxValue (n+1) =
      min initial maxValue :: backOff (initial*factor) factor maxValue n := by
  unfold backOff
  rw [List.range_succ_eq_map, List.map_cons, List.map_map, pow_zero, mul_one]
  refine congrArg _ (List.map_congr_left fun i _ => ?_)
  simp only [Function.comp_apply, pow_succ']
  rw [mul_assoc]

variable {initial factor maxValue : ℚ}

/-- The bounded loop, from the value and the number of retries that it has reached. -/
theorem lists_getTimeouts (current : ℚ) (k : ℕ) :
    Lists (getTimeouts factor maxValue) ⟨current,some k⟩ (backOff current factor maxValue k) := by
  induction k generalizing current with
  | zero => exact .stops rfl
  | succ k ih =>
    rw [backOff_succ]
    exact .yields rfl (ih (current*factor))

theorem lists_start (n : ℕ) :
    Lists (getTimeouts factor maxValue) (Timeouts.start initial n)
      (backOff initial factor maxValue n) := by
  have hn : Timeouts.start initial n = ⟨initial,some n⟩ := by simp [Timeouts.start]
  rw [hn]
  exact lists_getTimeouts initial n

/-- Silent passes raise the value by the factor. -/
theorem begins_of_pow {current : ℚ} {xs : List ℚ} (k : ℕ)
    (hlt : ∀ i < k, current*factor^i < maxValue)
    (h : Begins (getTimeouts factor maxValue) ⟨current*factor^k,none⟩ xs) :
    Begins (getTimeouts factor maxValue) ⟨current,none⟩ xs := by
  induction k generalizing current with
  | zero => simpa using h
  | succ k ih =>
    have h0 : current < maxValue := by simpa using hlt 0 (Nat.succ_pos k)
    refine .silent (t := ⟨current*factor,none⟩) (by simp [getTimeouts, h0]) (ih (fun i hi => ?_) ?_)
    · have := hlt (i+1) (by omega)
      rwa [pow_succ', ← mul_assoc] at this
    · rwa [mul_assoc, ← pow_succ']

/-- Once the value has reached the largest one, every pass hands that out. -/
theorem begins_replicate_of_le {current : ℚ} (hc : 0 < current) (hf : 1 < factor)
    (hle : maxValue ≤ current) (n : ℕ) :
    Begins (getTimeouts factor maxValue) ⟨current,none⟩ (List.replicate n maxValue) := by
  induction n generalizing current with
  | zero => exact .none _
  | succ n ih =>
    have hgrow : current ≤ current*factor := le_mul_of_one_le_right hc.le hf.le
    refine .yields (t := ⟨current*factor,none⟩) (by simp [getTimeouts, hle]) (ih ?_ (hle.trans hgrow))
    exact hc.trans_le hgrow

/-- The endless loop goes on for ever, whatever value it begins with. -/
theorem begins_endless (hi : 0 < initial) (hf : 1 < factor) (n : ℕ) :
    Begins (getTimeouts factor maxValue) ⟨initial,none⟩ (List.replicate n maxValue) := by
  have hex : ∃ k, maxValue ≤ initial*factor^k := by
    obtain ⟨k,hk⟩ := pow_unbounded_of_one_lt (maxValue/initial) hf
    refine ⟨k,?_⟩
    rw [div_lt_iff₀ hi] at hk
    linarith
  refine begins_of_pow (Nat.find hex) (fun i hlt => not_le.mp (Nat.find_min hex hlt)) ?_
  exact begins_replicate_of_le (mul_pos hi (pow_pos (by linarith) _)) hf (Nat.find_spec hex) n

/-- From the largest value on, the bounded loop hands out nothing else either. -/
theorem backOff_of_le (hi : 0 < initial) (hf : 1 < factor) (hle : maxValue ≤ initial) (n : ℕ) :
    backOff initial factor maxValue n = List.replicate n maxValue := by
  unfold backOff
  rw [List.eq_replicate_iff]
  refine ⟨by simp,fun b hb => ?_⟩
  obtain ⟨i,-,rfl⟩ := List.mem_map.mp hb
  have hpow : 1 ≤ factor^i := one_le_pow₀ hf.le
  exact min_eq_right (hle.trans (le_mul_of_one_le_right hi.le hpow))

/-- The endless loop begins with the values of the bounded one. -/
def EndlessAgrees (initial factor maxValue : ℚ) (n : ℕ) : Prop :=
  ∃ xs, xs = backOff initial factor maxValue n ∧
    Lists (getTimeouts factor maxValue) (Timeouts.start initial n) xs ∧
    Begins (getTimeouts factor maxValue) (Timeouts.start initial (-1)) xs

/-- The endless loop stays silent until the largest value is reached, so that it agrees only where
that is so from the beginning. -/
theorem endless_agrees_iff (hi : 0 < initial) (hf : 1 < factor) (hm : initial ≤ maxValue) (n : ℕ) :
    EndlessAgrees initial factor maxValue n ↔ n = 0 ∨ initial = maxValue := by
  constructor
  · rintro ⟨xs,rfl,-,hb⟩
    cases n with
    | zero => exact .inl rfl
    | succ n =>
      have he := hb.unique (begins_endless hi hf (n+1)) (by simp [backOff])
      rw [backOff_succ, List.replicate_succ, min_eq_left hm] at he
      exact .inr (List.head_eq_of_cons_eq he)
  · intro h
    refine ⟨_,rfl,lists_start n,?_⟩
    change Begins (getTimeouts factor maxValue) ⟨initial,none⟩ _
    rcases h with rfl | he
    · exact .none _
    · rw [backOff_of_le hi hf he.ge]
      exact begins_endless hi hf n

theorem endless_agrees_iff_one : EndlessAgrees 2 3 2 1 ↔ (1 : ℕ) = 0 ∨ (2 : ℚ) = 2 :=
  endless_agrees_iff (by norm_num) (by norm_num) le_rfl 1

/-- From a tenth of a second up to the three seconds of the passive mode. -/
theorem endless_disagrees : ¬ EndlessAgrees (1/10) 2 3 1 := by
  rintro ⟨xs,rfl,-,hb⟩
  have he := hb.unique (begins_endless (by norm_num) (by norm_num) 1) (by simp [backOff])
  rw [backOff_succ, List.replicate_succ] at he
  exact absurd (List.head_eq_of_cons_eq he) (by norm_num)

end PeerConnect.Core
