import Mathlib.Data.Int.Log
import Mathlib.Data.Rat.Floor
import Mathlib.Tactic.Positivity
import Mathlib.Tactic.Linarith

/-! Rounding an exact rational result to a double, in the range where neither overflow nor
underflow happens. -/
namespace PeerConnect.Library

/-- The nearest integer, the even one of two equally near. -/
def roundHalfEven (q : ℚ) : ℤ :=
  let low := ⌊q⌋
  if q-low < 1/2 then low
  else if 1/2 < q-low then low+1
  else if low % 2 = 0 then low else low+1

/-- The distance between neighbouring doubles at a positive rational: 53 binary digits. -/
def ulp (q : ℚ) : ℚ := 2^(Int.log 2 q - 52)

/-- The double nearest to a non-negative rational. -/
def toDouble (q : ℚ) : ℚ := if q = 0 then 0 else roundHalfEven (q/ulp q) * ulp q

theorem floor_le_roundHalfEven (q : ℚ) : ⌊q⌋ ≤ roundHalfEven q := by
  unfold roundHalfEven
  dsimp only
  split_ifs <;> omega

theorem ulp_pos (q : ℚ) : 0 < ulp q := zpow_pos (by norm_num) _

/-- Rounding does not cross a multiple of the distance between neighbouring doubles. -/
theorem mul_ulp_le_toDouble {q : ℚ} (hq : q ≠ 0) {k : ℤ} (h : k * ulp q ≤ q) :
    k * ulp q ≤ toDouble q := by
  have hk : k ≤ roundHalfEven (q/ulp q) :=
    (Int.le_floor.mpr ((le_div_iff₀ (ulp_pos q)).mpr h)).trans (floor_le_roundHalfEven _)
  rw [toDouble, if_neg hq]
  exact mul_le_mul_of_nonneg_right (by exact_mod_cast hk) (ulp_pos q).le

/-- Rounding does not cross a natural number below `2^53`. -/
theorem le_toDouble {q : ℚ} {n : ℕ} (hn : 0 < n) (hb : n ≤ 2^53) (h : (n:ℚ) ≤ q) :
    (n:ℚ) ≤ toDouble q := by
  have hpos : (0:ℚ) < q := lt_of_lt_of_le (by exact_mod_cast hn) h
  have hlog : (2:ℚ)^(Int.log 2 q) ≤ q := by
    exact_mod_cast Int.zpow_log_le_self (b := 2) (by norm_num) hpos
  by_cases hl : Int.log 2 q ≤ 52
  · obtain ⟨j,hj⟩ := Int.le.dest hl
    have hu : ulp q * 2^j = 1 := by
      rw [ulp, show Int.log 2 q - 52 = -(j:ℤ) by omega, zpow_neg, zpow_natCast]
      exact inv_mul_cancel₀ (by positivity)
    have hk : ((n*2^j : ℕ) : ℤ) * ulp q = n := by
      push_cast
      rw [mul_assoc, mul_comm _ (ulp q), hu, mul_one]
    rw [← hk] at h ⊢
    exact mul_ulp_le_toDouble hpos.ne' h
  · have hk : ((2^52 : ℤ) : ℚ) * ulp q = 2^(Int.log 2 q) := by
      rw [ulp, zpow_sub₀ (by norm_num)]
      push_cast
      field_simp
    have hbig : (n:ℚ) ≤ 2^(Int.log 2 q) := by
      calc (n:ℚ) ≤ 2^(53:ℤ) := by exact_mod_cast hb
        _ ≤ 2^(Int.log 2 q) := zpow_le_zpow_right₀ (by norm_num) (by omega)
    refine hbig.trans ?_
    rw [← hk] at hlog ⊢
    exact mul_ulp_le_toDouble hpos.ne' hlog

end PeerConnect.Library
