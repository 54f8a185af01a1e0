import Mathlib.Data.UInt
import Mathlib.Tactic.Ring
import Mathlib.Tactic.Linarith

/-! Unsigned integers in network byte order, at a fixed width. -/
namespace PeerConnect.Library

abbrev Bytes := List UInt8

/-- The last `width` base-256 digits, most significant first. -/
def toNetworkOrder : (width : ℕ) → ℕ → Bytes
  | 0,_ => []
  | w+1,n => toNetworkOrder w (n/256) ++ [UInt8.ofNat (n%256)]

def ofNetworkOrder (bs : Bytes) : ℕ := bs.foldl (fun acc b => 256*acc + b.toNat) 0

@[simp] theorem toNetworkOrder_length (w n : ℕ) : (toNetworkOrder w n).length = w := by
  induction w generalizing n with
  | zero => rfl
  | succ w ih => simp [toNetworkOrder, ih]

theorem ofNetworkOrder_concat (bs : Bytes) (b : UInt8) :
    ofNetworkOrder (bs ++ [b]) = 256*ofNetworkOrder bs + b.toNat := by
  simp [ofNetworkOrder]

theorem ofNetworkOrder_lt (bs : Bytes) : ofNetworkOrder bs < 256^bs.length := by
  induction bs using List.reverseRecOn with
  | nil => simp [ofNetworkOrder]
  | append_singleton bs b ih =>
    rw [ofNetworkOrder_concat, List.length_append, List.length_singleton, pow_succ]
    have := b.toNat_lt
    omega

theorem ofNetworkOrder_toNetworkOrder (w n : ℕ) :
    ofNetworkOrder (toNetworkOrder w n) = n % 256^w := by
  induction w generalizing n with
  | zero => simp [toNetworkOrder, ofNetworkOrder, Nat.mod_one]
  | succ w ih =>
    rw [toNetworkOrder, ofNetworkOrder_concat, ih]
    have hb : (UInt8.ofNat (n%256)).toNat = n % 256 := by simp
    rw [hb, pow_succ', Nat.mod_mul, Nat.add_comm]

theorem toNetworkOrder_ofNetworkOrder (bs : Bytes) :
    toNetworkOrder bs.length (ofNetworkOrder bs) = bs := by
  induction bs using List.reverseRecOn with
  | nil => rfl
  | append_singleton bs b ih =>
    have hb := b.toNat_lt
    have hdiv : (256*ofNetworkOrder bs + b.toNat)/256 = ofNetworkOrder bs := by omega
    have hmod : (256*ofNetworkOrder bs + b.toNat)%256 = b.toNat := by omega
    rw [List.length_append, List.length_singleton, toNetworkOrder, ofNetworkOrder_concat, hdiv, hmod, ih,
      UInt8.ofNat_toNat]

theorem ofNetworkOrder_append (bs bs' : Bytes) :
    ofNetworkOrder (bs ++ bs') = ofNetworkOrder bs*256^bs'.length + ofNetworkOrder bs' := by
  induction bs' using List.reverseRecOn with
  | nil => simp [ofNetworkOrder]
  | append_singleton bs' b ih =>
    rw [← List.append_assoc, ofNetworkOrder_concat, ofNetworkOrder_concat, ih, List.length_append,
      List.length_singleton, pow_succ]
    ring

theorem ofNetworkOrder_eq_zero {bs : Bytes} : ofNetworkOrder bs = 0 ↔ ∀ b ∈ bs, b = 0 := by
  induction bs using List.reverseRecOn with
  | nil => simp [ofNetworkOrder]
  | append_singleton bs b ih =>
    rw [ofNetworkOrder_concat, List.forall_mem_append, ← ih, List.forall_mem_singleton,
      ← UInt8.toNat_inj, UInt8.toNat_zero]
    omega

/-- Packing refuses what does not fit the width. -/
def packUInt (width n : ℕ) : Option Bytes :=
  if n < 256^width then some (toNetworkOrder width n) else none

/-- Unpacking refuses any other number of bytes than the width. -/
def unpackUInt (width : ℕ) (bs : Bytes) : Option ℕ :=
  if bs.length = width then some (ofNetworkOrder bs) else none

theorem packUInt_eq_some {w n : ℕ} {bs : Bytes} :
    packUInt w n = some bs ↔ n < 256^w ∧ bs = toNetworkOrder w n := by
  unfold packUInt
  split <;> simp_all [eq_comm]

theorem packUInt_length {w n : ℕ} {bs : Bytes} (h : packUInt w n = some bs) : bs.length = w := by
  obtain ⟨_,rfl⟩ := packUInt_eq_some.mp h
  exact toNetworkOrder_length w n

theorem ofNetworkOrder_pack {w n : ℕ} {bs : Bytes} (h : packUInt w n = some bs) :
    ofNetworkOrder bs = n := by
  obtain ⟨hn,rfl⟩ := packUInt_eq_some.mp h
  rw [ofNetworkOrder_toNetworkOrder, Nat.mod_eq_of_lt hn]

/-- The last bytes are all that is packed, and only if those in front of them are zero. -/
theorem packUInt_ofNetworkOrder (bs bs' : Bytes) :
    packUInt bs'.length (ofNetworkOrder (bs ++ bs')) = if ofNetworkOrder bs = 0 then some bs' else none := by
  have hlt := ofNetworkOrder_lt bs'
  unfold packUInt
  rw [ofNetworkOrder_append]
  by_cases h : ofNetworkOrder bs = 0
  · rw [if_pos h, h, Nat.zero_mul, Nat.zero_add, if_pos hlt, toNetworkOrder_ofNetworkOrder]
  · have hpos : 0 < ofNetworkOrder bs := Nat.pos_of_ne_zero h
    have hle : 256^bs'.length ≤ ofNetworkOrder bs*256^bs'.length := Nat.le_mul_of_pos_left _ hpos
    rw [if_neg h, if_neg (by omega)]

theorem unpackUInt_pack {w n : ℕ} {bs : Bytes} (h : packUInt w n = some bs) :
    unpackUInt w bs = some n := by
  rw [unpackUInt, if_pos (packUInt_length h), ofNetworkOrder_pack h]

theorem unpackUInt_eq_none {w : ℕ} {bs : Bytes} : unpackUInt w bs = none ↔ bs.length ≠ w := by
  simp [unpackUInt]

example : packUInt 4 258 = some [0,0,1,2] := by decide

end PeerConnect.Library
