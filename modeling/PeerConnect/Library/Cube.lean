import Mathlib.Data.Nat.Bitwise
import Mathlib.Data.Nat.Log
import Mathlib.Data.Finset.Card
import Mathlib.Data.Finset.Range
import Mathlib.Data.List.Chain

/-! The cube on the numbers below some bound. Two of them are adjacent if they differ in one bit; where
the bound is no power of two, some corners are missing. -/
namespace PeerConnect.Library.Cube

variable {i j d e n : ℕ}

/-- The neighbour in a dimension. -/
def flipBit (i d : ℕ) : ℕ := i ^^^ (1 <<< d)

theorem testBit_flipBit (i d e : ℕ) : (flipBit i d).testBit e = (i.testBit e != decide (d = e)) := by
  rw [flipBit, Nat.one_shiftLeft, Nat.testBit_xor, Nat.testBit_two_pow]

theorem flipBit_flipBit (i d : ℕ) : flipBit (flipBit i d) d = i := Nat.xor_xor_cancel_right _ _

theorem flipBit_ne (i d : ℕ) : flipBit i d ≠ i := by
  intro h
  have := testBit_flipBit i d d
  rw [h] at this
  simp at this

theorem flipBit_injective (i : ℕ) : Function.Injective (flipBit i) := by
  intro d e h
  by_contra hne
  have hd := testBit_flipBit i d d
  rw [h, testBit_flipBit, decide_eq_false (Ne.symm hne)] at hd
  simp at hd

/-- A number becomes smaller where a bit is cleared. -/
theorem flipBit_lt (h : i.testBit d = true) : flipBit i d < i := by
  refine Nat.lt_of_testBit d ?_ h fun e he => ?_
  · simp [testBit_flipBit, h]
  · rw [testBit_flipBit, decide_eq_false he.ne, Bool.bne_false]

def differingBits (i j : ℕ) : Finset ℕ := (Finset.range (i ^^^ j)).filter fun d => (i ^^^ j).testBit d

theorem mem_differingBits : d ∈ differingBits i j ↔ i.testBit d ≠ j.testBit d := by
  rw [differingBits, Finset.mem_filter, Finset.mem_range, Nat.testBit_xor, bne_iff_ne]
  refine and_iff_right_of_imp fun h => ?_
  have hbit : (i ^^^ j).testBit d = true := by rwa [Nat.testBit_xor, bne_iff_ne]
  exact d.lt_two_pow_self.trans_le (Nat.ge_two_pow_of_testBit hbit)

theorem differingBits_comm (i j : ℕ) : differingBits i j = differingBits j i := by
  ext d
  rw [mem_differingBits, mem_differingBits, ne_comm]

theorem eq_of_differingBits (h : differingBits i j = ∅) : i = j := by
  refine Nat.eq_of_testBit_eq fun d => ?_
  have hd : d ∉ differingBits i j := h ▸ Finset.notMem_empty d
  rwa [mem_differingBits, not_not] at hd

/-- Nothing differs beyond the dimension of the cube. -/
theorem lt_clog_of_mem_differingBits (hi : i < n) (hj : j < n) (h : d ∈ differingBits i j) :
    d < Nat.clog 2 n := by
  by_contra hge
  have hn := Nat.le_pow_clog (by decide : 1 < 2) n
  have hpow : n ≤ 2^d := hn.trans (Nat.pow_le_pow_right (by decide) (not_lt.mp hge))
  refine mem_differingBits.mp h ?_
  rw [Nat.testBit_lt_two_pow (hi.trans_le hpow), Nat.testBit_lt_two_pow (hj.trans_le hpow)]

theorem card_differingBits_le (hi : i < n) (hj : j < n) : (differingBits i j).card ≤ Nat.clog 2 n := by
  have hsub : differingBits i j ⊆ Finset.range (Nat.clog 2 n) := fun d hd =>
    Finset.mem_range.mpr (lt_clog_of_mem_differingBits hi hj hd)
  exact (Finset.card_le_card hsub).trans_eq (Finset.card_range _)

/-- A bit that differs, once it has been flipped, differs no more. -/
theorem differingBits_flipBit (h : d ∈ differingBits i j) :
    differingBits (flipBit i d) j = (differingBits i j).erase d := by
  ext e
  rw [mem_differingBits, Finset.mem_erase, mem_differingBits, testBit_flipBit]
  rw [mem_differingBits] at h
  by_cases he : d = e
  · subst he
    cases hi : i.testBit d <;> cases hj : j.testBit d <;> simp_all
  · simp [he, Ne.symm he]

/-- A path in the cube: each step flips one bit. -/
structure IsPath (n i j : ℕ) (path : List ℕ) : Prop where
  inside : ∀ v ∈ path, v < n
  head : path.head? = some i
  last : path.getLast? = some j
  chain : path.IsChain fun v w => ∃ d, w = flipBit v d

theorem IsPath.single (h : i < n) : IsPath n i i [i] :=
  ⟨List.forall_mem_singleton.mpr h,rfl,rfl,.singleton i⟩

theorem IsPath.cons {path : List ℕ} (hi : i < n) (h : IsPath n (flipBit i d) j path) :
    IsPath n i j (i::path) := by
  obtain ⟨hinside,hhead,hlast,hchain⟩ := h
  refine ⟨List.forall_mem_cons.mpr ⟨hi,hinside⟩,rfl,?_,?_⟩
  · rw [List.getLast?_cons, hlast]
    rfl
  · refine List.isChain_cons.mpr ⟨fun v hv => ?_,hchain⟩
    rw [hhead] at hv
    exact ⟨d,(Option.mem_some_iff.mp hv).symm⟩

theorem IsPath.concat {path : List ℕ} (hj : j < n) (h : IsPath n i (flipBit j d) path) :
    IsPath n i j (path ++ [j]) := by
  obtain ⟨hinside,hhead,hlast,hchain⟩ := h
  refine ⟨List.forall_mem_append.mpr ⟨hinside,List.forall_mem_singleton.mpr hj⟩,?_,?_,?_⟩
  · rw [List.head?_append, hhead]
    rfl
  · rw [List.getLast?_concat]
  · refine List.isChain_append.mpr ⟨hchain,.singleton j,fun v hv w hw => ?_⟩
    rw [hlast] at hv
    obtain rfl := Option.mem_some_iff.mp hv
    obtain rfl := Option.mem_some_iff.mp hw
    exact ⟨d,(flipBit_flipBit j d).symm⟩

/-- Where a bit is set at one end and not at the other, it is cleared at the one end: so no corner that
is missing is ever met. -/
theorem exists_path (hi : i < n) (hj : j < n) :
    ∃ path, IsPath n i j path ∧ path.length = (differingBits i j).card + 1 := by
  induction hcard : (differingBits i j).card generalizing i j with
  | zero =>
    obtain rfl := eq_of_differingBits (Finset.card_eq_zero.mp hcard)
    exact ⟨[i],.single hi,rfl⟩
  | succ k ih =>
    obtain ⟨d,hd⟩ : (differingBits i j).Nonempty := Finset.card_pos.mp (by omega)
    have hcard' : ((differingBits i j).erase d).card = k := by
      rw [Finset.card_erase_of_mem hd]
      omega
    cases hbit : i.testBit d with
    | true =>
      obtain ⟨path,hpath,hlength⟩ := ih ((flipBit_lt hbit).trans hi) hj
        ((congrArg Finset.card (differingBits_flipBit hd)).trans hcard')
      exact ⟨i::path,hpath.cons hi,by rw [List.length_cons, hlength]⟩
    | false =>
      have hbit' : j.testBit d = true := by
        have := mem_differingBits.mp hd
        simpa [hbit] using this
      have hd' : d ∈ differingBits j i := differingBits_comm i j ▸ hd
      have hflip : (differingBits i (flipBit j d)).card = k := by
        rw [differingBits_comm, differingBits_flipBit hd', differingBits_comm]
        exact hcard'
      obtain ⟨path,hpath,hlength⟩ := ih hi ((flipBit_lt hbit').trans hj) hflip
      exact ⟨path ++ [j],hpath.concat hj,by rw [List.length_append, hlength, List.length_singleton]⟩

end PeerConnect.Library.Cube
