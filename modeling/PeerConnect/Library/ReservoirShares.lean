import PeerConnect.Library.Reservoir
import Mathlib.Algebra.BigOperators.Fin
import Mathlib.Data.Fintype.Pi
import Mathlib.Data.Fintype.BigOperators
import Mathlib.Data.Fin.Tuple.Finset
import Mathlib.Algebra.Order.Field.Rat

/-! The share of all outcomes of the random numbers in which reservoir sampling keeps an element: it is
the same for all elements. -/
namespace PeerConnect.Library
open Finset

/-- The random numbers for the positions from `size` on, as many as there are. -/
abbrev Outcomes (size m : ℕ) : Type := (j : Fin m) → Fin (size+j.val+1)

namespace Outcomes
variable {size m : ℕ}

theorem width {i : ℕ} (h : size ≤ i) : size+(i-size)+1 = i+1 := by omega

/-- The draws of an outcome. No number is drawn for the other positions. -/
def draws (o : Outcomes size m) : Draws := fun i =>
  if h : size ≤ i ∧ i-size < m then Fin.cast (width h.1) (o ⟨i-size,h.2⟩) else Fin.last i

/-- The outcomes with the property among all outcomes. -/
def share (P : Outcomes size m → Prop) [DecidablePred P] : ℚ :=
  ((univ.filter P).card : ℚ)/Fintype.card (Outcomes size m)

/-- One more random number. -/
def snoc (o : Outcomes size m) (d : Fin (size+m+1)) : Outcomes size (m+1) :=
  Fin.snocEquiv (fun j : Fin (m+1) => Fin (size+j.val+1)) (d,o)

theorem snoc_last (o : Outcomes size m) (d : Fin (size+m+1)) : o.snoc d (Fin.last m) = d :=
  Fin.snoc_last (α := fun j : Fin (m+1) => Fin (size+j.val+1)) d o

theorem snoc_castSucc (o : Outcomes size m) (d : Fin (size+m+1)) (j : Fin m) :
    o.snoc d j.castSucc = o j :=
  Fin.snoc_castSucc (α := fun j : Fin (m+1) => Fin (size+j.val+1)) d o j

theorem draws_snoc_last (o : Outcomes size m) (d : Fin (size+m+1)) : (o.snoc d).draws (size+m) = d := by
  have hsub : size+m-size = m := by omega
  have hlast : (⟨size+m-size,by omega⟩ : Fin (m+1)) = Fin.last m := Fin.ext hsub
  apply Fin.ext
  rw [draws, dif_pos ⟨by omega,by omega⟩, Fin.val_cast]
  have hval : ∀ j : Fin (m+1), j = Fin.last m → (o.snoc d j).val = d.val := by
    rintro j rfl
    rw [snoc_last]
  exact hval _ hlast

theorem draws_snoc (o : Outcomes size m) (d : Fin (size+m+1)) {i : ℕ} (hi : i < size+m) :
    (o.snoc d).draws i = o.draws i := by
  by_cases hs : size ≤ i
  · rw [draws, dif_pos ⟨hs,by omega⟩, draws, dif_pos ⟨hs,by omega⟩]
    exact congrArg _ (snoc_castSucc o d ⟨i-size,by omega⟩)
  · rw [draws, dif_neg fun h => hs h.1, draws, dif_neg fun h => hs h.1]

theorem card_succ (size m : ℕ) :
    Fintype.card (Outcomes size (m+1)) = Fintype.card (Outcomes size m)*(size+m+1) := by
  rw [Fintype.card_pi, Fintype.card_pi, Fin.prod_univ_castSucc]
  simp only [Fintype.card_fin, Fin.val_castSucc, Fin.val_last]

/-- The outcomes with one more number are counted by what comes before it. -/
theorem card_filter_snoc (P : Outcomes size (m+1) → Prop) [DecidablePred P] :
    (univ.filter P).card =
      ∑ o : Outcomes size m, (univ.filter fun d : Fin (size+m+1) => P (o.snoc d)).card := by
  simp only [card_filter]
  rw [← Fintype.sum_prod_type' fun (o : Outcomes size m) (d : Fin (size+m+1)) =>
    if P (o.snoc d) then 1 else 0]
  refine (Fintype.sum_equiv ((Equiv.prodComm _ _).trans
    (Fin.snocEquiv fun j : Fin (m+1) => Fin (size+j.val+1))) _ _ fun _ => rfl).symm

end Outcomes

namespace Reservoir
variable {α : Type} {size : ℕ}

theorem sampleFrom_append (draw : Draws) (i : ℕ) (reservoir xs ys : List α) :
    sampleFrom size draw i reservoir (xs ++ ys) =
      sampleFrom size draw (i+xs.length) (sampleFrom size draw i reservoir xs) ys := by
  induction xs generalizing i reservoir with
  | nil => rfl
  | cons x xs ih => rw [List.cons_append, sampleFrom, ih, sampleFrom, List.length_cons,
      Nat.add_right_comm, Nat.add_assoc]

theorem sample_concat (draw : Draws) (xs : List α) (y : α) :
    sample size draw (xs ++ [y]) = step size draw (sample size draw xs) xs.length y := by
  rw [sample, sampleFrom_append, Nat.zero_add]
  rfl

/-- Only the numbers for the positions of the list are looked at. -/
theorem sampleFrom_congr {draw draw' : Draws} {i n : ℕ} (h : ∀ j, j < n → draw j = draw' j)
    (xs : List α) (hn : i+xs.length ≤ n) (reservoir : List α) :
    sampleFrom size draw i reservoir xs = sampleFrom size draw' i reservoir xs := by
  induction xs generalizing i reservoir with
  | nil => rfl
  | cons x xs ih =>
    rw [List.length_cons] at hn
    have hstep : step size draw reservoir i x = step size draw' reservoir i x := by
      rw [step, step, h i (by omega)]
    rw [sampleFrom, sampleFrom, hstep]
    exact ih (by omega) _

/-- An element of the sample goes out only when its own place is taken. -/
theorem mem_set_iff {reservoir : List α} (hnodup : reservoir.Nodup) {k : ℕ}
    (hk : k < reservoir.length) {y : α} (hne : reservoir[k] ≠ y) (d : ℕ) :
    reservoir[k] ∈ reservoir.set d y ↔ d ≠ k := by
  constructor
  · rintro hmem rfl
    obtain ⟨j,hj,hjk⟩ := List.mem_iff_getElem.mp hmem
    rw [List.length_set] at hj
    rw [List.getElem_set] at hjk
    split at hjk
    next => exact hne hjk.symm
    next hdj => exact hdj (hnodup.getElem_inj_iff.mp hjk).symm
  · intro hd
    refine List.mem_iff_getElem.mpr ⟨k,by rwa [List.length_set],?_⟩
    rw [List.getElem_set, if_neg hd]

variable {m : ℕ}

section Draw
variable {reservoir : List α} (hlen : reservoir.length = size) {N : ℕ} (hN : size ≤ N)
variable {draw : Draws} {d : Fin (N+1)} (hdraw : draw N = d)
include hlen hN hdraw

theorem mem_step_old (hnodup : reservoir.Nodup) {k : ℕ} (hk : k < reservoir.length) {y : α}
    (hne : reservoir[k] ≠ y) : reservoir[k] ∈ step size draw reservoir N y ↔ d.val ≠ k := by
  rw [step, if_neg (Nat.not_lt.mpr hN), hdraw]
  split
  · exact mem_set_iff hnodup hk hne d
  · exact iff_of_true (List.getElem_mem hk) (by omega)

theorem mem_step_new {y : α} (hy : y ∉ reservoir) :
    y ∈ step size draw reservoir N y ↔ d.val < size := by
  rw [step, if_neg (Nat.not_lt.mpr hN), hdraw]
  split
  next hd => exact iff_of_true (List.mem_set (hlen ▸ hd) y) hd
  next hd => exact iff_of_false hy hd

end Draw

/-- A list that is not longer than the sample is the sample. -/
theorem sampleFrom_of_le (draw : Draws) {i : ℕ} {xs : List α} (h : i+xs.length ≤ size)
    (reservoir : List α) : sampleFrom size draw i reservoir xs = reservoir ++ xs := by
  induction xs generalizing i reservoir with
  | nil => exact (List.append_nil reservoir).symm
  | cons x xs ih =>
    rw [List.length_cons] at h
    rw [sampleFrom, step, if_pos (by omega), ih (by omega), List.append_assoc]
    rfl

theorem sample_of_le (draw : Draws) {xs : List α} (h : xs.length ≤ size) :
    sample size draw xs = xs := sampleFrom_of_le draw (by rwa [Nat.zero_add]) []

theorem sample_snoc (o : Outcomes size m) (d : Fin (size+m+1)) {xs : List α}
    (hlen : xs.length = size+m) (y : α) : sample size (o.snoc d).draws (xs ++ [y]) =
      step size (o.snoc d).draws (sample size o.draws xs) (size+m) y := by
  rw [sample_concat, hlen, sample, sampleFrom_congr (fun j => o.draws_snoc d) xs (by omega), sample]

variable [DecidableEq α]

/-- The induction is on the number of elements behind the first sample. A new element is taken by as
many numbers as there are places, and an old one is replaced by one number only. -/
theorem card_sampled {xs : List α} (hnodup : xs.Nodup) (hlen : xs.length = size+m) {x : α}
    (hx : x ∈ xs) : (univ.filter fun o : Outcomes size m => x ∈ sample size o.draws xs).card*(size+m) =
      size*Fintype.card (Outcomes size m) := by
  induction m generalizing xs with
  | zero =>
    have hall : (univ.filter fun o : Outcomes size 0 => x ∈ sample size o.draws xs) = univ :=
      filter_true_of_mem fun o _ => by rwa [sample_of_le o.draws (by omega)]
    rw [hall, card_univ, Nat.add_zero, Nat.mul_comm]
  | succ m ih =>
    obtain ⟨ys,y,rfl⟩ := (List.eq_nil_or_concat' xs).resolve_left (List.ne_nil_of_mem hx)
    have hys : ys.length = size+m := by
      rw [List.length_append, List.length_singleton] at hlen
      omega
    obtain ⟨hnodup',-,hdisj⟩ := List.nodup_append.mp hnodup
    have hy : y ∉ ys := fun hmem => hdisj y hmem y List.mem_cons_self rfl
    have hreservoir : ∀ o : Outcomes size m, (sample size o.draws ys).length = size := fun o => by
      rw [sample_length, hys, Nat.min_eq_left (Nat.le_add_right size m)]
    simp only [Outcomes.card_filter_snoc, sample_snoc _ _ hys, Outcomes.card_succ]
    rcases List.mem_append.mp hx with hold | hnew
    · have hcount : ∀ o : Outcomes size m, (univ.filter fun d : Fin (size+m+1) =>
          x ∈ step size (o.snoc d).draws (sample size o.draws ys) (size+m) y).card =
            if x ∈ sample size o.draws ys then size+m else 0 := by
        intro o
        split
        next hmem =>
          obtain ⟨k,hk,rfl⟩ := List.mem_iff_getElem.mp hmem
          have hne : (sample size o.draws ys)[k] ≠ y := fun he => hy (he ▸ hold)
          have hkN : k < size+m+1 := by rw [hreservoir] at hk; omega
          have hfilter : (univ.filter fun d : Fin (size+m+1) => (sample size o.draws ys)[k] ∈
              step size (o.snoc d).draws (sample size o.draws ys) (size+m) y) =
                univ.filter fun d => d ≠ ⟨k,hkN⟩ := by
            refine filter_congr fun d _ => ?_
            rw [mem_step_old (hreservoir o) (Nat.le_add_right size m) (o.draws_snoc_last d)
              (sample_nodup hnodup') hk hne, ne_eq, ne_eq, Fin.ext_iff]
          rw [hfilter, filter_ne', card_erase_of_mem (mem_univ _), card_univ, Fintype.card_fin]
          rfl
        next hmem =>
          rw [card_eq_zero, filter_eq_empty_iff]
          intro d _ hstep
          rcases mem_step hstep with h | rfl
          · exact hmem h
          · exact hy hold
      have ih := ih hnodup' hys hold
      rw [sum_congr rfl fun o _ => hcount o, ← sum_filter, sum_const, smul_eq_mul, ih, ← Nat.add_assoc,
        Nat.mul_assoc]
    · obtain rfl := List.mem_singleton.mp hnew
      have hcount : ∀ o : Outcomes size m, (univ.filter fun d : Fin (size+m+1) =>
          x ∈ step size (o.snoc d).draws (sample size o.draws ys) (size+m) x).card = size := by
        intro o
        have hout : x ∉ sample size o.draws ys := fun hmem => hy (mem_of_mem_sample hmem)
        simp only [mem_step_new (hreservoir o) (Nat.le_add_right size m) (o.draws_snoc_last _) hout,
          Fin.card_filter_val_lt]
        omega
      rw [sum_congr rfl fun o _ => hcount o, sum_const, card_univ, smul_eq_mul, Nat.mul_assoc,
        Nat.mul_left_comm, Nat.add_assoc]

/-- Every element has the same share. -/
theorem share_sampled {xs : List α} (hnodup : xs.Nodup) {x : α} (hx : x ∈ xs) (size : ℕ) :
    Outcomes.share (fun o : Outcomes size (xs.length-size) => x ∈ sample size o.draws xs) =
      (min size xs.length : ℕ)/(xs.length : ℚ) := by
  have hpos : 0 < xs.length := List.length_pos_of_mem hx
  have hcard : 0 < Fintype.card (Outcomes size (xs.length-size)) := Fintype.card_pos
  rw [Outcomes.share, div_eq_div_iff (Nat.cast_ne_zero.mpr hcard.ne') (Nat.cast_ne_zero.mpr hpos.ne')]
  norm_cast
  rcases Nat.le_total size xs.length with hle | hle
  · have hlen : xs.length = size+(xs.length-size) := by omega
    have h := card_sampled hnodup hlen hx
    rw [Nat.min_eq_left hle]
    rwa [Nat.add_sub_cancel' hle] at h
  · have hall : (univ.filter fun o : Outcomes size (xs.length-size) => x ∈ sample size o.draws xs) =
        univ := filter_true_of_mem fun o _ => by rwa [sample_of_le o.draws hle]
    rw [hall, card_univ, Nat.min_eq_right hle, Nat.mul_comm]

end Reservoir
end PeerConnect.Library
