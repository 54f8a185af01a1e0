import PeerConnect.Library.Coroutine
import Mathlib.Data.List.Basic
import Mathlib.Tactic.Linarith

/-! A stream read through a transport that may cut it anywhere. A call for `n` elements gets at
least one and at most `n` of those not yet read; the transport chooses how many. A call for none gets none
at once, whatever there is to be read. -/
namespace PeerConnect.Library

variable {α : Type}

/-- What a reader finds behind the last element: the end of the stream, a broken connection,
or nothing at all for as long as it waits. -/
inductive Ending
  | closed
  | reset
  | silent
  deriving DecidableEq, Repr

/-- How many elements the transport would like to hand out, from the number of the call and the
number of elements asked for. -/
abbrev Cut := ℕ → ℕ → ℕ

/-- Every call gets all it asks for, as far as there is that much. -/
def Cut.whole : Cut := fun _ n => n

structure Source (α : Type) where
  pending : List α
  ending : Ending
  cut : Cut
  calls : ℕ := 0

/-- The broken connection, as the reader sees it. -/
inductive Reset
  | reset
  deriving DecidableEq, Repr

namespace Source

/-- The number of elements a call for `n` is answered with. -/
def grant (s : Source α) (n : ℕ) : ℕ := min (max 1 (s.cut s.calls n)) (min n s.pending.length)

/-- The source after `k` elements have been handed out. -/
def advance (s : Source α) (k : ℕ) : Source α :=
  { s with pending := s.pending.drop k, calls := s.calls+1 }

def recv (n : ℕ) : Coro Reset (Source α) (List α) := fun s =>
  if n = 0 then .done [] (s.advance 0)
  else
    match s.pending, s.ending with
    | [], .closed => .done [] (s.advance 0)
    | [], .reset => .raised .reset s
    | [], .silent => .blocked s
    | _::_, _ => .done (s.pending.take (s.grant n)) (s.advance (s.grant n))

@[simp] theorem advance_pending (s : Source α) (k : ℕ) :
    (s.advance k).pending = s.pending.drop k := rfl
@[simp] theorem advance_ending (s : Source α) (k : ℕ) : (s.advance k).ending = s.ending := rfl
@[simp] theorem advance_cut (s : Source α) (k : ℕ) : (s.advance k).cut = s.cut := rfl

theorem grant_le (s : Source α) (n : ℕ) : s.grant n ≤ n :=
  (min_le_right _ _).trans (min_le_left _ _)

theorem grant_le_length (s : Source α) (n : ℕ) : s.grant n ≤ s.pending.length :=
  (min_le_right _ _).trans (min_le_right _ _)

theorem grant_pos (s : Source α) {n : ℕ} (hn : 0 < n) (hp : s.pending ≠ []) : 0 < s.grant n := by
  have := List.length_pos_iff.mpr hp
  unfold grant
  omega

theorem grant_whole (s : Source α) (hc : s.cut = Cut.whole) (n : ℕ) :
    s.grant n = min n s.pending.length := by
  unfold grant
  rw [hc]
  unfold Cut.whole
  omega

/-- A call that asks for nothing gets nothing. -/
@[simp] theorem grant_zero (s : Source α) : s.grant 0 = 0 := Nat.le_zero.mp (s.grant_le 0)

theorem recv_zero (s : Source α) : recv 0 s = .done [] (s.advance 0) := if_pos rfl

theorem recv_of_ne_nil (s : Source α) (n : ℕ) (hp : s.pending ≠ []) :
    recv n s = .done (s.pending.take (s.grant n)) (s.advance (s.grant n)) := by
  by_cases hn : n = 0
  · subst hn
    rw [recv_zero, grant_zero, List.take_zero]
  · unfold recv
    rw [if_neg hn]
    split <;> simp_all

theorem recv_closed (s : Source α) (n : ℕ) (hp : s.pending = []) (he : s.ending = .closed) :
    recv n s = .done [] (s.advance 0) := by
  simp [recv, hp, he]

theorem recv_reset (s : Source α) {n : ℕ} (hn : n ≠ 0) (hp : s.pending = []) (he : s.ending = .reset) :
    recv n s = .raised .reset s := by
  simp [recv, hn, hp, he]

theorem recv_silent (s : Source α) {n : ℕ} (hn : n ≠ 0) (hp : s.pending = []) (he : s.ending = .silent) :
    recv n s = .blocked s := by
  simp [recv, hn, hp, he]

/-- One call for `n` elements: either it hands out a stretch of the stream of length at most `n`,
empty only if `n` is zero, or the stream is used up and the call shows how it ends, unless it asks for
nothing. -/
theorem recv_cases (s : Source α) (n : ℕ) :
    (∃ xs, recv n s = .done xs (s.advance xs.length) ∧ s.pending ≠ [] ∧
      s.pending = xs ++ s.pending.drop xs.length ∧ xs.length ≤ n ∧ (xs = [] → n = 0)) ∨
    (s.pending = [] ∧
      (((s.ending = .closed ∨ n = 0) ∧ recv n s = .done [] (s.advance 0)) ∨
       (s.ending = .reset ∧ n ≠ 0 ∧ recv n s = .raised .reset s) ∨
       (s.ending = .silent ∧ n ≠ 0 ∧ recv n s = .blocked s))) := by
  by_cases hp : s.pending = []
  · right
    refine ⟨hp,?_⟩
    by_cases hn : n = 0
    · subst hn
      exact .inl ⟨.inr rfl,recv_zero s⟩
    · cases he : s.ending with
      | closed => exact .inl ⟨.inl rfl,recv_closed s n hp he⟩
      | reset => exact .inr (.inl ⟨rfl,hn,recv_reset s hn hp he⟩)
      | silent => exact .inr (.inr ⟨rfl,hn,recv_silent s hn hp he⟩)
  · left
    have hl : (s.pending.take (s.grant n)).length = s.grant n := by
      rw [List.length_take, min_eq_left (s.grant_le_length n)]
    refine ⟨s.pending.take (s.grant n),?_,hp,?_,?_,?_⟩
    · rw [hl, recv_of_ne_nil s n hp]
    · rw [hl, List.take_append_drop]
    · rw [hl]; exact s.grant_le n
    · intro h
      by_contra hn
      have := s.grant_pos (Nat.pos_of_ne_zero hn) hp
      rw [h] at hl
      simp at hl
      omega

/-- A transport that does not cut hands out the next `xs.length` elements at once. -/
theorem recv_whole (s : Source α) (xs rest : List α) (hc : s.cut = Cut.whole)
    (hp : s.pending = xs ++ rest) (hx : xs ≠ []) :
    recv xs.length s = .done xs (s.advance xs.length) := by
  have hg : s.grant xs.length = xs.length := by
    rw [s.grant_whole hc, hp, List.length_append]
    omega
  rw [recv_of_ne_nil s _ (by simp [hp, hx]), hg, hp, List.take_left]

/-- A single element cannot be cut. -/
theorem recv_one (s : Source α) (x : α) (rest : List α) (hp : s.pending = x::rest) :
    recv 1 s = .done [x] (s.advance 1) := by
  have hg : s.grant 1 = 1 := by
    have h := s.grant_le 1
    have := s.grant_pos Nat.one_pos (by simp [hp])
    omega
  rw [recv_of_ne_nil s _ (by simp [hp]), hg, hp, List.take_one]
  rfl

end Source
end PeerConnect.Library
