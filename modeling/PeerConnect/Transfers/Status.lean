import PeerConnect.Wire.Value
import PeerConnect.Library.Coroutine
import PeerConnect.Library.Run
import Mathlib.Algebra.Order.Floor.Ring
import Mathlib.Data.Rat.Floor
import Mathlib.Tactic.FieldSimp
import Mathlib.Tactic.NormNum
import Mathlib.Tactic.Positivity

/-! The status of a transfer, which is reported at some points between the two limits of each file.
All numbers are exact. -/
namespace PeerConnect.Transfers
open Library Wire

/-- An iterator that has nothing left. -/
def stopIteration : Exn := .other 4

/-- `int(q)` -/
def truncate (q : ℚ) : ℤ := if 0 ≤ q then ⌊q⌋ else ⌈q⌉

/-- The progress bar is the count that it shows, and the iterator the points it has left. -/
structure StatusMixIn where
  yieldFreq : ℕ
  nextYieldPoint : ℤ
  currentStatus : ℤ
  yieldIterator : Option (List ℤ)
  progressBar : Option ℤ
  deriving DecidableEq, Repr

namespace StatusMixIn

/-- `StatusMixIn(yield_freq)` -/
def create (yieldFreq : ℕ) : StatusMixIn :=
  ⟨yieldFreq,-1,0,some ((List.range yieldFreq).map Int.ofNat),none⟩

def updateStatus (status : ℤ) : Coro Exn StatusMixIn Unit := fun m =>
  match m.progressBar with
  | none => .raised .attributeError m
  | some shown => .done ()
      { m with progressBar := some (shown+(status-m.currentStatus)), currentStatus := status }

/-- `next` takes no default. -/
def shouldYield : Coro Exn StatusMixIn Bool := fun m =>
  if m.nextYieldPoint < m.currentStatus then
    match m.yieldIterator with
    | none => .raised .typeError m
    | some [] => .raised stopIteration m
    | some (point::points) =>
      .done true { m with nextYieldPoint := point, yieldIterator := some points }
  else .done false m

/-- The points of one file. -/
def yieldPoints (initialLimit finalLimit : ℤ) (yieldFreq : ℕ) : List ℤ :=
  let spacing : ℚ := (finalLimit-initialLimit : ℤ)/((yieldFreq:ℤ)-1 : ℤ)
  (List.range yieldFreq).map fun i : ℕ => min finalLimit (truncate (initialLimit+i*spacing))

def statusSetup (initialLimit finalLimit : ℤ) : Coro Exn StatusMixIn Unit := fun m =>
  let m' := { m with progressBar := some initialLimit }
  if m.yieldFreq < 2 then
    .done () { m' with nextYieldPoint := finalLimit+1, yieldIterator := none }
  else
    match yieldPoints initialLimit finalLimit m.yieldFreq with
    | [] => .raised stopIteration { m' with yieldIterator := some [] }
    | point::points => .done () { m' with nextYieldPoint := point, yieldIterator := some points }

end StatusMixIn

section Points
variable {i f : ℤ} {n : ℕ}

theorem truncate_of_nonneg {q : ℚ} (h : 0 ≤ q) : truncate q = ⌊q⌋ := if_pos h

open StatusMixIn

/-- The points do not decrease. -/
theorem yieldPoints_sorted (hi : 0 ≤ i) (hf : i ≤ f) (hn : 2 ≤ n) :
    (yieldPoints i f n).Pairwise (· ≤ ·) := by
  have hspacing : (0:ℚ) ≤ (f-i : ℤ)/((n:ℤ)-1 : ℤ) :=
    div_nonneg (by exact_mod_cast sub_nonneg.mpr hf) (by exact_mod_cast (by omega : (0:ℤ) ≤ n-1))
  have hi' : (0:ℚ) ≤ i := by exact_mod_cast hi
  unfold yieldPoints
  rw [List.pairwise_map]
  refine List.pairwise_lt_range.imp fun {j k} hjk => min_le_min (le_refl f) ?_
  have hmul : (j:ℚ)*((f-i : ℤ)/((n:ℤ)-1 : ℤ)) ≤ k*((f-i : ℤ)/((n:ℤ)-1 : ℤ)) :=
    mul_le_mul_of_nonneg_right (by exact_mod_cast hjk.le) hspacing
  rw [truncate_of_nonneg (by positivity), truncate_of_nonneg (by positivity)]
  exact Int.floor_le_floor (by linarith)

theorem yieldPoints_length : (yieldPoints i f n).length = n := by simp [yieldPoints]

/-- The last of them is the final limit. -/
theorem yieldPoints_getLast? (hi : 0 ≤ i) (hf : i ≤ f) (hn : 2 ≤ n) :
    (yieldPoints i f n).getLast? = some f := by
  have hlast : n-1 < (List.range n).length := by
    rw [List.length_range]
    omega
  have hden : (((n:ℤ)-1 : ℤ) : ℚ) ≠ 0 := by exact_mod_cast (by omega : (n:ℤ)-1 ≠ 0)
  have hcast : ((n-1 : ℕ) : ℚ) = ((n:ℤ)-1 : ℤ) := by
    have : ((n-1 : ℕ) : ℤ) = (n:ℤ)-1 := by omega
    exact_mod_cast this
  have hend : (i:ℚ)+(n-1 : ℕ)*((f-i : ℤ)/((n:ℤ)-1 : ℤ)) = f := by
    rw [hcast, mul_div_cancel₀ _ hden]
    push_cast
    ring
  rw [List.getLast?_eq_getElem?, yieldPoints_length, yieldPoints, List.getElem?_map,
    List.getElem?_eq_getElem hlast, List.getElem_range, Option.map_some]
  rw [hend, truncate_of_nonneg (by exact_mod_cast hi.trans hf), Int.floor_intCast, min_self]

end Points

/-- The calls that a transfer makes. -/
inductive StatusCall
  | statusSetup (initialLimit finalLimit : ℤ)
  | updateStatus (status : ℤ)
  | shouldYield
  deriving DecidableEq, Repr

/-- The status with what has been called since the last setup: its limits, the last update, and how
often it has been time to yield. -/
structure StatusRun where
  mixin : StatusMixIn
  limits : Option (ℤ × ℤ) := none
  updated : Option ℤ := none
  yields : ℕ := 0
  deriving DecidableEq, Repr

namespace StatusRun

def start (yieldFreq : ℕ) : StatusRun := { mixin := .create yieldFreq }

def step (s : StatusRun) : StatusCall → StatusRun
  | .statusSetup i f => ⟨(StatusMixIn.statusSetup i f s.mixin).state,some (i,f),none,0⟩
  | .updateStatus status =>
    { s with mixin := (StatusMixIn.updateStatus status s.mixin).state, updated := some status }
  | .shouldYield =>
    match StatusMixIn.shouldYield s.mixin with
    | .done true m => { s with mixin := m, yields := s.yields+1 }
    | r => { s with mixin := r.state }

/-- How transfers call: the limits are in order, an update is within them and not less than the one
before, and none is asked for between a setup and the first update. -/
def Proper (s : StatusRun) : StatusCall → Prop
  | .statusSetup i f => 0 ≤ i ∧ i ≤ f
  | .updateStatus status => ∃ i f, s.limits = some (i,f) ∧ i ≤ status ∧ status ≤ f ∧
      ∀ earlier ∈ s.updated, earlier ≤ status
  | .shouldYield => s.limits ≠ none → s.updated ≠ none

/-- What a call must not do: raise, put the next point back within a file, or be the one time to yield
too many. -/
structure Harmless (yieldFreq : ℕ) (s : StatusRun) (call : StatusCall) : Prop where
  returns : call = .shouldYield → ∃ b m, StatusMixIn.shouldYield s.mixin = .done b m
  onwards : (∀ i f, call ≠ .statusSetup i f) →
    s.mixin.nextYieldPoint ≤ (s.step call).mixin.nextYieldPoint
  seldom : (s.step call).yields ≤ yieldFreq-1

/-- Before the first file: the status is nought, and so is the only point that is reached. -/
structure Fresh (s : StatusRun) : Prop where
  limits : s.limits = none
  status : s.mixin.currentStatus = 0
  points : s.mixin.nextYieldPoint = -1 ∧ s.yields = 0 ∧
      s.mixin.yieldIterator = some ((List.range s.mixin.yieldFreq).map Int.ofNat) ∨
    s.mixin.nextYieldPoint = 0 ∧ s.yields = 1

/-- Within a file: the points still to come lead up to the final limit, each of them for one time to
yield, and no update has gone beyond it. -/
structure Within (s : StatusRun) (points : List ℤ) (f : ℤ) : Prop where
  limits : ∃ i, s.limits = some (i,f)
  iterator : s.mixin.yieldIterator = some points
  bar : s.mixin.progressBar ≠ none
  sorted : (s.mixin.nextYieldPoint::points).Pairwise (· ≤ ·)
  last : (s.mixin.nextYieldPoint::points).getLast? = some f
  count : s.yields+points.length = s.mixin.yieldFreq-1
  status : s.updated ≠ none → s.mixin.currentStatus ≤ f

/-- One or the other, with enough points for a file. -/
structure Valid (yieldFreq : ℕ) (s : StatusRun) : Prop where
  freq : s.mixin.yieldFreq = yieldFreq
  points : Fresh s ∨ ∃ points f, Within s points f

variable {yieldFreq : ℕ} {s : StatusRun}

/-- A question does not change what has been called. -/
theorem step_shouldYield_called (s : StatusRun) :
    (s.step .shouldYield).limits = s.limits ∧ (s.step .shouldYield).updated = s.updated := by
  unfold step
  dsimp only
  split <;> exact ⟨rfl,rfl⟩

theorem start_valid (yieldFreq : ℕ) : Valid yieldFreq (start yieldFreq) :=
  ⟨rfl,.inl ⟨rfl,rfl,.inl ⟨rfl,rfl,rfl⟩⟩⟩

/-- A setup leaves all points but the first to come. -/
theorem within_statusSetup {i f : ℤ} (hfreq : 2 ≤ s.mixin.yieldFreq) (hi : 0 ≤ i) (hf : i ≤ f) :
    ∃ points, Within (s.step (.statusSetup i f)) points f ∧
      (s.step (.statusSetup i f)).mixin.yieldFreq = s.mixin.yieldFreq := by
  have hsorted := yieldPoints_sorted hi hf hfreq
  have hlast := yieldPoints_getLast? hi hf hfreq
  have hlength := yieldPoints_length (i := i) (f := f) (n := s.mixin.yieldFreq)
  cases hpoints : StatusMixIn.yieldPoints i f s.mixin.yieldFreq with
  | nil =>
    rw [hpoints, List.length_nil] at hlength
    omega
  | cons point points =>
    rw [hpoints] at hsorted hlast hlength
    have hsetup : (StatusMixIn.statusSetup i f s.mixin).state =
        { s.mixin with
          progressBar := some i, nextYieldPoint := point, yieldIterator := some points } := by
      unfold StatusMixIn.statusSetup
      dsimp only
      rw [if_neg (by omega), hpoints]
      rfl
    have hstep : s.step (.statusSetup i f) = ⟨{ s.mixin with
        progressBar := some i, nextYieldPoint := point, yieldIterator := some points },
        some (i,f),none,0⟩ := by
      unfold step
      dsimp only
      rw [hsetup]
    rw [hstep]
    refine ⟨points,?_,rfl⟩
    rw [List.length_cons] at hlength
    exact {
      limits := ⟨i,rfl⟩
      iterator := rfl
      bar := by simp
      sorted := hsorted
      last := hlast
      count := by dsimp only; omega
      status := fun h => absurd rfl h }

/-- The points are not used up before the status has reached the last. -/
theorem Within.shouldYield {points : List ℤ} {f : ℤ} (h : Within s points f)
    (hstatus : s.mixin.currentStatus ≤ f) :
    (s.mixin.currentStatus ≤ s.mixin.nextYieldPoint ∧
      StatusMixIn.shouldYield s.mixin = .done false s.mixin) ∨
    ∃ point rest, points = point::rest ∧ StatusMixIn.shouldYield s.mixin =
      .done true { s.mixin with nextYieldPoint := point, yieldIterator := some rest } := by
  by_cases hlt : s.mixin.nextYieldPoint < s.mixin.currentStatus
  · right
    have hlast := h.last
    have hiterator := h.iterator
    cases points with
    | nil =>
      cases hlast
      exact absurd hlt (not_lt.mpr hstatus)
    | cons point rest =>
      refine ⟨point,rest,rfl,?_⟩
      unfold StatusMixIn.shouldYield
      rw [if_pos hlt, hiterator]
  · exact .inl ⟨not_lt.mp hlt,if_neg hlt⟩

/-- Within a file, a question takes at most one of the points still to come. -/
theorem Within.step_shouldYield {points : List ℤ} {f : ℤ} (h : Within s points f)
    (hstatus : s.mixin.currentStatus ≤ f) :
    Harmless s.mixin.yieldFreq s .shouldYield ∧ ∃ rest, Within (s.step .shouldYield) rest f ∧
      (s.step .shouldYield).mixin.yieldFreq = s.mixin.yieldFreq := by
  have hcount := h.count
  rcases h.shouldYield hstatus with ⟨hle,hno⟩ | ⟨point,rest,rfl,hyes⟩
  · have hstep : s.step .shouldYield = s := by
      unfold step
      dsimp only
      rw [hno]
      rfl
    rw [hstep]
    refine ⟨⟨fun _ => ⟨false,_,hno⟩,fun _ => ?_,?_⟩,points,h,rfl⟩
    · rw [hstep]
    · rw [hstep]
      omega
  · have hstep : s.step .shouldYield = { s with
        mixin := { s.mixin with nextYieldPoint := point, yieldIterator := some rest },
        yields := s.yields+1 } := by
      unfold step
      dsimp only
      rw [hyes]
    have hsorted := List.pairwise_cons.mp h.sorted
    rw [List.length_cons] at hcount
    rw [hstep]
    refine ⟨⟨fun _ => ⟨true,_,hyes⟩,fun _ => ?_,?_⟩,rest,?_,rfl⟩
    · rw [hstep]
      exact hsorted.1 point List.mem_cons_self
    · rw [hstep]
      dsimp only
      omega
    · exact {
        limits := h.limits
        iterator := rfl
        bar := h.bar
        sorted := hsorted.2
        last := h.last
        count := by dsimp only; omega
        status := h.status }

/-- Before the first file there is one time to yield, the first question. -/
theorem Fresh.step_shouldYield (h : Fresh s) (hfreq : 2 ≤ s.mixin.yieldFreq) :
    Harmless s.mixin.yieldFreq s .shouldYield ∧ Fresh (s.step .shouldYield) ∧
      (s.step .shouldYield).mixin.yieldFreq = s.mixin.yieldFreq := by
  rcases h.points with ⟨hpoint,hyields,hiterator⟩ | ⟨hpoint,hyields⟩
  · obtain ⟨k,hk⟩ : ∃ k, s.mixin.yieldFreq = k+1 := ⟨s.mixin.yieldFreq-1,by omega⟩
    have hyes : StatusMixIn.shouldYield s.mixin = .done true { s.mixin with
        nextYieldPoint := 0, yieldIterator := some (((List.range k).map Nat.succ).map Int.ofNat) } := by
      have hrange : (List.range s.mixin.yieldFreq).map Int.ofNat =
          0::((List.range k).map Nat.succ).map Int.ofNat := by
        rw [hk, List.range_succ_eq_map]
        rfl
      unfold StatusMixIn.shouldYield
      rw [if_pos (by rw [h.status, hpoint]; decide), hiterator, hrange]
    have hstep : s.step .shouldYield = { s with
        mixin := { s.mixin with
          nextYieldPoint := 0, yieldIterator := some (((List.range k).map Nat.succ).map Int.ofNat) },
        yields := s.yields+1 } := by
      unfold step
      dsimp only
      rw [hyes]
    rw [hstep]
    refine ⟨⟨fun _ => ⟨true,_,hyes⟩,fun _ => ?_,?_⟩,⟨h.limits,h.status,.inr ⟨rfl,?_⟩⟩,rfl⟩
    · rw [hstep, hpoint]
      exact neg_one_lt_zero.le
    · rw [hstep]
      dsimp only
      omega
    · dsimp only
      omega
  · have hno : StatusMixIn.shouldYield s.mixin = .done false s.mixin :=
      if_neg (by rw [hpoint, h.status]; decide)
    have hstep : s.step .shouldYield = s := by
      unfold step
      dsimp only
      rw [hno]
      rfl
    rw [hstep]
    refine ⟨⟨fun _ => ⟨false,_,hno⟩,fun _ => ?_,?_⟩,h,rfl⟩
    · rw [hstep]
    · rw [hstep]
      omega

/-- An update changes nothing but the status and what the bar shows. -/
theorem Within.step_updateStatus {points : List ℤ} {f status : ℤ} (h : Within s points f)
    (hstatus : status ≤ f) :
    Within (s.step (.updateStatus status)) points f ∧
      (s.step (.updateStatus status)).mixin.yieldFreq = s.mixin.yieldFreq ∧
      (s.step (.updateStatus status)).mixin.nextYieldPoint = s.mixin.nextYieldPoint ∧
      (s.step (.updateStatus status)).yields = s.yields := by
  obtain ⟨shown,hbar⟩ := Option.ne_none_iff_exists'.mp h.bar
  have hstep : s.step (.updateStatus status) = { s with
      mixin := { s.mixin with
        progressBar := some (shown+(status-s.mixin.currentStatus)), currentStatus := status },
      updated := some status } := by
    unfold step
    dsimp only
    unfold StatusMixIn.updateStatus
    rw [hbar]
    rfl
  rw [hstep]
  refine ⟨?_,rfl,rfl,rfl⟩
  exact {
    limits := h.limits
    iterator := h.iterator
    bar := by simp
    sorted := h.sorted
    last := h.last
    count := h.count
    status := fun _ => hstatus }

/-- Every call that a transfer makes is harmless, and it leaves enough points for the next. -/
theorem Valid.step (hfreq : 2 ≤ yieldFreq) {call : StatusCall} (hcall : Proper s call)
    (h : Valid yieldFreq s) : Harmless yieldFreq s call ∧ Valid yieldFreq (s.step call) := by
  obtain ⟨rfl,h⟩ := h
  cases call with
  | statusSetup i f =>
    obtain ⟨points,hwithin,hkept⟩ := within_statusSetup (s := s) hfreq hcall.1 hcall.2
    refine ⟨⟨fun he => (by cases he),fun hne => absurd rfl (hne i f),?_⟩,hkept,.inr ⟨points,f,hwithin⟩⟩
    exact Nat.zero_le _
  | updateStatus status =>
    obtain ⟨i,f,hlimits,-,hle,-⟩ := hcall
    rcases h with hfresh | ⟨points,f',hwithin⟩
    · cases hlimits.symm.trans hfresh.limits
    · obtain ⟨i',hlimits'⟩ := hwithin.limits
      cases hlimits.symm.trans hlimits'
      obtain ⟨hw,hkept,hpoint,hyields⟩ := hwithin.step_updateStatus hle
      refine ⟨⟨fun he => (by cases he),fun _ => hpoint.ge,?_⟩,hkept,.inr ⟨points,f,hw⟩⟩
      have hcount := hwithin.count
      omega
  | shouldYield =>
    rcases h with hfresh | ⟨points,f,hwithin⟩
    · obtain ⟨hharmless,hfresh',hkept⟩ := hfresh.step_shouldYield hfreq
      exact ⟨hharmless,hkept,.inl hfresh'⟩
    · obtain ⟨i,hlimits⟩ := hwithin.limits
      have hstatus := hwithin.status (hcall (by rw [hlimits]; simp))
      obtain ⟨hharmless,rest,hw,hkept⟩ := hwithin.step_shouldYield hstatus
      exact ⟨hharmless,hkept,.inr ⟨rest,f,hw⟩⟩

/-- Asking whether to yield never breaks a transfer, however many files it has. -/
theorem status_harmless (hfreq : 2 ≤ yieldFreq) (calls : List StatusCall)
    (h : Along step Proper (start yieldFreq) calls) :
    Along step (Harmless yieldFreq) (start yieldFreq) calls :=
  h.imp (fun _ _ hcall hs => hs.step hfreq hcall) (start_valid yieldFreq)

/-- A directory, a file in two parts, and another directory behind it. -/
theorem status_harmless_file : Along step (Harmless 3) (start 3)
    [.shouldYield,.statusSetup 0 10,.updateStatus 4,.shouldYield,.updateStatus 10,.shouldYield,
      .shouldYield] := by
  refine status_harmless (by decide) _ ⟨?_,?_,?_,?_,?_,?_,?_,trivial⟩
  · exact fun h => absurd rfl h
  · exact ⟨le_rfl,by decide⟩
  · exact ⟨0,10,rfl,by decide,by decide,fun _ h => by cases h⟩
  · exact fun _ h => by cases h
  · refine ⟨0,10,(step_shouldYield_called _).1,by decide,by decide,fun earlier h => ?_⟩
    rw [(step_shouldYield_called _).2] at h
    cases h
    decide
  · exact fun _ h => by cases h
  · intro _ h
    rw [(step_shouldYield_called _).2] at h
    cases h

end StatusRun
end PeerConnect.Transfers
