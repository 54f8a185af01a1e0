import PeerConnect.Library.Run
import Mathlib.Data.Rat.Defs
import Mathlib.Algebra.Order.Ring.Unbundled.Rat
import Mathlib.Tactic.Linarith

/-! The iterator over the answers to a search: a queue that is read until a time has passed since the
reading began. -/
namespace PeerConnect.Core
open Library

/-- A `search_iterator` with its one reader: until when the reader waits for the queue, what it has got,
and when it has been told that there is no more. -/
structure SearchIterator (α : Type) where
  replyQueue : List α := []
  startTime : Option ℚ := none
  waiting : Option ℚ := none
  yielded : List α := []
  stopped : Option ℚ := none

namespace SearchIterator
variable {α : Type}

def timeout : ℚ := 3

def addPeer (p : α) (it : SearchIterator α) : SearchIterator α :=
  { it with replyQueue := it.replyQueue ++ [p] }

/-- `__aiter__`, which a reader that waits does not call. -/
def aiter (now : ℚ) (it : SearchIterator α) : SearchIterator α :=
  if it.waiting.isSome then it else { it with startTime := some now, stopped := none }

/-- `__anext__` up to where it waits. There is no wait if no time is left, not even for what is in the
queue already. -/
def anext (now : ℚ) (it : SearchIterator α) : SearchIterator α :=
  match it.startTime with
  | none => it
  | some startTime =>
    if it.waiting.isSome ∨ it.stopped.isSome then it
    else if timeout ≤ now-startTime then { it with stopped := some now }
    else
      match it.replyQueue with
      | p::rest => { it with replyQueue := rest, yielded := it.yielded ++ [p] }
      | [] => { it with waiting := some (now+(timeout-(now-startTime))) }

/-- A reader that waits gets what has come in. -/
def wake (it : SearchIterator α) : SearchIterator α :=
  match it.waiting, it.replyQueue with
  | some _,p::rest => { it with replyQueue := rest, yielded := it.yielded ++ [p], waiting := none }
  | _,_ => it

/-- The time of a reader that waits is up. -/
def expire (now : ℚ) (it : SearchIterator α) : SearchIterator α :=
  match it.waiting with
  | some until' => if until' ≤ now then { it with waiting := none, stopped := some now } else it
  | none => it

inductive Event (α : Type)
  | addPeer (p : α)
  | aiter (now : ℚ)
  | anext (now : ℚ)
  | wake
  | expire (now : ℚ)

def step (it : SearchIterator α) : Event α → SearchIterator α
  | .addPeer p => it.addPeer p
  | .aiter now => it.aiter now
  | .anext now => it.anext now
  | .wake => it.wake
  | .expire now => it.expire now

/-- The answers of a run, in the order in which they have come in. -/
def added (es : List (Event α)) : List α := es.filterMap fun
  | .addPeer p => some p
  | _ => none

/-- All that has ever been in the queue. -/
def received (it : SearchIterator α) : List α := it.yielded ++ it.replyQueue

@[simp] theorem received_addPeer (p : α) (it : SearchIterator α) :
    (it.addPeer p).received = it.received ++ [p] := by simp [addPeer, received]

@[simp] theorem received_aiter (now : ℚ) (it : SearchIterator α) :
    (it.aiter now).received = it.received := by
  unfold aiter
  split <;> rfl

@[simp] theorem received_anext (now : ℚ) (it : SearchIterator α) :
    (it.anext now).received = it.received := by
  unfold anext
  split
  · rfl
  · split
    · rfl
    · split
      · rfl
      · split
        next p rest hq => simp [received, hq]
        · rfl

@[simp] theorem received_wake (it : SearchIterator α) : it.wake.received = it.received := by
  unfold wake
  split
  next p rest _ hq => simp [received, hq]
  · rfl

@[simp] theorem received_expire (now : ℚ) (it : SearchIterator α) :
    (it.expire now).received = it.received := by
  unfold expire
  split
  · split <;> rfl
  · rfl

/-- The reader waits no longer, and is sent away no earlier, than the time since it began. -/
structure OnTime (it : SearchIterator α) : Prop where
  idle : it.stopped.isSome → it.waiting = none
  waits : ∀ d, it.waiting = some d → ∃ start, it.startTime = some start ∧ d = start+timeout
  stops : ∀ t, it.stopped = some t → ∃ start, it.startTime = some start ∧ start+timeout ≤ t

theorem OnTime.step {it : SearchIterator α} (h : OnTime it) (e : Event α) : OnTime (step it e) := by
  cases e with
  | addPeer p => exact ⟨h.idle,h.waits,h.stops⟩
  | aiter now =>
    change OnTime (it.aiter now)
    unfold aiter
    split
    · exact h
    next hw =>
      rw [Option.not_isSome_iff_eq_none] at hw
      refine ⟨fun _ => hw,fun d hd => ?_,fun t ht => by cases ht⟩
      rw [show it.waiting = some d from hd] at hw
      cases hw
  | anext now =>
    change OnTime (it.anext now)
    unfold anext
    split
    · exact h
    next start hs =>
      split
      · exact h
      next hn =>
        rw [not_or, Option.not_isSome_iff_eq_none, Bool.not_eq_true, Option.isSome_eq_false_iff] at hn
        split
        next hle =>
          refine ⟨fun _ => hn.1,h.waits,fun t ht => ⟨start,hs,?_⟩⟩
          cases ht
          linarith
        · split
          · exact ⟨h.idle,h.waits,h.stops⟩
          · refine ⟨fun hstop => ?_,fun d hd => ⟨start,hs,?_⟩,h.stops⟩
            · rw [show it.stopped = none from Option.isNone_iff_eq_none.mp hn.2] at hstop
              cases hstop
            · cases hd
              linarith
  | wake =>
    change OnTime it.wake
    unfold wake
    split
    · exact ⟨fun _ => rfl,fun d hd => (by cases hd),h.stops⟩
    · exact h
  | expire now =>
    change OnTime (it.expire now)
    unfold expire
    split
    next d hd =>
      split
      next hle =>
        obtain ⟨start,hs,rfl⟩ := h.waits d hd
        refine ⟨fun _ => rfl,fun d hd => (by cases hd),fun t ht => ⟨start,hs,?_⟩⟩
        cases ht
        exact hle
      · exact h
    · exact h

theorem received_after (it : SearchIterator α) (es : List (Event α)) :
    (after step it es).received = it.received ++ added es := by
  induction es generalizing it with
  | nil => simp [added]
  | cons e es ih =>
    rw [after_cons, ih]
    cases e <;> simp [step, added]

/-- A reader that has been sent away gets nothing more until it begins again. -/
theorem yielded_of_stopped {it : SearchIterator α} {t : ℚ} (hs : it.stopped = some t)
    (hw : it.waiting = none) {es : List (Event α)} (hes : ∀ now, .aiter now ∉ es) :
    (after step it es).yielded = it.yielded := by
  have hinv : (after step it es).yielded = it.yielded ∧ (after step it es).stopped = some t ∧
      (after step it es).waiting = none := by
    induction es generalizing it with
    | nil => exact ⟨rfl,hs,hw⟩
    | cons e es ih =>
      have hrest : ∀ now, .aiter now ∉ es := fun now hm => hes now (List.mem_cons_of_mem _ hm)
      have he : (step it e).yielded = it.yielded ∧ (step it e).stopped = some t ∧
          (step it e).waiting = none := by
        cases e with
        | addPeer p => exact ⟨rfl,hs,hw⟩
        | aiter now => exact absurd List.mem_cons_self (hes now)
        | anext now =>
          have hsame : it.anext now = it := by
            unfold anext
            split
            · rfl
            · simp [hs]
          exact ⟨by rw [step, hsame],by rw [step, hsame, hs],by rw [step, hsame, hw]⟩
        | wake => simp [step, wake, hs, hw]
        | expire now => simp [step, expire, hs, hw]
      rw [after_cons, ← he.1]
      exact ih he.2.1 he.2.2 hrest
  exact hinv.1

/-- Asked again and again before the time is up, the iterator hands out its whole queue. -/
theorem yielded_drained {it : SearchIterator α} {start : ℚ} (hs : it.startTime = some start)
    (hw : it.waiting = none) (hn : it.stopped = none) {times : List ℚ}
    (hlate : ∀ now ∈ times, now < start+timeout) (hlen : times.length = it.replyQueue.length) :
    (after step it (times.map .anext)).yielded = it.yielded ++ it.replyQueue := by
  induction times generalizing it with
  | nil =>
    have hq : it.replyQueue = [] := List.eq_nil_of_length_eq_zero hlen.symm
    simp [hq]
  | cons now times ih =>
    cases hq : it.replyQueue with
    | nil =>
      rw [hq] at hlen
      cases hlen
    | cons p rest =>
      have hnow : ¬ timeout ≤ now-start := by
        have hlt := hlate now List.mem_cons_self
        intro hle
        linarith
      have he : it.anext now = { it with replyQueue := rest, yielded := it.yielded ++ [p] } := by
        simp [anext, hs, hw, hn, hnow, hq]
      rw [List.map_cons, after_cons]
      change (after step (it.anext now) _).yielded = _
      rw [hq] at hlen
      have hrest : (after step { it with replyQueue := rest, yielded := it.yielded ++ [p] }
          (times.map .anext)).yielded = it.yielded ++ [p] ++ rest :=
        ih hs hw hn (fun now hm => hlate now (List.mem_cons_of_mem _ hm)) (Nat.succ.inj hlen)
      rw [he, hrest, List.append_assoc]
      rfl

/-- After any run, the reader has got the first of the answers, each once and in the order in which they
have come in, and the others are still in the queue. It is sent away only when the time since it began is
up, and gets nothing from then on. While it has not been sent away and does not wait, asking often enough
before the time is up gets all of the answers. -/
theorem answers_handed_out (es : List (Event α)) :
    (after step {} es).yielded ++ (after step {} es).replyQueue = added es ∧
    (∀ t, (after step {} es).stopped = some t →
      (∃ start, (after step {} es).startTime = some start ∧ start+timeout ≤ t) ∧
      ∀ es', (∀ now, .aiter now ∉ es') →
        (after step {} (es ++ es')).yielded = (after step {} es).yielded) ∧
    ∀ (start : ℚ) (times : List ℚ), (after step {} es).startTime = some start →
      (after step {} es).waiting = none → (after step {} es).stopped = none →
      (∀ now ∈ times, now < start+timeout) → times.length = (after step {} es).replyQueue.length →
      (after step {} (es ++ times.map .anext)).yielded = added es := by
  have hadded := received_after ({} : SearchIterator α) es
  have htime : OnTime (after step ({} : SearchIterator α) es) :=
    after_invariant (I := OnTime) (fun _ e h => h.step e)
      ⟨fun _ => rfl,fun d hd => (by cases hd),fun t ht => by cases ht⟩ es
  refine ⟨hadded,fun t ht => ⟨htime.stops t ht,fun es' hes => ?_⟩,?_⟩
  · rw [after_append]
    exact yielded_of_stopped ht (htime.idle (by rw [ht]; rfl)) hes
  · intro start times hs hw hn hlate hlen
    rw [after_append, yielded_drained hs hw hn hlate hlen]
    exact hadded

/-- Two answers before the reader begins, and one while it waits. -/
example : (after step {} [.addPeer 'a',.addPeer 'b',.aiter 10,.anext 10,.anext 11,.anext 12,.addPeer 'c',
    .wake,.anext 13]).yielded = [ 'a','b','c'] := by decide +kernel

end SearchIterator
end PeerConnect.Core
