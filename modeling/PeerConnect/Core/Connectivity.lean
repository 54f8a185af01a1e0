import PeerConnect.Library.Run
import Mathlib.Algebra.Order.Field.Rat
import Mathlib.Data.NNRat.Defs
import Mathlib.Logic.Function.Basic
import Mathlib.Tactic.Linarith
import Mathlib.Tactic.NormNum

/-! Connectivity checks. A check that is asked for soon after another of the same peer is answered by
the probe of that one, as far as the table of recent checks knows it. -/
namespace PeerConnect.Core.Connectivity
open Library

variable {P : Type}

/-- `PING_TIME_CHECK_WINDOW` -/
def pingTimeCheckWindow : ℚ := 3

/-- A request, with the number of the request whose `_new_check` answers it. -/
structure CheckRequest (P : Type) where
  peer : P
  timeStamp : ℚ
  probe : ℕ
  deriving DecidableEq

/-- A task that has been created and has not run yet. -/
inductive Task (P : Type)
  | submit (request : CheckRequest P)
  | checkAndRemoveIfNeeded (peer : P)
  deriving DecidableEq

/-- The table `last_checked` holds for each peer the request whose probe was started last. A task that
awaits an answer is kept with its peer and the probe. -/
structure State (P : Type) where
  now : ℚ := 0
  checks : List (CheckRequest P) := []
  lastChecked : P → Option (CheckRequest P) := fun _ => none
  ready : List (Task P) := []
  running : List ℕ := []
  result : ℕ → Option Bool := fun _ => none
  awaiting : List (P × ℕ) := []
  offline : List P := []

namespace State

def initial : State P := {}

/-- `check_for_recent` on a request of this moment: the probe that answers it too. -/
def checkForRecent (s : State P) (peer : P) : Option ℕ :=
  match s.lastChecked peer with
  | some prevRequest =>
    if s.now-prevRequest.timeStamp ≤ pingTimeCheckWindow then some prevRequest.probe else none
  | none => none

/-- The request of this moment, answered by a recent probe or by one of its own. -/
def request (s : State P) (peer : P) : CheckRequest P :=
  ⟨peer,s.now,(s.checkForRecent peer).getD s.checks.length⟩

/-- `new_check`: without a recent probe there is a task for the request, which does not run yet. -/
def newCheck (peer : P) (s : State P) : State P :=
  match s.checkForRecent peer with
  | some _ => { s with checks := s.checks ++ [s.request peer] }
  | none =>
    { s with
      checks := s.checks ++ [s.request peer]
      ready := s.ready ++ [.submit (s.request peer)] }

/-- `may_be_remove` -/
def mayBeRemove (peer : P) (succeeded : Bool) (s : State P) : State P :=
  if succeeded then s else { s with offline := s.offline ++ [peer] }

/-- `remove_peer`: with an answer at hand there is nothing to wait for. -/
def removePeer (peer : P) (s : State P) : State P :=
  match (s.checkForRecent peer).bind s.result with
  | some succeeded => (s.newCheck peer).mayBeRemove peer succeeded
  | none =>
    let s' := s.newCheck peer
    { s' with ready := s'.ready ++ [.checkAndRemoveIfNeeded peer] }

/-- The first step of a task. -/
def start [DecidableEq P] (task : Task P) (s : State P) : State P :=
  match task with
  | .submit request =>
    { s with
      lastChecked := Function.update s.lastChecked request.peer (some request)
      running := s.running ++ [request.probe] }
  | .checkAndRemoveIfNeeded peer =>
    let s' := s.newCheck peer
    { s' with awaiting := s'.awaiting ++ [(peer,(s.request peer).probe)] }

end State

/-- What can happen next: a call, the first step of one of the tasks, the end of a probe, the
continuation of a task that awaits one, or time going by. -/
inductive Event (P : Type)
  | newCheck (peer : P)
  | removePeer (peer : P)
  | start (index : ℕ)
  | finish (probe : ℕ) (succeeded : Bool)
  | resume (index : ℕ)
  | wait (duration : ℚ≥0)

namespace State

def step [DecidableEq P] (s : State P) : Event P → State P
  | .newCheck peer => s.newCheck peer
  | .removePeer peer => s.removePeer peer
  | .start index =>
    match s.ready[index]? with
    | some task => { s with ready := s.ready.eraseIdx index }.start task
    | none => s
  | .finish probe succeeded =>
    if probe ∈ s.running then
      { s with
        running := s.running.erase probe
        result := Function.update s.result probe (some succeeded) }
    else s
  | .resume index =>
    match s.awaiting[index]? with
    | some (peer,probe) =>
      match s.result probe with
      | some succeeded =>
        { s with awaiting := s.awaiting.eraseIdx index }.mayBeRemove peer succeeded
      | none => s
    | none => s
  | .wait duration => { s with now := s.now+duration }

/-- The peer that an event makes a request for. -/
def asksFor (s : State P) : Event P → Option P
  | .newCheck peer => some peer
  | .removePeer peer => some peer
  | .start index =>
    match s.ready[index]? with
    | some (.checkAndRemoveIfNeeded peer) => some peer
    | _ => none
  | _ => none

/-- Any two requests for one peer, not more than a window apart, are answered by one probe, and so in
the same way. -/
def Shares (s : State P) : Prop :=
  ∀ r ∈ s.checks, ∀ r' ∈ s.checks, r.peer = r'.peer →
    |r.timeStamp-r'.timeStamp| ≤ pingTimeCheckWindow →
    r.probe = r'.probe ∧ s.result r.probe = s.result r'.probe

/-- Whoever asks for a peer that has been asked for within the window finds it in the table, with a
request within the window. -/
def Recorded (s : State P) (e : Event P) : Prop :=
  ∀ peer, s.asksFor e = some peer →
    (∀ r ∈ s.checks, r.peer = peer → pingTimeCheckWindow < s.now-r.timeStamp) ∨
    ∃ prevRequest, s.lastChecked peer = some prevRequest ∧
      s.now-prevRequest.timeStamp ≤ pingTimeCheckWindow

/-- Requests are made in the past, with a probe of a request that has been made, and the table and the
tasks hold requests that have been made. -/
structure Valid (s : State P) : Prop where
  past : ∀ r ∈ s.checks, r.timeStamp ≤ s.now
  probe : ∀ r ∈ s.checks, r.probe < s.checks.length
  table : ∀ peer r, s.lastChecked peer = some r → r ∈ s.checks ∧ r.peer = peer
  ready : ∀ r, Task.submit r ∈ s.ready → r ∈ s.checks

variable {s : State P} {peer : P}

@[simp] theorem newCheck_now (peer : P) (s : State P) : (s.newCheck peer).now = s.now := by
  unfold newCheck
  split <;> rfl

@[simp] theorem newCheck_lastChecked (peer : P) (s : State P) :
    (s.newCheck peer).lastChecked = s.lastChecked := by
  unfold newCheck
  split <;> rfl

@[simp] theorem newCheck_checks (peer : P) (s : State P) :
    (s.newCheck peer).checks = s.checks ++ [s.request peer] := by
  unfold newCheck
  split <;> rfl

theorem mem_newCheck_ready {task : Task P} (h : task ∈ (s.newCheck peer).ready) :
    task ∈ s.ready ∨ task = .submit (s.request peer) := by
  unfold newCheck at h
  split at h
  · exact .inl h
  · exact (List.mem_append.mp h).imp_right List.mem_singleton.mp

@[simp] theorem mayBeRemove_now (peer : P) (b : Bool) (s : State P) :
    (s.mayBeRemove peer b).now = s.now := by
  cases b <;> rfl

@[simp] theorem mayBeRemove_checks (peer : P) (b : Bool) (s : State P) :
    (s.mayBeRemove peer b).checks = s.checks := by
  cases b <;> rfl

@[simp] theorem mayBeRemove_lastChecked (peer : P) (b : Bool) (s : State P) :
    (s.mayBeRemove peer b).lastChecked = s.lastChecked := by
  cases b <;> rfl

@[simp] theorem mayBeRemove_ready (peer : P) (b : Bool) (s : State P) :
    (s.mayBeRemove peer b).ready = s.ready := by
  cases b <;> rfl

/-- A recent probe is that of the request in the table. -/
theorem checkForRecent_eq_some {probe : ℕ} (h : s.checkForRecent peer = some probe) :
    ∃ r, s.lastChecked peer = some r ∧ s.now-r.timeStamp ≤ pingTimeCheckWindow ∧ r.probe = probe := by
  unfold checkForRecent at h
  split at h
  next r hr =>
    split at h
    next hle =>
      cases h
      exact ⟨r,hr,hle,rfl⟩
    next => cases h
  next => cases h

theorem checkForRecent_of_recent {r : CheckRequest P} (hr : s.lastChecked peer = some r)
    (hle : s.now-r.timeStamp ≤ pingTimeCheckWindow) : s.checkForRecent peer = some r.probe := by
  unfold checkForRecent
  rw [hr]
  exact if_pos hle

/-- An event makes one request for the peer that it asks for, and else none. -/
theorem step_checks [DecidableEq P] (s : State P) (e : Event P) :
    (s.step e).checks = s.checks ++ ((s.asksFor e).map s.request).toList := by
  cases e with
  | newCheck peer => exact newCheck_checks peer s
  | removePeer peer =>
    change (s.removePeer peer).checks = _
    unfold removePeer
    split
    · rw [mayBeRemove_checks, newCheck_checks]
      rfl
    · exact newCheck_checks peer s
  | start index =>
    unfold step asksFor
    dsimp only
    cases s.ready[index]? with
    | none => exact (List.append_nil _).symm
    | some task =>
      cases task with
      | submit request => exact (List.append_nil _).symm
      | checkAndRemoveIfNeeded peer => exact newCheck_checks peer _
  | finish probe succeeded =>
    unfold step
    dsimp only
    split <;> exact (List.append_nil _).symm
  | resume index =>
    unfold step
    dsimp only
    split
    · split
      · rw [mayBeRemove_checks]
        exact (List.append_nil _).symm
      · exact (List.append_nil _).symm
    · exact (List.append_nil _).symm
  | wait duration => exact (List.append_nil _).symm

theorem initial_valid : (initial : State P).Valid where
  past r hr := by cases hr
  probe r hr := by cases hr
  table peer r hr := by cases hr
  ready r hr := by cases hr

/-- The request of this moment has a probe of a request that has been made, or its own. -/
theorem Valid.request_probe (h : s.Valid) (peer : P) : (s.request peer).probe ≤ s.checks.length := by
  unfold request
  dsimp only
  cases hr : s.checkForRecent peer with
  | none => exact le_rfl
  | some probe =>
    obtain ⟨r,hlast,-,rfl⟩ := checkForRecent_eq_some hr
    exact (h.probe r (h.table peer r hlast).1).le

theorem Valid.newCheck (h : s.Valid) (peer : P) : (s.newCheck peer).Valid where
  past r hr := by
    rw [newCheck_checks, List.mem_append, List.mem_singleton] at hr
    rw [newCheck_now]
    rcases hr with hr | rfl
    · exact h.past r hr
    · exact le_rfl
  probe r hr := by
    rw [newCheck_checks, List.mem_append, List.mem_singleton] at hr
    rw [newCheck_checks, List.length_append, List.length_singleton, Nat.lt_succ_iff]
    rcases hr with hr | rfl
    · exact (h.probe r hr).le
    · exact h.request_probe peer
  table q r hr := by
    rw [newCheck_lastChecked] at hr
    rw [newCheck_checks]
    exact ⟨List.mem_append_left _ (h.table q r hr).1,(h.table q r hr).2⟩
  ready r hr := by
    rw [newCheck_checks]
    rcases mem_newCheck_ready hr with hr | hr
    · exact List.mem_append_left _ (h.ready r hr)
    · cases hr
      exact List.mem_append_right _ (List.mem_singleton_self _)

/-- What is neither the time nor a request, and fewer tasks to run. -/
theorem Valid.congr {s' : State P} (h : s.Valid) (hnow : s.now ≤ s'.now)
    (hchecks : s'.checks = s.checks) (hlast : s'.lastChecked = s.lastChecked)
    (hready : ∀ r, Task.submit r ∈ s'.ready → Task.submit r ∈ s.ready) : s'.Valid where
  past r hr := (h.past r (hchecks ▸ hr)).trans hnow
  probe r hr := by
    rw [hchecks] at hr ⊢
    exact h.probe r hr
  table peer r hr := by
    rw [hlast] at hr
    rw [hchecks]
    exact h.table peer r hr
  ready r hr := by
    rw [hchecks]
    exact h.ready r (hready r hr)

theorem Valid.mayBeRemove (h : s.Valid) (peer : P) (b : Bool) : (s.mayBeRemove peer b).Valid :=
  h.congr (mayBeRemove_now peer b s).ge (mayBeRemove_checks peer b s) (mayBeRemove_lastChecked peer b s)
    fun r hr => by rwa [mayBeRemove_ready] at hr

theorem Valid.removePeer (h : s.Valid) (peer : P) : (s.removePeer peer).Valid := by
  unfold State.removePeer
  split
  · exact (h.newCheck peer).mayBeRemove peer _
  · refine (h.newCheck peer).congr le_rfl rfl rfl fun r hr => ?_
    rcases List.mem_append.mp hr with hr | hr
    · exact hr
    · cases List.mem_singleton.mp hr

theorem Valid.start [DecidableEq P] {task : Task P} (h : s.Valid) (htask : ∀ r, task = .submit r → r ∈ s.checks) :
    (s.start task).Valid := by
  cases task with
  | submit request =>
    refine ⟨h.past,h.probe,fun peer r hr => ?_,h.ready⟩
    change Function.update s.lastChecked request.peer (some request) peer = some r at hr
    rw [Function.update_apply] at hr
    split at hr
    next he =>
      cases hr
      exact ⟨htask request rfl,he.symm⟩
    next => exact h.table peer r hr
  | checkAndRemoveIfNeeded peer => exact (h.newCheck peer).congr le_rfl rfl rfl fun r hr => hr

theorem Valid.step [DecidableEq P] (h : s.Valid) (e : Event P) : (s.step e).Valid := by
  cases e with
  | newCheck peer => exact h.newCheck peer
  | removePeer peer => exact h.removePeer peer
  | start index =>
    unfold State.step
    dsimp only
    split
    next task htask =>
      have hrest : { s with ready := s.ready.eraseIdx index }.Valid :=
        h.congr le_rfl rfl rfl fun r hr => List.mem_of_mem_eraseIdx hr
      refine hrest.start fun r hr => ?_
      subst hr
      exact h.ready r (List.mem_of_getElem? htask)
    next => exact h
  | finish probe succeeded =>
    unfold State.step
    dsimp only
    split
    · exact h.congr le_rfl rfl rfl fun r hr => hr
    · exact h
  | resume index =>
    unfold State.step
    dsimp only
    split
    · split
      · have hrest : { s with awaiting := s.awaiting.eraseIdx index }.Valid :=
          h.congr le_rfl rfl rfl fun r hr => hr
        exact hrest.mayBeRemove _ _
      · exact h
    · exact h
  | wait duration =>
    exact h.congr (le_add_of_nonneg_right duration.coe_nonneg) rfl rfl fun r hr => hr

/-- Requests that are answered by one probe are answered in the same way. -/
theorem shares_iff : s.Shares ↔ ∀ r ∈ s.checks, ∀ r' ∈ s.checks, r.peer = r'.peer →
    |r.timeStamp-r'.timeStamp| ≤ pingTimeCheckWindow → r.probe = r'.probe := by
  constructor
  · intro h r hr r' hr' hpeer hnear
    exact (h r hr r' hr' hpeer hnear).1
  · intro h r hr r' hr' hpeer hnear
    have hprobe := h r hr r' hr' hpeer hnear
    exact ⟨hprobe,congrArg s.result hprobe⟩

/-- Sharing is about the requests only, and one more makes it no easier. -/
theorem Shares.of_checks {s' : State P} {rs : List (CheckRequest P)} (h : s'.Shares)
    (hchecks : s'.checks = s.checks ++ rs) : s.Shares := by
  rw [shares_iff] at h ⊢
  rw [hchecks] at h
  intro r hr r' hr' hpeer hnear
  exact h r (List.mem_append_left _ hr) r' (List.mem_append_left _ hr') hpeer hnear

/-- A further request shares if it does with all that are near. -/
theorem shares_concat {s' : State P} {q : CheckRequest P} (hs : s.Shares)
    (hchecks : s'.checks = s.checks ++ [q]) :
    s'.Shares ↔ ∀ r ∈ s.checks, r.peer = q.peer → |q.timeStamp-r.timeStamp| ≤ pingTimeCheckWindow →
      r.probe = q.probe := by
  rw [shares_iff] at hs ⊢
  rw [hchecks]
  constructor
  · intro h r hr hpeer hnear
    rw [abs_sub_comm] at hnear
    exact h r (List.mem_append_left _ hr) q (List.mem_append_right _ (List.mem_singleton_self _))
      hpeer hnear
  · intro h r hr r' hr' hpeer hnear
    rcases List.mem_append.mp hr with hmem | hmem
    · rcases List.mem_append.mp hr' with hmem' | hmem'
      · exact hs r hmem r' hmem' hpeer hnear
      · obtain rfl := List.mem_singleton.mp hmem'
        rw [abs_sub_comm] at hnear
        exact h r hmem hpeer hnear
    · obtain rfl := List.mem_singleton.mp hmem
      rcases List.mem_append.mp hr' with hmem' | hmem'
      · exact (h r' hmem' hpeer.symm hnear).symm
      · obtain rfl := List.mem_singleton.mp hmem'
        rfl

/-- Of requests made before, those within the window are near the one of this moment. -/
theorem Valid.near (h : s.Valid) {r : CheckRequest P} (hr : r ∈ s.checks) :
    |s.now-r.timeStamp| ≤ pingTimeCheckWindow ↔ s.now-r.timeStamp ≤ pingTimeCheckWindow := by
  rw [abs_of_nonneg (sub_nonneg.mpr (h.past r hr))]

/-- A request answered by an earlier probe has found a recent request in the table: a probe of its own
would not be an earlier one. -/
theorem Valid.recent_of_probe (h : s.Valid) {peer : P} {r : CheckRequest P} (hr : r ∈ s.checks)
    (hprobe : r.probe = (s.request peer).probe) :
    ∃ prevRequest, s.lastChecked peer = some prevRequest ∧
      s.now-prevRequest.timeStamp ≤ pingTimeCheckWindow := by
  cases hrecent : s.checkForRecent peer with
  | none =>
    have hlt := h.probe r hr
    rw [hprobe] at hlt
    simp [request, hrecent] at hlt
  | some probe =>
    obtain ⟨prevRequest,hlast,hwithin,-⟩ := checkForRecent_eq_some hrecent
    exact ⟨prevRequest,hlast,hwithin⟩

/-- With a recent request in the table, the next request has the probe of all that are near: both are
within the window, and so not more than a window apart. -/
theorem Valid.probe_of_recent (h : s.Valid) (hs : s.Shares) {peer : P} {r prevRequest : CheckRequest P}
    (hr : r ∈ s.checks) (hpeer : r.peer = peer) (hnear : s.now-r.timeStamp ≤ pingTimeCheckWindow)
    (hlast : s.lastChecked peer = some prevRequest)
    (hwithin : s.now-prevRequest.timeStamp ≤ pingTimeCheckWindow) :
    r.probe = (s.request peer).probe := by
  obtain ⟨hprev,hpeer'⟩ := h.table peer prevRequest hlast
  have hpast := h.past r hr
  have hpast' := h.past prevRequest hprev
  have hapart : |r.timeStamp-prevRequest.timeStamp| ≤ pingTimeCheckWindow := by
    rw [abs_le]
    constructor <;> linarith
  have hprobe := shares_iff.mp hs r hr prevRequest hprev (hpeer.trans hpeer'.symm) hapart
  rw [hprobe]
  simp [request, checkForRecent_of_recent hlast hwithin]

/-- While all requests share as they should, the next one does exactly if the table is up to it. -/
theorem step_shares_iff [DecidableEq P] (e : Event P) (h : s.Valid) (hs : s.Shares) :
    (s.step e).Shares ↔ s.Recorded e := by
  have hchecks := step_checks s e
  cases hasks : s.asksFor e with
  | none =>
    rw [hasks, Option.map_none, Option.toList_none, List.append_nil] at hchecks
    refine iff_of_true ?_ fun peer hpeer => by cases hasks.symm.trans hpeer
    rw [shares_iff, hchecks]
    exact shares_iff.mp hs
  | some peer =>
    rw [hasks, Option.map_some, Option.toList_some] at hchecks
    rw [shares_concat hs hchecks]
    have hnow : (s.request peer).timeStamp = s.now := rfl
    constructor
    · intro hshare q hq
      cases hasks.symm.trans hq
      by_cases hfar : ∀ r ∈ s.checks, r.peer = peer → pingTimeCheckWindow < s.now-r.timeStamp
      · exact .inl hfar
      · simp only [not_forall, not_lt] at hfar
        obtain ⟨r,hr,hpeer,hle⟩ := hfar
        exact .inr (h.recent_of_probe hr (hshare r hr hpeer ((h.near hr).mpr hle)))
    · intro hrecorded r hr hpeer hnear
      rw [hnow, h.near hr] at hnear
      rcases hrecorded peer hasks with hfar | ⟨prevRequest,hlast,hwithin⟩
      · exact absurd hnear (not_le.mpr (hfar r hr hpeer))
      · exact h.probe_of_recent hs hr hpeer hnear hlast hwithin

/-- In every run, requests within a window share their probes exactly if the table is up to each of
them. -/
theorem shares_iff_recorded [DecidableEq P] (es : List (Event P)) :
    (after step (initial : State P) es).Shares ↔ Along step Recorded initial es := by
  refine after_iff_along (I := Valid) (P := fun _ _ => True) (fun s e _ h => h.step e)
    (fun s e hn h => hn (h.of_checks (step_checks s e))) (fun s e h hs => step_shares_iff e h hs)
    (along_of_forall (fun _ _ => trivial) _ _) initial_valid fun r hr => by cases hr

/-- Two requests in a row: the task of the first has not run, and each has a probe of its own. -/
theorem two_checks_not_shared :
    ¬ (after step (initial : State ℕ) [.newCheck 0,.newCheck 0]).Shares := by
  intro h
  have hprobe := (h ⟨0,0,0⟩ (by decide) ⟨0,0,1⟩ (by decide) rfl (by norm_num [pingTimeCheckWindow])).1
  cases hprobe

end State
end PeerConnect.Core.Connectivity
