import PeerConnect.Core.Connectivity
import Mathlib.Data.List.Nodup
import Mathlib.Data.List.Perm.Basic

/-! Peers that are set offline: only those whose removal has been asked for, after a probe of the very peer
has failed, and no more often than it has been asked for. -/
namespace PeerConnect.Core.Connectivity
open Library

variable {P : Type}

/-- The call of `check_and_remove_if_needed` that a task makes. -/
def Task.removes : Task P → Bool
  | .submit _ => false
  | .checkAndRemoveIfNeeded _ => true

/-- The probe that a task starts. -/
def Task.probe? : Task P → Option ℕ
  | .submit request => some request.probe
  | .checkAndRemoveIfNeeded _ => none

/-- The call of `remove_peer`. -/
def Event.removes : Event P → Bool
  | .removePeer _ => true
  | _ => false

namespace State

variable {s s' : State P} {peer : P} {es : List (Event P)} {e : Event P}

@[simp] theorem newCheck_result (peer : P) (s : State P) : (s.newCheck peer).result = s.result := by
  unfold newCheck
  split <;> rfl

@[simp] theorem newCheck_awaiting (peer : P) (s : State P) : (s.newCheck peer).awaiting = s.awaiting := by
  unfold newCheck
  split <;> rfl

@[simp] theorem newCheck_offline (peer : P) (s : State P) : (s.newCheck peer).offline = s.offline := by
  unfold newCheck
  split <;> rfl

@[simp] theorem countP_newCheck_ready (peer : P) (s : State P) :
    (s.newCheck peer).ready.countP Task.removes = s.ready.countP Task.removes := by
  unfold newCheck
  split
  · rfl
  · simp [Task.removes]

@[simp] theorem mayBeRemove_result (peer : P) (b : Bool) (s : State P) :
    (s.mayBeRemove peer b).result = s.result := by
  cases b <;> rfl

@[simp] theorem mayBeRemove_awaiting (peer : P) (b : Bool) (s : State P) :
    (s.mayBeRemove peer b).awaiting = s.awaiting := by
  cases b <;> rfl

theorem mem_mayBeRemove {p : P} {b : Bool} (h : p ∈ (s.mayBeRemove peer b).offline) :
    p ∈ s.offline ∨ p = peer ∧ b = false := by
  cases b with
  | true => exact .inl h
  | false => exact (List.mem_append.mp h).imp_right fun h => ⟨List.mem_singleton.mp h,rfl⟩

theorem length_mayBeRemove_le (peer : P) (b : Bool) (s : State P) :
    (s.mayBeRemove peer b).offline.length ≤ s.offline.length+1 := by
  cases b with
  | true => exact Nat.le_succ _
  | false => exact (List.length_append ..).le

/-- A probe is of one peer only. -/
def Owned (s : State P) : Prop := ∀ r ∈ s.checks, ∀ r' ∈ s.checks, r.probe = r'.probe → r.peer = r'.peer

/-- A request of this moment shares its probe with requests for the same peer only. -/
theorem Owned.request (ho : s.Owned) (hv : s.Valid) {r : CheckRequest P} (hr : r ∈ s.checks)
    (hprobe : r.probe = (s.request peer).probe) : r.peer = peer := by
  obtain ⟨prevRequest,hlast,hwithin⟩ := hv.recent_of_probe hr hprobe
  obtain ⟨hprev,hpeer⟩ := hv.table peer prevRequest hlast
  have hsame : (s.request peer).probe = prevRequest.probe := by
    simp [State.request, checkForRecent_of_recent hlast hwithin]
  exact (ho r hr prevRequest hprev (hprobe.trans hsame)).trans hpeer

theorem Owned.concat (ho : s.Owned) (hv : s.Valid) (hchecks : s'.checks = s.checks ++ [s.request peer]) :
    s'.Owned := by
  intro r hr r' hr' hprobe
  rw [hchecks, List.mem_append, List.mem_singleton] at hr hr'
  rcases hr with hr | rfl
  · rcases hr' with hr' | rfl
    · exact ho r hr r' hr' hprobe
    · exact ho.request hv hr hprobe
  · rcases hr' with hr' | rfl
    · exact (ho.request hv hr' hprobe.symm).symm
    · rfl

/-- The probes that have not ended. -/
def unfinished (s : State P) : List ℕ := s.running ++ s.ready.filterMap Task.probe?

/-- The probes that have not ended are different ones without a result, and no other probe is met than
those of the requests. -/
structure Undecided (s : State P) : Prop where
  nodup : s.unfinished.Nodup
  noResult : ∀ probe ∈ s.unfinished, s.result probe = none
  known : ∀ probe, probe ∈ s.unfinished ∨ s.result probe ≠ none → probe < s.checks.length

namespace Undecided

theorem initial : (State.initial : State P).Undecided where
  nodup := List.nodup_nil
  noResult _ h := absurd h List.not_mem_nil
  known _ h := h.elim (fun h => absurd h List.not_mem_nil) fun h => absurd rfl h

theorem congr (h : s.Undecided) (hsub : s'.unfinished.Subperm s.unfinished) (hresult : s'.result = s.result)
    (hchecks : s.checks.length ≤ s'.checks.length) : s'.Undecided where
  nodup := by
    obtain ⟨l,hperm,hl⟩ := hsub
    exact hperm.nodup_iff.mp (h.nodup.sublist hl)
  noResult probe hp := by
    rw [hresult]
    exact h.noResult probe (hsub.subset hp)
  known probe hp := by
    rw [hresult] at hp
    exact (h.known probe (hp.imp_left (hsub.subset ·))).trans_le hchecks

/-- A request without a recent probe has one that is new. -/
theorem newCheck (h : s.Undecided) (peer : P) : (s.newCheck peer).Undecided := by
  unfold State.newCheck
  split
  · exact h.congr (List.Subperm.refl _) rfl (by simp)
  next hnone =>
    have hprobe : (s.request peer).probe = s.checks.length := by simp [State.request, hnone]
    have hnew : ∀ s' : State P, s'.unfinished = s.unfinished ++ [s.checks.length] → s'.result = s.result →
        s'.checks.length = s.checks.length+1 → s'.Undecided := by
      intro s' hunfinished hresult hlength
      constructor
      · rw [hunfinished]
        refine h.nodup.append (List.nodup_singleton _) fun p hp hp' => ?_
        rw [List.mem_singleton.mp hp'] at hp
        exact (h.known _ (.inl hp)).false
      · intro p hp
        rw [hunfinished, List.mem_append, List.mem_singleton] at hp
        rw [hresult]
        rcases hp with hp | rfl
        · exact h.noResult p hp
        · by_contra hsome
          exact (h.known _ (.inr hsome)).false
      · intro p hp
        rw [hunfinished, hresult, List.mem_append, List.mem_singleton] at hp
        rw [hlength]
        rcases hp with (hp | rfl) | hp
        · exact (h.known p (.inl hp)).trans (Nat.lt_succ_self _)
        · exact Nat.lt_succ_self _
        · exact (h.known p (.inr hp)).trans (Nat.lt_succ_self _)
    refine hnew _ ?_ rfl (by simp)
    simp [unfinished, Task.probe?, hprobe]

theorem mayBeRemove (h : s.Undecided) (peer : P) (b : Bool) : (s.mayBeRemove peer b).Undecided := by
  cases b with
  | true => exact h
  | false => exact h.congr (List.Subperm.refl _) rfl le_rfl

theorem removePeer (h : s.Undecided) (peer : P) : (s.removePeer peer).Undecided := by
  have hnew := h.newCheck peer
  unfold State.removePeer
  split
  · exact hnew.mayBeRemove peer _
  · refine hnew.congr (List.Perm.subperm (List.Perm.of_eq ?_)) rfl le_rfl
    exact congrArg ((s.newCheck peer).running ++ ·) (List.filterMap_append.trans (List.append_nil _))

/-- The probe of a task that is begun is running, instead of to be started. -/
theorem start [DecidableEq P] (h : s.Undecided) (index : ℕ) : (s.step (.start index)).Undecided := by
  unfold State.step
  dsimp only
  cases htask : s.ready[index]? with
  | none => exact h
  | some task =>
    obtain ⟨hlt,rfl⟩ := List.getElem?_eq_some_iff.mp htask
    cases hkind : s.ready[index] with
    | submit request =>
      refine h.congr (List.Perm.subperm ?_) rfl le_rfl
      have hperm := (List.getElem_cons_eraseIdx_perm hlt).filterMap Task.probe?
      rw [hkind, List.filterMap_cons_some (f := Task.probe?) (b := request.probe) rfl] at hperm
      change (s.running ++ [request.probe] ++ (s.ready.eraseIdx index).filterMap Task.probe?).Perm _
      rw [List.append_assoc]
      exact hperm.append_left s.running
    | checkAndRemoveIfNeeded peer =>
      have hrest : ({ s with ready := s.ready.eraseIdx index } : State P).Undecided := by
        refine h.congr (List.Sublist.subperm ?_) rfl le_rfl
        exact ((List.eraseIdx_sublist ..).filterMap _).append_left s.running
      exact (hrest.newCheck peer).congr (List.Subperm.refl _) rfl le_rfl

theorem finish [DecidableEq P] (h : s.Undecided) (probe : ℕ) (succeeded : Bool) :
    (s.step (.finish probe succeeded)).Undecided := by
  unfold State.step
  dsimp only
  split
  next hp =>
    have hmem : probe ∈ s.unfinished := List.mem_append_left _ hp
    have hsub : (s.running.erase probe ++ s.ready.filterMap Task.probe?).Sublist s.unfinished :=
      List.erase_sublist.append_right _
    have hne : probe ∉ s.running.erase probe ++ s.ready.filterMap Task.probe? := by
      have hnodup := List.nodup_append.mp h.nodup
      rw [List.mem_append, hnodup.1.mem_erase_iff]
      rintro (⟨hne,-⟩ | hready)
      · exact hne rfl
      · exact hnodup.2.2 probe hp probe hready rfl
    refine ⟨h.nodup.sublist hsub,fun q hq => ?_,fun q hq => ?_⟩
    · have hq' : q ≠ probe := fun he => hne (he ▸ hq)
      exact (Function.update_of_ne hq' ..).trans (h.noResult q (hsub.subset hq))
    · by_cases hqp : q = probe
      · rw [hqp]
        exact h.known probe (.inl hmem)
      · refine h.known q (hq.imp (hsub.subset ·) fun hresult => ?_)
        change Function.update s.result probe (some succeeded) q ≠ none at hresult
        rwa [Function.update_of_ne hqp] at hresult
  · exact h

theorem resume [DecidableEq P] (h : s.Undecided) (index : ℕ) : (s.step (.resume index)).Undecided := by
  unfold State.step
  dsimp only
  split
  next peer probe _ =>
    split
    next succeeded _ =>
      have hrest : ({ s with awaiting := s.awaiting.eraseIdx index } : State P).Undecided :=
        h.congr (List.Subperm.refl _) rfl le_rfl
      exact hrest.mayBeRemove peer succeeded
    · exact h
  · exact h

theorem step [DecidableEq P] (h : s.Undecided) (e : Event P) : (s.step e).Undecided := by
  cases e with
  | newCheck peer => exact h.newCheck peer
  | removePeer peer => exact h.removePeer peer
  | start index => exact h.start index
  | finish probe succeeded => exact h.finish probe succeeded
  | resume index => exact h.resume index
  | wait duration => exact h.congr (List.Subperm.refl _) rfl le_rfl

end Undecided

/-- There is a request for the peer whose probe has ended in failure. -/
def Failed (s : State P) (peer : P) : Prop :=
  ∃ r ∈ s.checks, r.peer = peer ∧ s.result r.probe = some false

/-- What is done about removals is what has been asked for, and rests on probes of the peers. -/
structure Justified (es : List (Event P)) (s : State P) : Prop where
  owned : s.Owned
  ready : ∀ peer, .checkAndRemoveIfNeeded peer ∈ s.ready → .removePeer peer ∈ es
  awaiting : ∀ x ∈ s.awaiting, .removePeer x.1 ∈ es ∧ ∃ r ∈ s.checks, r.peer = x.1 ∧ r.probe = x.2
  offline : ∀ peer ∈ s.offline, .removePeer peer ∈ es ∧ s.Failed peer
  asked : s.offline.length+s.awaiting.length+s.ready.countP Task.removes ≤ es.countP Event.removes

namespace Justified

theorem initial : Justified [] (State.initial : State P) where
  owned r hr := by cases hr
  ready peer h := by cases h
  awaiting x h := by cases h
  offline peer h := by cases h
  asked := le_rfl

theorem later (h : Justified es s) (e : Event P) : Justified (es ++ [e]) s where
  owned := h.owned
  ready peer hp := List.mem_append_left _ (h.ready peer hp)
  awaiting x hx := ⟨List.mem_append_left _ (h.awaiting x hx).1,(h.awaiting x hx).2⟩
  offline peer hp := (h.offline peer hp).imp_left (List.mem_append_left _)
  asked := h.asked.trans (by rw [List.countP_append]; exact Nat.le_add_right _ _)

theorem newCheck (h : Justified es s) (hv : s.Valid) (peer : P) : Justified es (s.newCheck peer) where
  owned := h.owned.concat hv (newCheck_checks peer s)
  ready p hp := (mem_newCheck_ready hp).elim (h.ready p) fun he => by cases he
  awaiting x hx := by
    rw [newCheck_awaiting] at hx
    obtain ⟨hasked,r,hr,hrest⟩ := h.awaiting x hx
    exact ⟨hasked,r,by rw [newCheck_checks]; exact List.mem_append_left _ hr,hrest⟩
  offline p hp := by
    rw [newCheck_offline] at hp
    obtain ⟨hasked,r,hr,hpeer,hresult⟩ := h.offline p hp
    rw [← newCheck_result peer s] at hresult
    exact ⟨hasked,r,by rw [newCheck_checks]; exact List.mem_append_left _ hr,hpeer,hresult⟩
  asked := by
    rw [newCheck_offline, newCheck_awaiting, countP_newCheck_ready]
    exact h.asked

/-- A probe of the peer decides about it, when there is one more removal asked for than was accounted
for. -/
theorem mayBeRemove (h : Justified es s) {b : Bool} {r : CheckRequest P} (hasked : .removePeer peer ∈ es)
    (hr : r ∈ s.checks) (hpeer : r.peer = peer) (hb : s.result r.probe = some b)
    (hcount : s.offline.length+1+s.awaiting.length+s.ready.countP Task.removes ≤
      es.countP Event.removes) : Justified es (s.mayBeRemove peer b) where
  owned := by
    unfold Owned
    rw [mayBeRemove_checks]
    exact h.owned
  ready p hp := by
    rw [mayBeRemove_ready] at hp
    exact h.ready p hp
  awaiting x hx := by
    rw [mayBeRemove_awaiting] at hx
    rw [mayBeRemove_checks]
    exact h.awaiting x hx
  offline p hp := by
    unfold Failed
    rw [mayBeRemove_checks, mayBeRemove_result]
    rcases mem_mayBeRemove hp with hp | ⟨rfl,rfl⟩
    · exact h.offline p hp
    · exact ⟨hasked,r,hr,hpeer,hb⟩
  asked := by
    rw [mayBeRemove_awaiting, mayBeRemove_ready]
    have hle := length_mayBeRemove_le peer b s
    omega

theorem removePeer (h : Justified es s) (hv : s.Valid) (peer : P) :
    Justified (es ++ [.removePeer peer]) (s.removePeer peer) := by
  have hnew := (h.newCheck hv peer).later (.removePeer peer)
  have hasked : .removePeer peer ∈ es ++ [.removePeer peer] := by simp
  have hcount := h.asked
  unfold State.removePeer
  split
  next succeeded hrecent =>
    obtain ⟨probe,hprobe,hresult⟩ := Option.bind_eq_some_iff.mp hrecent
    obtain ⟨r,hlast,-,rfl⟩ := checkForRecent_eq_some hprobe
    obtain ⟨hr,hpeer⟩ := hv.table peer r hlast
    refine hnew.mayBeRemove hasked (by rw [newCheck_checks]; exact List.mem_append_left _ hr) hpeer
      (by rwa [newCheck_result]) ?_
    simp only [newCheck_offline, newCheck_awaiting, countP_newCheck_ready, List.countP_append,
      List.countP_singleton, Event.removes, if_true]
    omega
  next =>
    refine ⟨hnew.owned,fun p hp => ?_,hnew.awaiting,hnew.offline,?_⟩
    · rcases List.mem_append.mp hp with hp | hp
      · exact hnew.ready p hp
      · cases List.mem_singleton.mp hp
        exact hasked
    · simp only [newCheck_offline, newCheck_awaiting, countP_newCheck_ready, List.countP_append,
        List.countP_singleton, Event.removes, Task.removes, if_true]
      omega

/-- A task that is begun is no longer ready. -/
theorem start [DecidableEq P] (h : Justified es s) (hv : s.Valid) (index : ℕ) :
    Justified es (s.step (.start index)) := by
  unfold State.step
  dsimp only
  cases htask : s.ready[index]? with
  | none => exact h
  | some task =>
    obtain ⟨hlt,rfl⟩ := List.getElem?_eq_some_iff.mp htask
    have hperm := (List.getElem_cons_eraseIdx_perm hlt).countP_eq Task.removes
    rw [List.countP_cons] at hperm
    have hcount := h.asked
    have hrest : Justified es { s with ready := s.ready.eraseIdx index } := by
      refine ⟨h.owned,fun p hp => h.ready p (List.mem_of_mem_eraseIdx hp),h.awaiting,h.offline,?_⟩
      change s.offline.length+s.awaiting.length+(s.ready.eraseIdx index).countP Task.removes ≤ _
      omega
    have hvalid : { s with ready := s.ready.eraseIdx index }.Valid :=
      hv.congr le_rfl rfl rfl fun r hr => List.mem_of_mem_eraseIdx hr
    cases hkind : s.ready[index] with
    | submit request => exact ⟨hrest.owned,hrest.ready,hrest.awaiting,hrest.offline,hrest.asked⟩
    | checkAndRemoveIfNeeded peer =>
      have hnew := hrest.newCheck hvalid peer
      have hasked := h.ready peer (hkind ▸ List.getElem_mem hlt)
      have hone : (s.ready.eraseIdx index).countP Task.removes+1 = s.ready.countP Task.removes := by
        rw [hkind] at hperm
        exact hperm
      refine ⟨hnew.owned,hnew.ready,fun x hx => ?_,hnew.offline,?_⟩
      · rcases List.mem_append.mp hx with hx | hx
        · exact hnew.awaiting x hx
        · rw [List.mem_singleton.mp hx]
          refine ⟨hasked,State.request _ peer,?_,rfl,rfl⟩
          change _ ∈ (State.newCheck peer { s with ready := s.ready.eraseIdx index }).checks
          rw [newCheck_checks]
          exact List.mem_append_right _ (List.mem_singleton_self _)
      · change (State.newCheck peer { s with ready := s.ready.eraseIdx index }).offline.length+
          ((State.newCheck peer { s with ready := s.ready.eraseIdx index }).awaiting ++ [_]).length+
            (State.newCheck peer { s with ready := s.ready.eraseIdx index }).ready.countP Task.removes ≤ _
        rw [newCheck_offline, newCheck_awaiting, countP_newCheck_ready, List.length_append,
          List.length_singleton]
        change s.offline.length+(s.awaiting.length+1)+(s.ready.eraseIdx index).countP Task.removes ≤ _
        omega

/-- A task that has awaited its probe goes on with what this has ended with. -/
theorem resume [DecidableEq P] (h : Justified es s) (index : ℕ) :
    Justified es (s.step (.resume index)) := by
  unfold State.step
  dsimp only
  split
  next peer probe hawaiting =>
    split
    next succeeded hresult =>
      obtain ⟨hlt,hget⟩ := List.getElem?_eq_some_iff.mp hawaiting
      obtain ⟨hasked,r,hr,hpeer,hprobe⟩ := h.awaiting (peer,probe) (hget ▸ List.getElem_mem hlt)
      have hcount := h.asked
      have hlength := List.length_eraseIdx_add_one hlt
      have hrest : Justified es { s with awaiting := s.awaiting.eraseIdx index } := by
        refine ⟨h.owned,h.ready,fun x hx => h.awaiting x (List.mem_of_mem_eraseIdx hx),h.offline,?_⟩
        change s.offline.length+(s.awaiting.eraseIdx index).length+s.ready.countP Task.removes ≤ _
        omega
      refine hrest.mayBeRemove hasked hr hpeer (by rw [hprobe]; exact hresult) ?_
      change s.offline.length+1+(s.awaiting.eraseIdx index).length+s.ready.countP Task.removes ≤ _
      omega
    next => exact h
  next => exact h

theorem step [DecidableEq P] (h : Justified es s) (hv : s.Valid) (hu : s.Undecided) (e : Event P) :
    Justified (es ++ [e]) (s.step e) := by
  cases e with
  | newCheck peer => exact (h.newCheck hv peer).later _
  | removePeer peer => exact h.removePeer hv peer
  | start index => exact (h.start hv index).later _
  | finish probe succeeded =>
    have hlater := h.later (.finish probe succeeded)
    unfold State.step
    dsimp only
    split
    next hp =>
      refine ⟨hlater.owned,hlater.ready,hlater.awaiting,fun peer hpeer => ?_,hlater.asked⟩
      obtain ⟨hasked,r,hr,hrpeer,hresult⟩ := hlater.offline peer hpeer
      refine ⟨hasked,r,hr,hrpeer,(Function.update_of_ne ?_ ..).trans hresult⟩
      -- the probe that ends now has had no result
      rintro rfl
      rw [hu.noResult _ (List.mem_append_left _ hp)] at hresult
      cases hresult
    · exact hlater
  | resume index => exact (h.resume index).later _
  | wait duration =>
    have hlater := h.later (.wait duration)
    exact ⟨hlater.owned,hlater.ready,hlater.awaiting,hlater.offline,hlater.asked⟩

end Justified

theorem justified_run [DecidableEq P] (es : List (Event P)) :
    Justified es (after step (initial : State P) es) := by
  induction es using List.reverseRecOn with
  | nil => exact .initial
  | append_singleton es e ih =>
    rw [after_append]
    exact ih.step (after_invariant (fun s e h => h.step e) initial_valid es)
      (after_invariant (fun s e h => h.step e) Undecided.initial es) e

/-- In every run a peer is set offline only if its removal has been asked for, after a probe has failed that
answers requests for this peer and for no other, and peers are set offline no more often than removals are
asked for. -/
theorem offline_justified [DecidableEq P] (es : List (Event P)) :
    (∀ peer ∈ (after step (initial : State P) es).offline, .removePeer peer ∈ es ∧
      ∃ r ∈ (after step (initial : State P) es).checks, r.peer = peer ∧
        (after step (initial : State P) es).result r.probe = some false ∧
        ∀ r' ∈ (after step (initial : State P) es).checks, r'.probe = r.probe → r'.peer = peer) ∧
    (after step (initial : State P) es).offline.length ≤ es.countP Event.removes := by
  have h := justified_run es
  refine ⟨fun peer hp => ?_,?_⟩
  · obtain ⟨hasked,r,hr,hpeer,hresult⟩ := h.offline peer hp
    exact ⟨hasked,r,hr,hpeer,hresult,fun r' hr' hprobe => (h.owned r' hr' r hr hprobe).trans hpeer⟩
  · have hcount := h.asked
    omega

end State
end PeerConnect.Core.Connectivity
