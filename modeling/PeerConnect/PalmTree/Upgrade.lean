import PeerConnect.Core.Timeouts
import PeerConnect.PalmTree.Relay
import Mathlib.Algebra.Order.Ring.Rat

/-! A tree check that waits for the stream of its sender: `_send_upgrade_packet` with its attempts, while
streams come in. -/
namespace PeerConnect.PalmTree
open Library

variable {ι : Type}

/-- `get_timeouts`, from the current timeout on. -/
def getTimeouts (factor maxValue : ℚ) : ℕ → ℚ → List ℚ
  | 0,_ => []
  | retries+1,current => min current maxValue::getTimeouts factor maxValue retries (current*factor)

/-- The timeouts of the attempts. -/
def upgradeTimeouts (linkWaitTimeout : ℚ) : List ℚ :=
  getTimeouts 2 linkWaitTimeout Relay.maxRetries (1/10)

theorem getTimeouts_eq_backOff (factor maxValue : ℚ) (retries : ℕ) (current : ℚ) :
    getTimeouts factor maxValue retries current = Core.backOff current factor maxValue retries := by
  induction retries generalizing current with
  | zero => rfl
  | succ retries ih => rw [getTimeouts, Core.backOff_succ, ih]

/-- They are those that the generator hands out. -/
theorem lists_upgradeTimeouts (linkWaitTimeout : ℚ) : Lists (Core.getTimeouts 2 linkWaitTimeout)
    (Core.Timeouts.start (1/10) Relay.maxRetries) (upgradeTimeouts linkWaitTimeout) := by
  rw [upgradeTimeouts, getTimeouts_eq_backOff]
  exact Core.lists_start Relay.maxRetries

/-- Where `_send_upgrade_packet` is: in an attempt, with the timeouts of those to come, or at its end. -/
inductive UpgradePhase
  | awaiting (timeouts : List ℚ)
  | returned
  | refused
  deriving DecidableEq

/-- A tree check in `_send_upgrade_packet`. -/
structure UpgradeCall (ι : Type) where
  relay : Relay ι
  phase : UpgradePhase
  packets : List (Datagram ι) := []
  /-- handlers of streams that are sending their answer -/
  answering : List ι := []

/-- What happens to a relay meanwhile. -/
inductive UpgradeEvent (ι : Type)
  /-- the timeout of the attempt passes -/
  | timeout
  /-- a peer connects a stream -/
  | stream (id : ι)
  /-- the answer to the stream of a peer has been sent -/
  | answered (id : ι)
  deriving DecidableEq

namespace UpgradeCall
variable [DecidableEq ι]

/-- The loop, from its next attempt on. -/
def attempt (this senderId : ι) (c : UpgradeCall ι) : List ℚ → UpgradeCall ι
  | [] => { c with phase := .refused }
  | _::timeouts =>
    if c.relay.parentLinkFut.done then { c with phase := .returned }
    else { c with
      phase := .awaiting timeouts
      packets := c.packets ++ [⟨this,senderId,.gossipUpgradeConn,this⟩] }

/-- The call, from its beginning in `gossip_tree_check`. -/
def start (this senderId : ι) (linkWaitTimeout : ℚ) (r : Relay ι) : UpgradeCall ι :=
  attempt this senderId
    { relay := { r with
        expectedParentPeers := insert senderId r.expectedParentPeers
        activeLinks := insert senderId r.activeLinks }
      phase := .refused }
    (upgradeTimeouts linkWaitTimeout)

/-- `wait_for` returns as soon as the future has a result. -/
def wake (senderId : ι) (c : UpgradeCall ι) : UpgradeCall ι :=
  match c.phase,c.relay.parentLinkFut with
  | .awaiting _,.resolved _ =>
    { c with
      phase := .returned
      relay := c.relay.setLink senderId fun l => { l with direction := .incoming } }
  | _,_ => c

/-- A timeout cancels the future. -/
def step (this senderId : ι) (c : UpgradeCall ι) : UpgradeEvent ι → UpgradeCall ι
  | .timeout =>
    match c.phase with
    | .awaiting timeouts => attempt this senderId { c with relay := c.relay.cancelParent } timeouts
    | _ => c
  | .stream id =>
    let (e,phase) := c.relay.gossipAddStreamLink id 0
    { c with
      relay := e.relay
      answering := if phase = .answering then c.answering ++ [id] else c.answering }
  | .answered id =>
    if id ∈ c.answering then
      wake senderId { c with
        relay := c.relay.setResult (some id)
        answering := c.answering.erase id }
    else c

def run (this senderId : ι) (c : UpgradeCall ι) (events : List (UpgradeEvent ι)) : UpgradeCall ι :=
  events.foldl (step this senderId) c

/-- What `gossip_tree_check` does once the call has ended. -/
def finish (this senderId : ι) (c : UpgradeCall ι) : Effect ι :=
  match c.phase with
  | .returned => c.relay.finishTreeCheck this senderId
  | _ => { relay := c.relay }

/-- The call as a handler of the relay. -/
def effect (this senderId : ι) (c : UpgradeCall ι) : Effect ι :=
  match c.phase with
  | .awaiting timeouts =>
    { relay := c.relay
      send := [⟨this,senderId,.gossipUpgradeConn,this⟩]
      tasks := [.awaitParent senderId timeouts.length] }
  | _ => c.finish this senderId

theorem effect_attempt (this senderId : ι) (c : UpgradeCall ι) (timeouts : List ℚ) :
    (attempt this senderId c timeouts).effect this senderId =
      c.relay.sendUpgradePacket this senderId timeouts.length := by
  cases timeouts with
  | nil => rfl
  | cons t timeouts =>
    rw [attempt, List.length_cons, Relay.sendUpgradePacket]
    split <;> rfl

theorem length_getTimeouts (factor maxValue : ℚ) (retries : ℕ) (current : ℚ) :
    (getTimeouts factor maxValue retries current).length = retries := by
  induction retries generalizing current with
  | zero => rfl
  | succ retries ih => rw [getTimeouts, List.length_cons, ih]

/-- A tree check that is not rejected begins with the call. -/
theorem gossipTreeCheck_eq (this id addr : ι) (linkWaitTimeout : ℚ) {r : Relay ι}
    (h : r.rejectReason id = []) :
    r.gossipTreeCheck this id addr true = (start this id linkWaitTimeout r).effect this id := by
  have hlength : (upgradeTimeouts linkWaitTimeout).length = Relay.maxRetries := length_getTimeouts _ _ _ _
  rw [start, effect_attempt, hlength, Relay.gossipTreeCheck, if_neg (by simp), if_neg (by simp [h])]

/-- A timeout is the handler's next step. -/
theorem resumeAwaitParent_eq (this senderId : ι) {c : UpgradeCall ι} {timeouts : List ℚ}
    (hphase : c.phase = .awaiting timeouts) (hpending : c.relay.parentLinkFut = .pending) :
    c.relay.resumeAwaitParent this senderId timeouts.length =
      (c.step this senderId .timeout).effect this senderId := by
  simp only [step, hphase, effect_attempt, Relay.resumeAwaitParent, hpending]

/-- The result of the future is the handler's next step as well. -/
theorem finish_wake (this senderId : ι) {c : UpgradeCall ι} {timeouts : List ℚ} {link : Option ι}
    (hphase : c.phase = .awaiting timeouts) (hlink : c.relay.parentLinkFut = .resolved link) :
    c.relay.resumeAwaitParent this senderId timeouts.length = (c.wake senderId).effect this senderId := by
  simp only [wake, hphase, hlink, Relay.resumeAwaitParent]
  rfl

end UpgradeCall

section Outcome
variable [DecidableEq ι]
open UpgradeCall

/-- What the call has to do, after some of the events: it returns only with a link; without one it goes
on with its attempts, in each of which a parent can be accepted, and after the last of them it raises, so
that nothing is forwarded. -/
structure Persistent (this senderId : ι) (c₀ : UpgradeCall ι) (events : List (UpgradeEvent ι)) : Prop where
  link : (c₀.run this senderId events).phase = .returned →
    ∃ p, (c₀.run this senderId events).relay.parentLinkFut = .resolved (some p)
  attempts : (∀ p, (c₀.run this senderId events).relay.parentLinkFut ≠ .resolved (some p)) →
    events.count .timeout < Relay.maxRetries →
      (∃ timeouts, (c₀.run this senderId events).phase = .awaiting timeouts) ∧
      (c₀.run this senderId events).relay.parentLinkFut = .pending ∧
      (c₀.run this senderId events).packets.length = events.count .timeout + 1
  refused : (∀ p, (c₀.run this senderId events).relay.parentLinkFut ≠ .resolved (some p)) →
    Relay.maxRetries ≤ events.count .timeout →
      (c₀.run this senderId events).phase = .refused ∧
      ((c₀.run this senderId events).finish this senderId).send = []

/-- In the first attempt, in which nothing has come. -/
structure Waiting (c : UpgradeCall ι) : Prop where
  phase : ∃ t ts, c.phase = .awaiting (t::ts)
  pending : c.relay.parentLinkFut = .pending
  packets : c.packets.length = 1

/-- With a link. -/
def Linked (c : UpgradeCall ι) : Prop :=
  c.phase = .returned ∧ ∃ p, c.relay.parentLinkFut = .resolved (some p)

theorem parentLinkFut_gossipAddStreamLink (id : ι) (stream : ℕ) (r : Relay ι) :
    (r.gossipAddStreamLink id stream).1.relay.parentLinkFut = r.parentLinkFut := by
  unfold Relay.gossipAddStreamLink
  split
  · rfl
  · split
    · rfl
    · split
      · rfl
      · split <;> rfl

theorem waiting_start (this : ι) {senderId : ι} (linkWaitTimeout : ℚ) {r : Relay ι}
    (h : r.rejectReason senderId = []) : Waiting (start this senderId linkWaitTimeout r) := by
  have hdone : r.parentLinkFut.done = false := by
    by_contra hd
    simp [Relay.rejectReason, hd] at h
  have hpending : r.parentLinkFut = .pending := by
    cases hf : r.parentLinkFut with
    | pending => rfl
    | resolved link => rw [hf] at hdone; cases hdone
    | cancelled => rw [hf] at hdone; cases hdone
  have hnot : ¬ r.parentLinkFut.done = true := by simp [hdone]
  simp only [start, upgradeTimeouts, Relay.maxRetries, getTimeouts, attempt, if_neg hnot]
  exact ⟨⟨_,_,rfl⟩,hpending,rfl⟩

/-- Only a timeout ends the first attempt without a link. -/
theorem Waiting.step {this senderId : ι} {c : UpgradeCall ι} (h : Waiting c) {e : UpgradeEvent ι}
    (he : e ≠ .timeout) : Waiting (c.step this senderId e) ∨ Linked (c.step this senderId e) := by
  obtain ⟨⟨t,ts,hphase⟩,hpending,hpackets⟩ := h
  cases e with
  | timeout => exact absurd rfl he
  | stream id =>
    exact .inl ⟨⟨t,ts,hphase⟩,(parentLinkFut_gossipAddStreamLink id 0 _).trans hpending,hpackets⟩
  | answered id =>
    rw [UpgradeCall.step]
    split
    next =>
      simp only [wake, hphase, Relay.setResult, hpending]
      exact .inr ⟨rfl,id,rfl⟩
    next => exact .inl ⟨⟨t,ts,hphase⟩,hpending,hpackets⟩

/-- A timeout while nothing has come makes the call return: the next attempt finds the future done. -/
theorem Waiting.timeout (this senderId : ι) {c : UpgradeCall ι} (h : Waiting c) :
    (c.step this senderId .timeout).phase = .returned ∧
      (c.step this senderId .timeout).relay.parentLinkFut = .cancelled := by
  obtain ⟨⟨t,ts,hphase⟩,hpending,_⟩ := h
  simp only [UpgradeCall.step, hphase, attempt, Relay.cancelParent, hpending]
  exact ⟨rfl,rfl⟩

theorem Linked.step {this senderId : ι} {c : UpgradeCall ι} (h : Linked c) (e : UpgradeEvent ι) :
    Linked (c.step this senderId e) := by
  obtain ⟨hphase,p,hlink⟩ := h
  cases e with
  | timeout => simp only [UpgradeCall.step, hphase]; exact ⟨hphase,p,hlink⟩
  | stream id => exact ⟨hphase,p,(parentLinkFut_gossipAddStreamLink id 0 _).trans hlink⟩
  | answered id =>
    rw [UpgradeCall.step]
    split
    next =>
      simp only [wake, hphase, Relay.setResult, hlink]
      exact ⟨rfl,p,hlink⟩
    next => exact ⟨hphase,p,hlink⟩

/-- No timeout passes while nothing has come. -/
def InTime (this senderId : ι) (c₀ : UpgradeCall ι) (events : List (UpgradeEvent ι)) : Prop :=
  ∀ before after, events = before ++ .timeout::after →
    (c₀.run this senderId before).relay.parentLinkFut ≠ .pending

theorem run_concat (this senderId : ι) (c : UpgradeCall ι) (events : List (UpgradeEvent ι))
    (e : UpgradeEvent ι) :
    c.run this senderId (events ++ [e]) = (c.run this senderId events).step this senderId e :=
  List.foldl_concat ..

theorem InTime.prefix {this senderId : ι} {c₀ : UpgradeCall ι} {events events' : List (UpgradeEvent ι)}
    (h : InTime this senderId c₀ (events ++ events')) : InTime this senderId c₀ events := by
  intro before after he
  refine h before (after ++ events') ?_
  rw [he, List.append_assoc, List.cons_append]

/-- The first timeout that passes while nothing has come. -/
theorem exists_first {this senderId : ι} {c₀ : UpgradeCall ι} {events : List (UpgradeEvent ι)}
    (h : ¬ InTime this senderId c₀ events) : ∃ before after, events = before ++ .timeout::after ∧
      (c₀.run this senderId before).relay.parentLinkFut = .pending ∧ InTime this senderId c₀ before := by
  induction events using List.reverseRecOn with
  | nil => exact absurd (fun before after he => by simp at he) h
  | append_singleton events e ih =>
    by_cases hin : InTime this senderId c₀ events
    · simp only [InTime, not_forall, not_not] at h
      obtain ⟨before,after,he,hpending⟩ := h
      cases after using List.reverseRecOn with
      | nil =>
        obtain ⟨rfl,_⟩ := List.append_inj' he rfl
        exact ⟨events,[],he,hpending,hin⟩
      | append_singleton after e' =>
        have hsplit : events = before ++ .timeout::after := by
          rw [← List.cons_append, ← List.append_assoc] at he
          exact (List.append_inj' he rfl).1
        exact absurd hpending (hin before after hsplit)
    · obtain ⟨before,after,he,hrest⟩ := ih hin
      refine ⟨before,after ++ [e],?_,hrest⟩
      rw [he, List.append_assoc, List.cons_append]

/-- In time, the call is in its first attempt, and no timeout has passed, or it has its link. -/
theorem waiting_or_linked {this senderId : ι} {c₀ : UpgradeCall ι} (h₀ : Waiting c₀)
    {events : List (UpgradeEvent ι)} (h : InTime this senderId c₀ events) :
    Waiting (c₀.run this senderId events) ∧ events.count .timeout = 0 ∨
      Linked (c₀.run this senderId events) := by
  induction events using List.reverseRecOn with
  | nil => exact .inl ⟨h₀,rfl⟩
  | append_singleton events e ih =>
    rw [run_concat]
    rcases ih h.prefix with ⟨hw,hcount⟩ | hl
    · by_cases he : e = .timeout
      · exact absurd hw.pending (h events [] (by rw [he]))
      · refine (hw.step he).imp_left fun hw' => ⟨hw',?_⟩
        rw [List.count_append, hcount, List.count_singleton, if_neg (by simpa using he)]
    · exact .inr (hl.step e)

/-- A tree check goes on as it should as long as every stream that is needed comes before the first
timeout. -/
theorem persistent_iff_inTime {this senderId : ι} {r : Relay ι} (h : r.rejectReason senderId = [])
    (linkWaitTimeout : ℚ) (events : List (UpgradeEvent ι)) :
    (∀ before after, events = before ++ after →
      Persistent this senderId (start this senderId linkWaitTimeout r) before) ↔
    InTime this senderId (start this senderId linkWaitTimeout r) events := by
  have h₀ := waiting_start this linkWaitTimeout h
  set c₀ := start this senderId linkWaitTimeout r
  constructor
  · intro hpersistent
    by_contra hnot
    obtain ⟨before,after,he,hpending,hfirst⟩ := exists_first hnot
    have hw := ((waiting_or_linked h₀ hfirst).resolve_right fun hl => by
      obtain ⟨_,p,hlink⟩ := hl
      rw [hpending] at hlink
      cases hlink).1
    obtain ⟨hphase,hcancelled⟩ := hw.timeout this senderId
    have hbad := (hpersistent (before ++ [.timeout]) after (by simpa using he)).link
    rw [run_concat] at hbad
    obtain ⟨p,hp⟩ := hbad hphase
    rw [hcancelled] at hp
    cases hp
  · rintro hin before after rfl
    rcases waiting_or_linked h₀ hin.prefix with ⟨hw,hcount⟩ | ⟨hphase,hlink⟩
    · obtain ⟨⟨t,ts,hphase⟩,hpending,hpackets⟩ := hw
      refine ⟨fun hr => ?_,fun _ _ => ⟨⟨_,hphase⟩,hpending,?_⟩,fun _ hge => ?_⟩
      · rw [hphase] at hr
        cases hr
      · rw [hpackets, hcount]
      · rw [hcount] at hge
        cases hge
    · obtain ⟨p,hp⟩ := hlink
      exact ⟨fun _ => ⟨p,hp⟩,fun hnone => absurd hp (hnone p),fun hnone => absurd hp (hnone p)⟩

/-- A relay with one neighbour. -/
def oneNeighbour : Relay ℕ := { state := .linksInitialized, fanout := 1, allLinks := [1] }

theorem persistent_in_time : oneNeighbour.rejectReason 1 = [] ∧ ∀ before after,
    [UpgradeEvent.stream 1,.answered 1,.timeout] = before ++ after →
      Persistent 0 1 (start 0 1 3 oneNeighbour) before := by
  refine ⟨by decide,(persistent_iff_inTime (r := oneNeighbour) (by decide) 3 _).mpr
    fun before after he => ?_⟩
  rcases before with _ | ⟨a,_ | ⟨b,_ | ⟨c,rest⟩⟩⟩ <;> simp at he
  obtain ⟨rfl,rfl,_⟩ := he
  decide

/-- The first timeout passes and nothing has come: the call returns without a link. -/
theorem not_persistent_after_timeout :
    ¬ Persistent 0 1 (start 0 1 3 oneNeighbour) [.timeout] := by
  intro h
  obtain ⟨p,hp⟩ := h.link rfl
  cases hp

end Outcome
end PeerConnect.PalmTree
