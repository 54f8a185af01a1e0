import PeerConnect.Core.Timeouts
import PeerConnect.Library.Datagrams

/-! The coroutine that asks the multicast group for peers: two packets at first, and two more every now and
then for as long as the node is alone. Beside it the user is asked for a host, which gets the packet too. -/
namespace PeerConnect.Core
open Library

namespace Discovery
def discoverTimeout : ℚ := 3
def discoverRetries : ℕ := 2

/-- How long `send_discovery_packet` waits before each packet. -/
def packetTimeouts : List ℚ := backOff (1/10) 2 5 discoverRetries

end Discovery

/-- Where `send_discovery_requests` waits: in `send_discovery_packet`, called by itself or in the passive mode,
with the time-outs to come; then before the passive mode; or in the loop of it. -/
inductive DiscoveryRequests.Waiting
  | packet (passive : Bool) (timeouts : List ℚ)
  | settling
  | passive
  deriving DecidableEq

/-- The coroutine, with the task of its passive mode: where this waits, and until when. The packets sent to
the group and to the addresses of a host are given by their times, the latest first. -/
structure DiscoveryRequests where
  waiting : Option DiscoveryRequests.Waiting
  due : ℚ
  /-- `_try_asking_user` waits for the user, or for the addresses of the host. -/
  asked : Bool := false
  packets : List ℚ := []
  named : List ℚ := []
  deriving DecidableEq

namespace DiscoveryRequests
open Discovery

def await (waiting : Waiting) (due : ℚ) (s : DiscoveryRequests) : DiscoveryRequests :=
  { s with waiting := some waiting, due := due }

/-- `send_discovery_packet` is over: it was called once before the passive mode. -/
def packetSent (passive : Bool) (now : ℚ) (s : DiscoveryRequests) : DiscoveryRequests :=
  s.await (if passive then .passive else .settling) (now+discoverTimeout)

/-- The loop of `send_discovery_packet`. -/
def sendDiscoveryPacket (passive : Bool) (now : ℚ) (s : DiscoveryRequests) : List ℚ → DiscoveryRequests
  | [] => s.packetSent passive now
  | t::ts => s.await (.packet passive ts) (now+t)

/-- `send_discovery_requests` up to where it first waits. -/
def start (now : ℚ) : DiscoveryRequests := sendDiscoveryPacket false now ⟨none,now,false,[],[]⟩ packetTimeouts

/-- The coroutine may be woken, at that time, and finds the server bootstrapped or not and the program
finalizing or not. -/
structure WakeUp where
  now : ℚ
  bootstrapped : Bool
  finalizing : Bool

def wake (s : DiscoveryRequests) (e : WakeUp) : DiscoveryRequests :=
  if e.now < s.due then s
  else match s.waiting with
    | none => s
    | some (.packet passive timeouts) =>
      let sent := { s with packets := e.now::s.packets }
      if e.bootstrapped then sent.packetSent passive e.now
      else sendDiscoveryPacket passive e.now sent timeouts
    | some .settling => { s with asked := !e.bootstrapped }.await .passive (e.now+discoverTimeout)
    | some .passive =>
      if e.bootstrapped then s.await .passive (e.now+discoverTimeout)
      else if e.finalizing then { s with waiting := none }
      else sendDiscoveryPacket true e.now s packetTimeouts

/-- `_try_asking_user` once the user has named a host with that number of addresses, or none: each address is
sent the packet at once. -/
def hostNamed (now : ℚ) (addresses : ℕ) (s : DiscoveryRequests) : DiscoveryRequests :=
  if s.asked then { s with asked := false, named := List.replicate addresses now ++ s.named } else s

inductive Event
  | wake (e : WakeUp)
  | hostNamed (now : ℚ) (addresses : ℕ)

def step (s : DiscoveryRequests) : Event → DiscoveryRequests
  | .wake e => s.wake e
  | .hostNamed now addresses => s.hostNamed now addresses

/-- The coroutine after some events. -/
def run (s : DiscoveryRequests) (es : List Event) : DiscoveryRequests := after step s es

theorem packetTimeouts_eq : packetTimeouts = [1/10,1/5] := by
  norm_num [packetTimeouts, discoverRetries, backOff, List.range_succ]

/-- The time-outs are those that the generator hands out, before a packet and in the passive mode. -/
theorem lists_packetTimeouts :
    Lists (getTimeouts 2 5) (Timeouts.start (1/10) discoverRetries) packetTimeouts :=
  lists_start discoverRetries

theorem begins_discoverTimeout (n : ℕ) : Begins (getTimeouts 2 discoverTimeout)
    (Timeouts.start (1/10) (-1)) (List.replicate n discoverTimeout) :=
  begins_endless (by norm_num) (by norm_num) n

/-- Of any three packets in a row the last comes some time after the first. -/
def Spaced : List ℚ → Prop
  | a::b::c::packets => c+33/10 ≤ a ∧ Spaced (b::c::packets)
  | _ => True

/-- A packet sent from some time on is far enough from the last but one. -/
def Follows (t : ℚ) : List ℚ → Prop
  | _::c::_ => c+33/10 ≤ t
  | _ => True

theorem spaced_cons {t : ℚ} {packets : List ℚ} : Spaced (t::packets) ↔ Follows t packets ∧ Spaced packets := by
  rcases packets with _ | ⟨b,_ | ⟨c,packets⟩⟩ <;> simp [Spaced, Follows]

theorem Follows.mono {t t' : ℚ} {packets : List ℚ} (h : Follows t packets) (ht : t ≤ t') :
    Follows t' packets := by
  rcases packets with _ | ⟨b,_ | ⟨c,packets⟩⟩
  · trivial
  · trivial
  · exact le_trans h ht

/-- The last packet is that long before a time. -/
def Rests (pause t : ℚ) : List ℚ → Prop
  | b::_ => b+pause ≤ t
  | [] => True

/-- What holds of a coroutine that waits somewhere: when its next packet can be. -/
def Paced (s : DiscoveryRequests) : Waiting → Prop
  | .packet _ timeouts =>
    Follows s.due s.packets ∧ (timeouts = [1/5] ∧ Rests (31/10) s.due s.packets ∨
      timeouts = [] ∧ Rests (1/5) s.due s.packets)
  | .settling | .passive => Rests 3 s.due s.packets ∧ Follows (s.due+1/10) s.packets

structure Steady (s : DiscoveryRequests) : Prop where
  spaced : Spaced s.packets
  paced : ∀ w, s.waiting = some w → Paced s w

theorem Rests.mono {pause pause' t t' : ℚ} {packets : List ℚ} (h : Rests pause t packets)
    (ht : pause'-pause ≤ t'-t) : Rests pause' t' packets := by
  cases packets with
  | nil => trivial
  | cons b packets =>
    change b+pause' ≤ t'
    have hb : b+pause ≤ t := h
    linarith

theorem Rests.follows {pause t t' now : ℚ} {packets : List ℚ} (h : Rests pause t packets)
    (ht : 33/10-pause ≤ t'-t) : Follows t' (now::packets) := by
  cases packets with
  | nil => trivial
  | cons b packets =>
    change b+33/10 ≤ t'
    have hb : b+pause ≤ t := h
    linarith

theorem steady_start (t : ℚ) : Steady (start t) := by
  refine ⟨trivial,fun w hw => ?_⟩
  simp only [start, packetTimeouts_eq, sendDiscoveryPacket, await, Option.some.injEq] at hw
  subst hw
  exact ⟨trivial,.inl ⟨rfl,trivial⟩⟩

/-- The wait after the last packet. -/
theorem Steady.packetSent {s : DiscoveryRequests} {passive : Bool} {now : ℚ} (hs : Spaced s.packets)
    (hr : Rests 0 now s.packets) (hf : Follows (now+31/10) s.packets) :
    Steady (packetSent passive now s) := by
  refine ⟨hs,fun w hw => ?_⟩
  have hpaced : Rests 3 (now+discoverTimeout) s.packets ∧
      Follows (now+discoverTimeout+1/10) s.packets := by
    refine ⟨hr.mono ?_,hf.mono ?_⟩
    · norm_num [discoverTimeout]
    · norm_num [discoverTimeout]
      linarith
  cases passive with
  | false =>
    cases hw
    exact hpaced
  | true =>
    cases hw
    exact hpaced

theorem Steady.wake {s : DiscoveryRequests} (h : Steady s) (e : WakeUp) : Steady (wake s e) := by
  unfold DiscoveryRequests.wake
  split
  · exact h
  next hlt =>
    have hnow : s.due ≤ e.now := not_lt.mp hlt
    split
    · exact h
    next passive timeouts hw =>
      obtain ⟨hf,htimeouts⟩ := h.paced _ hw
      have hspaced : Spaced (e.now::s.packets) := spaced_cons.mpr ⟨hf.mono hnow,h.spaced⟩
      have hsent : Rests (1/5) s.due s.packets → Steady
          ({ s with packets := e.now::s.packets }.packetSent passive e.now) := fun hr =>
        Steady.packetSent hspaced (by change e.now+0 ≤ e.now; linarith) (hr.follows (by linarith))
      have hrest : Rests (1/5) s.due s.packets := by
        rcases htimeouts with ⟨-,hr⟩ | ⟨-,hr⟩
        · exact hr.mono (by linarith)
        · exact hr
      split
      · exact hsent hrest
      · rcases htimeouts with ⟨rfl,hr⟩ | ⟨rfl,hr⟩
        · refine ⟨hspaced,fun w hw' => ?_⟩
          cases hw'
          refine ⟨hr.follows ?_,.inr ⟨rfl,le_refl _⟩⟩
          change 33/10-31/10 ≤ e.now+1/5-s.due
          linarith
        · exact hsent hr
    next hw =>
      obtain ⟨hr,hf⟩ := h.paced _ hw
      refine ⟨h.spaced,fun w hw' => ?_⟩
      cases hw'
      refine ⟨hr.mono ?_,hf.mono ?_⟩
      · change 3-3 ≤ e.now+3-s.due
        linarith
      · change s.due+1/10 ≤ e.now+3+1/10
        linarith
    next hw =>
      obtain ⟨hr,hf⟩ := h.paced _ hw
      split
      · refine ⟨h.spaced,fun w hw' => ?_⟩
        cases hw'
        refine ⟨hr.mono ?_,hf.mono ?_⟩
        · change 3-3 ≤ e.now+3-s.due
          linarith
        · change s.due+1/10 ≤ e.now+3+1/10
          linarith
      · split
        · exact ⟨h.spaced,fun w hw' => by cases hw'⟩
        · rw [packetTimeouts_eq]
          refine ⟨h.spaced,fun w hw' => ?_⟩
          cases hw'
          refine ⟨hf.mono ?_,.inl ⟨rfl,hr.mono ?_⟩⟩
          · change s.due+1/10 ≤ e.now+1/10
            linarith
          · change 31/10-3 ≤ e.now+1/10-s.due
            linarith

/-- The answer of the user changes nothing for the packets to the group. -/
theorem hostNamed_cases (now : ℚ) (addresses : ℕ) (s : DiscoveryRequests) :
    (hostNamed now addresses s).waiting = s.waiting ∧ (hostNamed now addresses s).due = s.due ∧
      (hostNamed now addresses s).packets = s.packets := by
  unfold hostNamed
  split <;> exact ⟨rfl,rfl,rfl⟩

theorem Steady.step {s : DiscoveryRequests} (h : Steady s) (e : Event) : Steady (step s e) := by
  cases e with
  | wake e => exact h.wake e
  | hostNamed now addresses =>
    obtain ⟨hwaiting,hdue,hpackets⟩ := hostNamed_cases now addresses s
    change Steady (hostNamed now addresses s)
    refine ⟨hpackets ▸ h.spaced,fun w hw => ?_⟩
    have hpaced := h.paced w (hwaiting ▸ hw)
    unfold Paced at hpaced ⊢
    rwa [hdue, hpackets]

theorem steady_run (t : ℚ) (es : List Event) : Steady (run (start t) es) :=
  after_invariant (fun _ e h => h.step e) (steady_start t) es

theorem Spaced.of_append {newer older : List ℚ} {a b c : ℚ} (h : Spaced (newer ++ a::b::c::older)) :
    c+33/10 ≤ a := by
  induction newer with
  | nil => exact h.1
  | cons x newer ih => exact ih (spaced_cons.mp h).2

/-- Without a packet under way nothing is sent, and an end stays the end. -/
def Quiet (s : DiscoveryRequests) : Prop := ∀ passive timeouts, s.waiting ≠ some (.packet passive timeouts)

theorem packetSent_quiet (passive : Bool) (now : ℚ) (s : DiscoveryRequests) :
    Quiet (s.packetSent passive now) := by
  intro passive' timeouts h
  cases passive <;> cases h

/-- A wake-up that finds the server bootstrapped sends a packet only if one is under way, and leaves none
under way. It ends nothing. -/
theorem wake_bootstrapped {s : DiscoveryRequests} {e : WakeUp} (he : e.bootstrapped = true) :
    ((wake s e).packets = s.packets ∧ (Quiet s → Quiet (wake s e)) ∨
      (wake s e).packets = e.now::s.packets ∧ ¬ Quiet s ∧ Quiet (wake s e)) := by
  unfold wake
  rw [he]
  split
  · exact .inl ⟨rfl,id⟩
  · split
    · exact .inl ⟨rfl,id⟩
    next passive timeouts hw =>
      exact .inr ⟨rfl,fun hq => hq passive timeouts hw,packetSent_quiet _ _ _⟩
    · exact .inl ⟨rfl,fun _ _ _ h => by cases h⟩
    · exact .inl ⟨rfl,fun _ _ _ h => by cases h⟩

/-- The events at which the coroutine wakes up. -/
def wakeUps (es : List Event) : List WakeUp := es.filterMap fun
  | .wake e => some e
  | .hostNamed _ _ => none

/-- Among such wake-ups the packet under way is the last. -/
theorem packets_bootstrapped {s : DiscoveryRequests} {es : List Event}
    (hes : ∀ e ∈ wakeUps es, e.bootstrapped = true) :
    (run s es).packets.length ≤ s.packets.length+1 ∧ (Quiet s → (run s es).packets = s.packets) := by
  induction es generalizing s with
  | nil => exact ⟨Nat.le_succ _,fun _ => rfl⟩
  | cons e es ih =>
    change (run (step s e) es).packets.length ≤ _ ∧ (_ → (run (step s e) es).packets = _)
    cases e with
    | wake e =>
      obtain ⟨he,hrest⟩ := List.forall_mem_cons.mp (hes : ∀ e' ∈ e::wakeUps es, e'.bootstrapped = true)
      obtain ⟨hle,hsame⟩ := ih (s := wake s e) hrest
      rcases wake_bootstrapped (s := s) he with ⟨hp,hq⟩ | ⟨hp,hn,hq⟩
      · rw [hp] at hle hsame
        exact ⟨hle,fun h => hsame (hq h)⟩
      · refine ⟨?_,fun h => absurd h hn⟩
        change (run (wake s e) es).packets.length ≤ _
        rw [hsame hq, hp]
        exact le_refl _
    | hostNamed now addresses =>
      obtain ⟨hwaiting,-,hpackets⟩ := hostNamed_cases now addresses s
      obtain ⟨hle,hsame⟩ := ih (s := hostNamed now addresses s) hes
      rw [hpackets] at hle hsame
      refine ⟨hle,fun h => hsame fun passive timeouts hw => ?_⟩
      exact h passive timeouts (hwaiting ▸ hw)

/-- The wake-up ends the passive mode. -/
structure Ends (s : DiscoveryRequests) (e : WakeUp) : Prop where
  waiting : s.waiting = some .passive
  due : s.due ≤ e.now
  alone : e.bootstrapped = false
  finalizing : e.finalizing = true

theorem sendDiscoveryPacket_waiting (passive : Bool) (now : ℚ) (s : DiscoveryRequests) (timeouts : List ℚ) :
    (sendDiscoveryPacket passive now s timeouts).waiting ≠ none := by
  intro h
  cases timeouts <;> cases h

theorem wake_waiting_none_iff {s : DiscoveryRequests} {e : WakeUp} :
    (wake s e).waiting = none ↔ s.waiting = none ∨ Ends s e := by
  constructor
  · intro h
    unfold wake at h
    split at h
    · exact .inl h
    next hlt =>
      split at h
      next hw => exact .inl hw
      · split at h
        · cases h
        · exact absurd h (sendDiscoveryPacket_waiting _ _ _ _)
      · cases h
      next hw =>
        split at h
        · cases h
        next hb =>
          split at h
          next hf => exact .inr ⟨hw,not_lt.mp hlt,Bool.not_eq_true _ ▸ hb,hf⟩
          · exact absurd h (sendDiscoveryPacket_waiting _ _ _ _)
  · rintro (h | h)
    · unfold wake
      split
      · exact h
      · rw [h]
        exact h
    · simp [wake, h.waiting, not_lt.mpr h.due, h.alone, h.finalizing]

theorem run_waiting_none_iff {s : DiscoveryRequests} {es : List Event} (hs : s.waiting ≠ none) :
    (run s es).waiting = none ↔ ∃ es₁ e es₂, es = es₁ ++ .wake e::es₂ ∧ Ends (run s es₁) e := by
  constructor
  · intro h
    obtain ⟨es₁,e,es₂,rfl,hn,hw⟩ := came_about (F := fun s : DiscoveryRequests => s.waiting = none) hs h
    cases e with
    | wake e => exact ⟨es₁,e,es₂,rfl,(wake_waiting_none_iff.mp hw).resolve_left hn⟩
    | hostNamed now addresses => exact absurd ((hostNamed_cases now addresses _).1 ▸ hw) hn
  · rintro ⟨es₁,e,es₂,rfl,he⟩
    unfold run
    rw [after_append, after_cons]
    refine after_invariant (I := fun s : DiscoveryRequests => s.waiting = none) (fun s e h => ?_)
      (wake_waiting_none_iff.mpr (.inr he)) es₂
    cases e with
    | wake e => exact wake_waiting_none_iff.mpr (.inl h)
    | hostNamed now addresses => exact (hostNamed_cases now addresses s).1.trans h

/-- Every wake-up is in time and finds a server that is alone in a program that goes on. -/
def Lonely : DiscoveryRequests → List Event → Prop :=
  Along step fun s e => ∀ w, e = .wake w → s.due ≤ w.now ∧ w.bootstrapped = false ∧ w.finalizing = false

/-- The passive mode after some such wake-ups, of which two of every three send a packet. -/
inductive Phase (s : DiscoveryRequests) (packets : ℕ) : ℕ → Prop
  | first (n : ℕ) (hw : s.waiting = some .passive) (hp : s.packets.length = packets+2*n) :
    Phase s packets (3*n)
  | second (n : ℕ) (hw : s.waiting = some (.packet true [1/5])) (hp : s.packets.length = packets+2*n) :
    Phase s packets (3*n+1)
  | third (n : ℕ) (hw : s.waiting = some (.packet true [])) (hp : s.packets.length = packets+2*n+1) :
    Phase s packets (3*n+2)

theorem Phase.wake {s : DiscoveryRequests} {e : WakeUp} {packets k : ℕ} (h : Phase s packets k)
    (he : s.due ≤ e.now ∧ e.bootstrapped = false ∧ e.finalizing = false) :
    Phase (wake s e) packets (k+1) := by
  obtain ⟨hdue,halone,hgoes⟩ := he
  unfold DiscoveryRequests.wake
  rw [if_neg (not_lt.mpr hdue)]
  cases h with
  | first n hw hp =>
    rw [hw, halone, hgoes, packetTimeouts_eq]
    exact .second n rfl hp
  | second n hw hp =>
    rw [hw, halone]
    refine .third n rfl ?_
    change s.packets.length+1 = _
    omega
  | third n hw hp =>
    rw [hw, halone]
    refine .first (n+1) rfl ?_
    change s.packets.length+1 = _
    omega

theorem phase_run {s : DiscoveryRequests} {packets k : ℕ} {es : List Event} (h : Phase s packets k)
    (hes : Lonely s es) : Phase (run s es) packets (k+(wakeUps es).length) := by
  induction es generalizing s k with
  | nil => exact h
  | cons e es ih =>
    obtain ⟨he,hrest⟩ := hes
    cases e with
    | wake e =>
      have hcount : k+(wakeUps (.wake e::es)).length = k+1+(wakeUps es).length := by
        change k+((wakeUps es).length+1) = _
        omega
      rw [hcount]
      exact ih (h.wake (he e rfl)) hrest
    | hostNamed now addresses =>
      obtain ⟨hwaiting,-,hpackets⟩ := hostNamed_cases now addresses s
      refine ih (s := hostNamed now addresses s) ?_ hrest
      cases h with
      | first n hw hp => exact .first n (hwaiting.trans hw) (hpackets ▸ hp)
      | second n hw hp => exact .second n (hwaiting.trans hw) (hpackets ▸ hp)
      | third n hw hp => exact .third n (hwaiting.trans hw) (hpackets ▸ hp)

theorem lonely_packets {s : DiscoveryRequests} (hs : s.waiting = some .passive) {n : ℕ} {es : List Event}
    (hlength : (wakeUps es).length = 3*n) (h : Lonely s es) :
    (run s es).packets.length = s.packets.length+2*n := by
  have hphase := phase_run (.first 0 hs rfl) h
  rw [hlength, Nat.mul_zero, Nat.zero_add] at hphase
  generalize hk : 3*n = k at hphase
  cases hphase with
  | first n' _ hp => omega
  | second n' _ _ => omega
  | third n' _ _ => omega

/-- The user is asked once, when the passive mode begins, and one host at most gets the packet. -/
structure AsksOnce (s : DiscoveryRequests) : Prop where
  early : (∀ timeouts, s.waiting ≠ some (.packet false timeouts)) ∧ s.waiting ≠ some .settling ∨
    s.asked = false ∧ s.named = []
  asked : s.asked = true → s.named = []
  once : ∃ now, ∀ t ∈ s.named, t = now

theorem asksOnce_sendDiscoveryPacket {s : DiscoveryRequests} {passive : Bool} (now : ℚ) (timeouts : List ℚ)
    (h : passive = true ∨ s.asked = false ∧ s.named = []) (hasked : s.asked = true → s.named = [])
    (honce : ∃ now, ∀ t ∈ s.named, t = now) : AsksOnce (sendDiscoveryPacket passive now s timeouts) := by
  rcases h with rfl | h
  · cases timeouts with
    | nil => exact ⟨.inl ⟨nofun,nofun⟩,hasked,honce⟩
    | cons t ts => exact ⟨.inl ⟨nofun,nofun⟩,hasked,honce⟩
  · cases timeouts with
    | nil => exact ⟨.inr h,hasked,honce⟩
    | cons t ts => exact ⟨.inr h,hasked,honce⟩

theorem AsksOnce.wake {s : DiscoveryRequests} (h : AsksOnce s) (e : WakeUp) : AsksOnce (wake s e) := by
  unfold DiscoveryRequests.wake
  split
  · exact h
  · split
    · exact h
    next passive timeouts hw =>
      have hearly : passive = true ∨ s.asked = false ∧ s.named = [] := by
        cases passive with
        | true => exact .inl rfl
        | false => exact .inr (h.early.resolve_left fun hn => hn.1 timeouts hw)
      split
      · exact asksOnce_sendDiscoveryPacket e.now [] hearly h.asked h.once
      · exact asksOnce_sendDiscoveryPacket e.now timeouts hearly h.asked h.once
    next hw =>
      have hnamed := (h.early.resolve_left fun hn => hn.2 hw).2
      exact ⟨.inl ⟨nofun,nofun⟩,fun _ => hnamed,h.once⟩
    · split
      · exact ⟨.inl ⟨nofun,nofun⟩,h.asked,h.once⟩
      · split
        · exact ⟨.inl ⟨nofun,nofun⟩,h.asked,h.once⟩
        · exact asksOnce_sendDiscoveryPacket e.now packetTimeouts (.inl rfl) h.asked h.once

theorem AsksOnce.hostNamed {s : DiscoveryRequests} (h : AsksOnce s) (now : ℚ) (addresses : ℕ) :
    AsksOnce (hostNamed now addresses s) := by
  unfold DiscoveryRequests.hostNamed
  split
  next hasked =>
    have hnamed := h.asked hasked
    have hearly := h.early.resolve_right fun hn => by
      rw [hn.1] at hasked
      cases hasked
    refine ⟨.inl hearly,fun hn => (by cases hn),now,fun t ht => ?_⟩
    rw [hnamed, List.append_nil] at ht
    exact List.eq_of_mem_replicate ht
  next => exact h

theorem asksOnce_run (t : ℚ) (es : List Event) : AsksOnce (run (start t) es) := by
  refine after_invariant (fun s e h => ?_) ?_ es
  · cases e with
    | wake e => exact AsksOnce.wake h e
    | hostNamed now addresses => exact AsksOnce.hostNamed h now addresses
  · exact asksOnce_sendDiscoveryPacket t packetTimeouts (.inr ⟨rfl,rfl⟩) (fun _ => rfl) ⟨t,nofun⟩

/-- However the wake-ups and the answer of the user come, of three discovery packets in a row to the group the
last is sent more than three seconds after the first; once every wake-up finds the server bootstrapped, one
more packet at most goes to the group; where it stays alone, two go there every three wake-ups of the passive
mode; this ends only when it wakes up in a program that is finalizing, with the server not bootstrapped; and
the packets to a host that the user has named are sent at one time. -/
theorem discovery_paced (t : ℚ) (es : List Event) :
    (∀ newer a b c older, (run (start t) es).packets = newer ++ a::b::c::older → c+33/10 ≤ a) ∧
    (∀ es', (∀ e ∈ wakeUps es', e.bootstrapped = true) →
      (run (start t) (es ++ es')).packets.length ≤ (run (start t) es).packets.length+1) ∧
    (∀ es' n, (run (start t) es).waiting = some .passive → (wakeUps es').length = 3*n →
      Lonely (run (start t) es) es' →
      (run (start t) (es ++ es')).packets.length = (run (start t) es).packets.length+2*n) ∧
    ((run (start t) es).waiting = none ↔
      ∃ es₁ e es₂, es = es₁ ++ .wake e::es₂ ∧ Ends (run (start t) es₁) e) ∧
    ∃ now, ∀ t' ∈ (run (start t) es).named, t' = now := by
  refine ⟨fun newer a b c older h => ?_,fun es' h => ?_,fun es' n hw hlength h => ?_,?_,?_⟩
  · exact Spaced.of_append (h ▸ (steady_run t es).spaced)
  · unfold run
    rw [after_append]
    exact (packets_bootstrapped h).1
  · unfold run
    rw [after_append]
    exact lonely_packets hw hlength h
  · exact run_waiting_none_iff (sendDiscoveryPacket_waiting _ _ _ _)
  · exact (asksOnce_run t es).once

end DiscoveryRequests
end PeerConnect.Core
