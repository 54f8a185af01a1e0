import PeerConnect.Library.Run
import Mathlib.Algebra.GroupWithZero.Nat
import Mathlib.Logic.Function.Basic

/-! Nodes that send each other datagrams. What has been sent may reach a node that it is addressed to at
any time, any number of times or never. -/
namespace PeerConnect.Library

/-- What holds after a run and did not before it has come about at one of the events. -/
theorem came_about {σ ε : Type*} {step : σ → ε → σ} {F : σ → Prop} {s : σ} {es : List ε} (hs : ¬ F s) (h : F (after step s es)) :
    ∃ es₁ e es₂, es = es₁ ++ e::es₂ ∧ ¬ F (after step s es₁) ∧ F (step (after step s es₁) e) := by
  induction es generalizing s with
  | nil => exact absurd h hs
  | cons e es ih =>
    by_cases he : F (step s e)
    · exact ⟨[],e,es,rfl,hs,he⟩
    · obtain ⟨es₁,e',es₂,rfl,hn,hf⟩ := ih he h
      exact ⟨e::es₁,e',es₂,rfl,hn,hf⟩

/-- What a node does: the state that it is left in, and what it sends. -/
structure Reaction (σ δ : Type*) where
  state : σ
  sends : List δ := []

/-- What a node reacts to: an input, or a datagram under some circumstances. -/
inductive Stimulus (ι κ δ : Type*)
  | input (i : ι)
  | datagram (d : δ) (c : κ)

/-- How the nodes of a network behave, and which of them a datagram is addressed to. -/
structure Parties (ν ι κ σ δ : Type*) where
  react : ν → Stimulus ι κ δ → σ → Reaction σ δ
  reaches : δ → ν → Bool

/-- The nodes, and all that has been sent. -/
structure Datagrams (ν σ δ : Type*) where
  node : ν → σ
  sent : List δ := []

namespace Datagrams

/-- A node gets an input, or one of the datagrams that have been sent. -/
inductive Event (ν ι κ : Type*)
  | act (n : ν) (i : ι)
  | deliver (n : ν) (k : ℕ) (c : κ)

variable {ν ι κ σ δ : Type*} [DecidableEq ν] (parties : Parties ν ι κ σ δ)

def apply (n : ν) (r : Reaction σ δ) (net : Datagrams ν σ δ) : Datagrams ν σ δ :=
  ⟨Function.update net.node n r.state,net.sent ++ r.sends⟩

/-- The node an event stirs, and what the node gets. -/
def stirred (net : Datagrams ν σ δ) : Event ν ι κ → Option (ν × Stimulus ι κ δ)
  | .act n i => some (n,.input i)
  | .deliver n k c =>
    match net.sent[k]? with
    | some d => if parties.reaches d n then some (n,.datagram d c) else none
    | none => none

/-- An event that stirs no node changes nothing. -/
def step (net : Datagrams ν σ δ) (e : Event ν ι κ) : Datagrams ν σ δ :=
  match stirred parties net e with
  | some (n,x) => net.apply n (parties.react n x (net.node n))
  | none => net

/-- The network after some events. -/
def run (net : Datagrams ν σ δ) (es : List (Event ν ι κ)) : Datagrams ν σ δ :=
  after (step parties) net es

variable {parties} {net : Datagrams ν σ δ} {e : Event ν ι κ} {es : List (Event ν ι κ)} {n : ν}
variable {x : Stimulus ι κ δ} {d : δ}

@[simp] theorem apply_node_self (r : Reaction σ δ) : (net.apply n r).node n = r.state :=
  Function.update_self _ _ _

theorem apply_node_ne {m : ν} (h : m ≠ n) (r : Reaction σ δ) : (net.apply n r).node m = net.node m :=
  Function.update_of_ne h _ _

theorem run_append (es' : List (Event ν ι κ)) :
    run parties net (es ++ es') = run parties (run parties net es) es' := after_append _ _ _ _

theorem step_of_stirred (h : stirred parties net e = some (n,x)) :
    step parties net e = net.apply n (parties.react n x (net.node n)) := by
  simp only [step, h]

/-- A datagram that reaches a node is reacted to. -/
theorem step_deliver {k : ℕ} (c : κ) (h : net.sent[k]? = some d) (hr : parties.reaches d n = true) :
    step parties net (.deliver n k c) = net.apply n (parties.react n (.datagram d c) (net.node n)) := by
  refine step_of_stirred ?_
  simp only [stirred, h]
  exact if_pos hr

omit [DecidableEq ν] in
/-- An input stirs its node; a datagram that stirs one has been sent, to that node. -/
theorem stirred_cases (h : stirred parties net e = some (n,x)) :
    (∃ i, e = .act n i ∧ x = .input i) ∨
      ∃ k d c, e = .deliver n k c ∧ x = .datagram d c ∧ d ∈ net.sent ∧
        parties.reaches d n = true := by
  cases e with
  | act m i =>
    cases h
    exact .inl ⟨i,rfl,rfl⟩
  | deliver m k c =>
    right
    simp only [stirred] at h
    split at h
    next d hd =>
      split at h
      next hr =>
        cases h
        exact ⟨k,d,c,rfl,rfl,List.mem_of_getElem? hd,hr⟩
      · cases h
    · cases h

omit [DecidableEq ν] in
/-- The datagram that a node gets is the one that is delivered. -/
theorem getElem?_of_stirred {m : ν} {k : ℕ} {c c' : κ}
    (h : stirred parties net (.deliver m k c) = some (n,.datagram d c')) : net.sent[k]? = some d := by
  simp only [stirred] at h
  split at h
  next d' hd =>
    split at h
    · cases h
      exact hd
    · cases h
  · cases h

/-- What is sent in a run is sent by a node that an event has stirred. -/
theorem sent_cause (h : d ∈ (run parties net es).sent) (hn : d ∉ net.sent) :
    ∃ es₁ e es₂ n x, es = es₁ ++ e::es₂ ∧ stirred parties (run parties net es₁) e = some (n,x) ∧
      d ∈ (parties.react n x ((run parties net es₁).node n)).sends := by
  obtain ⟨es₁,e,es₂,rfl,hbefore,hafter⟩ := came_about (F := fun net' : Datagrams ν σ δ => d ∈ net'.sent) hn h
  change d ∈ (step parties (run parties net es₁) e).sent at hafter
  change d ∉ (run parties net es₁).sent at hbefore
  cases hs : stirred parties (run parties net es₁) e with
  | none =>
    rw [step, hs] at hafter
    exact absurd hafter hbefore
  | some nx =>
    obtain ⟨n,x⟩ := nx
    rw [step_of_stirred hs] at hafter
    exact ⟨es₁,e,es₂,n,x,rfl,hs,(List.mem_append.mp hafter).resolve_left hbefore⟩

/-- What comes to hold of a node has come about when an event stirred that node. -/
theorem node_cause {F : σ → Prop} (h : F ((run parties net es).node n)) (hn : ¬ F (net.node n)) :
    ∃ es₁ e es₂ x, es = es₁ ++ e::es₂ ∧ stirred parties (run parties net es₁) e = some (n,x) ∧
      ¬ F ((run parties net es₁).node n) ∧
      F (parties.react n x ((run parties net es₁).node n)).state := by
  obtain ⟨es₁,e,es₂,rfl,hbefore,hafter⟩ := came_about (F := fun net' : Datagrams ν σ δ => F (net'.node n)) hn h
  change F ((step parties (run parties net es₁) e).node n) at hafter
  change ¬ F ((run parties net es₁).node n) at hbefore
  cases hs : stirred parties (run parties net es₁) e with
  | none =>
    rw [step, hs] at hafter
    exact absurd hafter hbefore
  | some mx =>
    obtain ⟨m,x⟩ := mx
    rw [step_of_stirred hs] at hafter
    by_cases hm : n = m
    · subst hm
      rw [apply_node_self] at hafter
      exact ⟨es₁,e,es₂,x,rfl,hs,hbefore,hafter⟩
    · rw [apply_node_ne hm] at hafter
      exact absurd hafter hbefore

/-- What has been sent stays sent. -/
theorem sent_grows (parties : Parties ν ι κ σ δ) (net : Datagrams ν σ δ) (es : List (Event ν ι κ)) :
    net.sent <+: (run parties net es).sent := by
  refine after_invariant (I := fun net' : Datagrams ν σ δ => net.sent <+: net'.sent) (fun net' e h => ?_)
    List.prefix_rfl es
  cases hs : stirred parties net' e with
  | none =>
    simp only [step, hs]
    exact h
  | some nx =>
    rw [step_of_stirred hs]
    exact h.trans (List.prefix_append _ _)

theorem getElem?_sent {k : ℕ} (h : net.sent[k]? = some d) (es : List (Event ν ι κ)) :
    (run parties net es).sent[k]? = some d := by
  obtain ⟨rest,hrest⟩ := sent_grows parties net es
  rw [← hrest, List.getElem?_append_left (List.getElem?_eq_some_iff.mp h).1]
  exact h

theorem mem_sent_append (h : d ∈ (run parties net es).sent) (es' : List (Event ν ι κ)) :
    d ∈ (run parties net (es ++ es')).sent := by
  rw [run_append]
  exact (sent_grows _ _ es').subset h

/-- No more datagrams of a kind are sent in a run than its events allow one by one. -/
theorem countP_sent_le {p : δ → Bool} {f : Event ν ι κ → ℕ}
    (h : ∀ es₁ e es₂ n x, es = es₁ ++ e::es₂ → stirred parties (run parties net es₁) e = some (n,x) →
      (parties.react n x ((run parties net es₁).node n)).sends.countP p ≤ f e) :
    (run parties net es).sent.countP p ≤ net.sent.countP p+(es.map f).sum := by
  induction es using List.reverseRecOn with
  | nil => exact Nat.le_add_right _ _
  | append_singleton es e ih =>
    have hle := ih fun es₁ e' es₂ n x he => h es₁ e' (es₂ ++ [e]) n x (by rw [he, List.append_assoc]; rfl)
    rw [run_append]
    change (step parties (run parties net es) e).sent.countP p ≤ _
    rw [List.map_append, List.sum_append, List.map_singleton, List.sum_singleton, ← Nat.add_assoc]
    cases hs : stirred parties (run parties net es) e with
    | none =>
      simp only [step, hs]
      exact Nat.le_trans hle (Nat.le_add_right _ _)
    | some nx =>
      obtain ⟨n,x⟩ := nx
      rw [step_of_stirred hs]
      change ((run parties net es).sent ++ _).countP p ≤ _
      rw [List.countP_append]
      exact Nat.add_le_add hle (h es e [] n x rfl hs)

/-- A property of the nodes and one of the datagrams that every node keeps up, given such datagrams and
inputs that are allowed. -/
theorem run_invariant (I : ν → σ → Prop) (P : δ → Prop) (Allowed : ν → ι → Prop)
    (hinput : ∀ n i s, Allowed n i → I n s →
      I n (parties.react n (.input i) s).state ∧ ∀ d ∈ (parties.react n (.input i) s).sends, P d)
    (hdatagram : ∀ n d c s, parties.reaches d n = true → P d → I n s →
      I n (parties.react n (.datagram d c) s).state ∧
        ∀ d' ∈ (parties.react n (.datagram d c) s).sends, P d')
    (hnode : ∀ n, I n (net.node n)) (hsent : ∀ d ∈ net.sent, P d)
    (hallowed : ∀ n i, .act n i ∈ es → Allowed n i) :
    (∀ n, I n ((run parties net es).node n)) ∧ ∀ d ∈ (run parties net es).sent, P d := by
  induction es generalizing net with
  | nil => exact ⟨hnode,hsent⟩
  | cons e es ih =>
    have hrest : ∀ n i, .act n i ∈ es → Allowed n i := fun n i hm => hallowed n i (List.mem_cons_of_mem _ hm)
    change (∀ n, I n ((run parties (step parties net e) es).node n)) ∧
      ∀ d ∈ (run parties (step parties net e) es).sent, P d
    cases hs : stirred parties net e with
    | none =>
      have he : step parties net e = net := by simp only [step, hs]
      rw [he]
      exact ih hnode hsent hrest
    | some nx =>
      obtain ⟨n,x⟩ := nx
      rw [step_of_stirred hs]
      have hreact : I n (parties.react n x (net.node n)).state ∧
          ∀ d ∈ (parties.react n x (net.node n)).sends, P d := by
        rcases stirred_cases hs with ⟨i,rfl,rfl⟩ | ⟨k,d,c,rfl,rfl,hd,hr⟩
        · exact hinput n i _ (hallowed n i List.mem_cons_self) (hnode n)
        · exact hdatagram n d c _ hr (hsent d hd) (hnode n)
      refine ih (fun m => ?_) (fun d hd => ?_) hrest
      · by_cases hm : m = n
        · subst hm
          rw [apply_node_self]
          exact hreact.1
        · rw [apply_node_ne hm]
          exact hnode m
      · rcases List.mem_append.mp hd with hd | hd
        · exact hsent d hd
        · exact hreact.2 d hd

end Datagrams
end PeerConnect.Library
