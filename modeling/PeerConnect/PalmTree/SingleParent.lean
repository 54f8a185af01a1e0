import PeerConnect.PalmTree.Acyclic

/-! Who is answered that its link is taken. A relay looks whether it has a parent before it answers, and
notes the parent when the answer has been sent. -/
namespace PeerConnect.PalmTree
open Library

variable {ι : Type}

/-- The conditions under which `gossip_add_stream_link` answers a neighbour. -/
def Relay.Answers (id : ι) (r : Relay ι) : Prop :=
  id ∈ r.activeLinks ∧ ¬ ((r.link id).isOnline ∨ (r.link id).isLagging) ∧
    r.parentLinkFut.done = false ∧ id ∈ r.expectedParentPeers

namespace Network

/-- The neighbour has been sent the relay's `GOSSIP_LINK_OK`, or is being sent it. -/
def Answered (n : Network ι) (p x : ι) : Prop :=
  ∃ s ∈ n.streams, s.source = p ∧ s.target = x ∧ (s.phase = .answering ∨ s.phase = .confirmed)

/-- The relay can forward to a neighbour, over a stream it has connected and the neighbour has
answered. -/
def Feeds (n : Network ι) (p x : ι) : Prop :=
  (x ∈ (n.relay p).activeLinks ∧ (n.relay p).link x = ⟨.online,.outgoing⟩) ∧
    ∃ s ∈ n.streams, s = ⟨p,x,.confirmed⟩

theorem Feeds.answered {n : Network ι} {p x : ι} (h : n.Feeds p x) : n.Answered p x := by
  obtain ⟨_,s,hs,rfl⟩ := h
  exact ⟨_,hs,rfl,rfl,.inr rfl⟩

/-- A relay does not answer a neighbour while it is still answering another. -/
def Orderly (n : Network ι) : Event ι → Prop
  | .accept k => ∀ p x, n.streams[k]? = some ⟨p,x,.offered⟩ → (n.relay x).Answers p →
      ∀ q j, (x,.confirm q j) ∈ n.tasks → q = p
  | _ => True

/-- One neighbour at most has been answered, and its answer is being sent or noted. -/
structure Single (n : Network ι) : Prop where
  one : ∀ x p q, n.Answered p x → n.Answered q x → p = q
  noted : ∀ (k : ℕ) (s : Stream ι), n.streams[k]? = some s → (s.phase = .answering ∨ s.phase = .confirmed) →
    (n.relay s.target).parentLinkFut.done = true ∨ (s.target,Task.confirm s.source k) ∈ n.tasks

/-- The streams of a network after one of them has got another phase. -/
theorem getElem?_setPhase {n : Network ι} {k i : ℕ} {phase : StreamPhase} {s : Stream ι}
    (h : (n.setPhase k phase).streams[i]? = some s) :
    i ≠ k ∧ n.streams[i]? = some s ∨
      i = k ∧ ∃ s', n.streams[i]? = some s' ∧ s = { s' with phase := phase } := by
  by_cases hik : k = i
  · subst hik
    rw [setPhase, List.getElem?_modify_eq] at h
    obtain ⟨s',hs',he⟩ := Option.map_eq_some_iff.mp h
    exact .inr ⟨rfl,s',hs',he.symm⟩
  · rw [setPhase, List.getElem?_modify_ne _ _ hik] at h
    exact .inl ⟨Ne.symm hik,h⟩

/-- Only streams that were being answered are, the futures only grow, and the tasks that note a parent
stay until it is noted. -/
theorem Single.mono {n n' : Network ι} (h : n.Single)
    (hstreams : ∀ (k : ℕ) (s : Stream ι), n'.streams[k]? = some s → (s.phase = .answering ∨ s.phase = .confirmed) →
      ∃ s', n.streams[k]? = some s' ∧ s'.source = s.source ∧ s'.target = s.target ∧
        (s'.phase = .answering ∨ s'.phase = .confirmed))
    (hdone : ∀ x, (n.relay x).parentLinkFut.done = true → (n'.relay x).parentLinkFut.done = true)
    (htasks : ∀ (k : ℕ) (s : Stream ι), n'.streams[k]? = some s → (s.phase = .answering ∨ s.phase = .confirmed) →
      (s.target,Task.confirm s.source k) ∈ n.tasks →
      (n'.relay s.target).parentLinkFut.done = true ∨
        (s.target,Task.confirm s.source k) ∈ n'.tasks) : n'.Single := by
  have hanswered : ∀ p x, n'.Answered p x → n.Answered p x := by
    rintro p x ⟨s,hs,rfl,rfl,hph⟩
    obtain ⟨k,hk⟩ := List.mem_iff_getElem?.mp hs
    obtain ⟨s',hk',hsource,htarget,hph'⟩ := hstreams k s hk hph
    exact ⟨s',List.mem_of_getElem? hk',hsource,htarget,hph'⟩
  refine ⟨fun x p q hp hq => h.one x p q (hanswered p x hp) (hanswered q x hq),fun k s hk hph => ?_⟩
  obtain ⟨s',hk',hsource,htarget,hph'⟩ := hstreams k s hk hph
  have hnoted := h.noted k s' hk' hph'
  rw [hsource, htarget] at hnoted
  rcases hnoted with hd | hj
  · exact .inl (hdone _ hd)
  · exact htasks k s hk hph hj

/-- The streams and the tasks stay, and the futures only grow. -/
theorem Single.grow {n n' : Network ι} (h : n.Single) (hstreams : n'.streams = n.streams)
    (hdone : ∀ x, (n.relay x).parentLinkFut.done = true → (n'.relay x).parentLinkFut.done = true)
    (htasks : ∀ t ∈ n.tasks, t ∈ n'.tasks) : n'.Single := by
  refine h.mono (fun k s hk hph => ?_) hdone fun _ _ _ _ hj => .inr (htasks _ hj)
  rw [hstreams] at hk
  exact ⟨s,hk,rfl,rfl,hph⟩

/-- A task that ends is only missed if it was to note a parent. -/
theorem Single.erase {n : Network ι} (h : n.Single) {k : ℕ} {x : ι} {t : Task ι}
    (hk : n.tasks[k]? = some (x,t)) (ht : ∀ p j, t ≠ .confirm p j) :
    Single { n with tasks := n.tasks.eraseIdx k } := by
  refine h.mono (fun _ s hs hph => ⟨s,hs,rfl,rfl,hph⟩) (fun _ hy => hy) fun j s _ _ hj => .inr ?_
  obtain ⟨i,hi⟩ := List.mem_iff_getElem?.mp hj
  refine List.mem_eraseIdx_iff_getElem?.mpr ⟨i,?_,hi⟩
  rintro rfl
  rw [hk] at hi
  exact ht s.source j (Prod.ext_iff.mp (Option.some.inj hi)).2

/-- An answer that has been sent was being sent. -/
theorem Single.confirm {n : Network ι} (h : n.Single) (k : ℕ) : (n.confirm k).Single := by
  unfold Network.confirm
  split
  next hk =>
    refine h.mono (fun i s hs hph => ?_) (fun _ hy => hy) fun _ _ _ _ hj => .inr hj
    obtain ⟨-,hs⟩ | ⟨rfl,s',hs',rfl⟩ := getElem?_setPhase hs
    · exact ⟨s,hs,rfl,rfl,hph⟩
    · rw [phaseOf, hs'] at hk
      exact ⟨s',hs',rfl,rfl,.inl (Option.some.inj hk)⟩
  · exact h

/-- An answer that could not be sent is none, so that its task is not missed. -/
theorem Single.unanswered {n : Network ι} (h : n.Single) {i k : ℕ} {x p : ι}
    (ht : n.tasks[i]? = some (x,.confirm p k)) :
    (Network.setPhase k .closed { n with tasks := n.tasks.eraseIdx i }).Single := by
  have hopen : ∀ j s, (n.setPhase k .closed).streams[j]? = some s →
      (s.phase = .answering ∨ s.phase = .confirmed) → j ≠ k ∧ n.streams[j]? = some s := by
    intro j s hs hph
    obtain hold | ⟨-,s',-,rfl⟩ := getElem?_setPhase hs
    · exact hold
    · simp at hph
  refine h.mono (fun j s hs hph => ?_) (fun _ hy => hy) fun j s hs hph hj => .inr ?_
  · exact ⟨s,(hopen j s hs hph).2,rfl,rfl,hph⟩
  · obtain ⟨m,hm⟩ := List.mem_iff_getElem?.mp hj
    refine List.mem_eraseIdx_iff_getElem?.mpr ⟨m,?_,hm⟩
    rintro rfl
    rw [ht] at hm
    have htask : Task.confirm p k = .confirm s.source j := (Prod.ext_iff.mp (Option.some.inj hm)).2
    injection htask with _ hkj
    exact (hopen j s hs hph).1 hkj.symm

variable [DecidableEq ι]

theorem Single.apply {n : Network ι} (h : n.Single) {x : ι} {e : Effect ι}
    (he : Settles n.settled (n.relay x).parentLinkFut e.relay.parentLinkFut) :
    (n.apply x e).Single :=
  h.grow rfl (fun _ hy => settled_apply he hy) fun _ hj => List.mem_append_left _ hj

theorem gossipAddStreamLink_phase (id : ι) (stream : ℕ) (r : Relay ι) :
    (r.gossipAddStreamLink id stream).2 ≠ .confirmed ∧
      ((r.gossipAddStreamLink id stream).2 = .answering →
        r.Answers id ∧ (r.gossipAddStreamLink id stream).1.tasks = [.confirm id stream]) := by
  unfold Relay.gossipAddStreamLink
  split
  · simp
  next ha =>
    split
    · simp
    next hl =>
      split
      · simp
      next hd =>
        split
        next hx =>
          refine ⟨by simp,fun _ => ⟨⟨?_,hl,?_,hx⟩,rfl⟩⟩
          · simpa using ha
          · simpa using hd
        · simp

/-- The step that matters: an answer is begun only where none has been. -/
theorem Single.accept {n : Network ι} (h : n.Single) {k : ℕ} {p x : ι}
    (hk : n.streams[k]? = some ⟨p,x,.offered⟩)
    (ho : (n.relay x).Answers p → ∀ q j, (x,Task.confirm q j) ∈ n.tasks → q = p)
    (he : Settles n.settled (n.relay x).parentLinkFut
      ((n.relay x).gossipAddStreamLink p k).1.relay.parentLinkFut) :
    ((n.apply x ((n.relay x).gossipAddStreamLink p k).1).setPhase k
      ((n.relay x).gossipAddStreamLink p k).2).Single := by
  obtain ⟨hne,hphase⟩ := gossipAddStreamLink_phase p k (n.relay x)
  set e := ((n.relay x).gossipAddStreamLink p k).1
  set phase := ((n.relay x).gossipAddStreamLink p k).2
  -- who is answered now was so before, or is this neighbour
  have hcases : ∀ q y, ((n.apply x e).setPhase k phase).Answered q y →
      n.Answered q y ∨ q = p ∧ y = x ∧ phase = .answering := by
    rintro q y ⟨s,hs,hsq,hsy,hsp⟩
    obtain ⟨i,hi⟩ := List.mem_iff_getElem?.mp hs
    obtain ⟨-,hi⟩ | ⟨rfl,s',hs',rfl⟩ := getElem?_setPhase hi
    · exact .inl ⟨s,List.mem_of_getElem? hi,hsq,hsy,hsp⟩
    · obtain rfl := Option.some.inj (hk.symm.trans hs')
      exact .inr ⟨hsq.symm,hsy.symm,hsp.resolve_right hne⟩
  have hold : ∀ q, n.Answered q x → phase = .answering → q = p := by
    intro q hq hp
    obtain ⟨hanswers,_⟩ := hphase hp
    obtain ⟨s,hs,rfl,rfl,hsp⟩ := hq
    obtain ⟨j,hj⟩ := List.mem_iff_getElem?.mp hs
    rcases h.noted j s hj hsp with hd | hj
    · rw [hanswers.2.2.1] at hd
      cases hd
    · exact ho hanswers s.source j hj
  have ha := (h.apply he : (n.apply x e).Single)
  refine ⟨fun y q q' hq hq' => ?_,fun i s hs hsp => ?_⟩
  · rcases hcases q y hq with hq₀ | ⟨rfl,rfl,hp⟩
    · rcases hcases q' y hq' with hq₁ | ⟨rfl,rfl,hp⟩
      · exact h.one y q q' hq₀ hq₁
      · exact hold q hq₀ hp
    · rcases hcases q' y hq' with hq₁ | ⟨rfl,_⟩
      · exact (hold q' hq₁ hp).symm
      · rfl
  · obtain ⟨-,hs⟩ | ⟨rfl,s',hs',rfl⟩ := getElem?_setPhase hs
    · exact ha.noted i s hs hsp
    · obtain rfl := Option.some.inj (hk.symm.trans hs')
      refine .inr (List.mem_append_right _ ?_)
      rw [(hphase (hsp.resolve_right hne)).2]
      exact List.mem_singleton.mpr rfl

/-- The parent whose answer has been sent is noted, and its task is not missed. -/
theorem Single.note {n : Network ι} (h : n.Single) {k : ℕ} {x q : ι} {j : ℕ}
    (hk : n.tasks[k]? = some (x,.confirm q j)) :
    (({ n with tasks := n.tasks.eraseIdx k } : Network ι).apply x
      { relay := (n.relay x).setResult (some q) }).Single := by
  have hdone : ((n.relay x).setResult (some q)).parentLinkFut.done = true := by
    unfold Relay.setResult
    split
    · rfl
    next hp =>
      cases hf : (n.relay x).parentLinkFut with
      | pending => exact absurd hf hp
      | _ => rfl
  refine h.mono (fun _ s hs hph => ⟨s,hs,rfl,rfl,hph⟩) (fun y hy => ?_) fun i s _ _ hi => ?_
  · by_cases hyx : y = x
    · rw [hyx, apply_relay_self]
      exact hdone
    · rwa [apply_relay_ne hyx]
  · by_cases hyx : s.target = x
    · rw [hyx, apply_relay_self]
      exact .inl hdone
    · obtain ⟨m,hm⟩ := List.mem_iff_getElem?.mp hi
      refine .inr (List.mem_append_left _ (List.mem_eraseIdx_iff_getElem?.mpr ⟨m,?_,hm⟩))
      rintro rfl
      rw [hk] at hm
      exact hyx (Prod.ext_iff.mp (Option.some.inj hm)).1.symm

theorem Single.step {n : Network ι} (h : n.Single) (hs : n.Sound) (root : ι) {e : Event ι}
    (ho : n.Orderly e) : (n.step root e).Single := by
  cases e with
  | updateState x addresses =>
    have he : Effect.Sound _ x _ _ := Relay.gossipUpdateState_sound addresses (hs.expected x)
    exact h.apply he.parent
  | startRoot =>
    have he : Effect.Sound _ root _ _ := Relay.setResult_sound none (by simp) (hs.expected root)
    exact h.apply he.parent
  | triggerSpanningFormation =>
    rw [Network.step]
    split
    next hd =>
      exact h.apply (Relay.forwardTreeCheckPacket_sound root hd
        (hs.expected root)).parent
    · exact h
  | deliver k known =>
    rw [Network.step]
    split
    · exact h
    next d hd =>
      exact h.apply (Relay.datagramReceived_sound (hs.datagrams d (List.mem_of_getElem? hd)) known id
        (hs.expected d.target)).parent
  | resume k ok =>
    rw [Network.step]
    split
    · exact h
    next x t ht =>
      cases t with
      | awaitParent senderId rounds =>
        exact (h.erase ht (by simp)).apply
          (Relay.resumeAwaitParent_sound senderId rounds (hs.expected x)).parent
      | connect peerId =>
        have he := h.erase ht (by simp)
        rw [resumeTask]
        split
        · refine he.mono (fun j s hs hph => ?_) (fun _ hy => hy)
            fun _ _ _ _ hj => .inr (List.mem_append_left _ hj)
          by_cases hj : j < n.streams.length
          · exact ⟨s,(List.getElem?_append_left hj).symm.trans hs,rfl,rfl,hph⟩
          · rw [List.getElem?_append_right (not_lt.mp hj)] at hs
            rw [List.mem_singleton.mp (List.mem_of_getElem? hs)] at hph
            simp at hph
        · exact he
      | handshake peerId stream =>
        have he := h.erase ht (by simp)
        rw [resumeTask]
        split
        · exact he.apply (.inl rfl)
        · exact he
      | confirm q j =>
        rw [resumeTask]
        split
        · exact (h.note ht).confirm j
        · exact h.unanswered ht
  | accept k =>
    rw [Network.step]
    split
    next p x hk =>
      have he : Effect.Sound _ x _ _ := Relay.gossipAddStreamLink_sound p k (hs.expected x)
      exact h.accept hk (ho p x hk) he.parent
    · exact h
  | linkOk k => exact h.confirm k
  | requestDowngrade x p => exact h.grow rfl (fun _ hy => hy) fun _ hj => hj
  | lag x p => exact h.apply (.inl rfl)
  | cancel x =>
    have he : Effect.Sound _ x _ _ := Relay.cancelParent_sound (hs.expected x)
    exact h.apply he.parent

/-- Every event of a run is orderly when it happens. -/
def OrderlyRun (root : ι) : Network ι → List (Event ι) → Prop
  | _,[] => True
  | n,e::events => n.Orderly e ∧ OrderlyRun root (n.step root e) events

theorem Single.run {n : Network ι} (h : n.Single) (hs : n.Sound) (root : ι)
    {events : List (Event ι)} (ho : OrderlyRun root n events) : (n.run root events).Single := by
  induction events generalizing n with
  | nil => exact h
  | cons e events ih => exact ih (h.step hs root ho.1) (hs.step root e) ho.2

end Network
end PeerConnect.PalmTree
