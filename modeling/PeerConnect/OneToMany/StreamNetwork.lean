import PeerConnect.OneToMany.Streams
import PeerConnect.Library.Run

/-! The relays of a transfer to many peers and the streams between them: what any of them gets is a part of
what the root has been handed, without a gap, however late its streams are, or whatever becomes of them. -/
namespace PeerConnect.OneToMany
open Library Wire PalmTree

structure StreamingNetwork (ι : Type) where
  node : ι → StreamingRelay ι
  streams : List (DataStream ι) := []

namespace StreamingNetwork

/-- What can happen next. An event that is not possible does nothing. -/
inductive Event (ι : Type)
  /-- a tree check or an upgrade packet is sent to a peer, whose link is active from then on -/
  | activate (n p : ι)
  /-- a relay connects a stream to a peer -/
  | connect (n p : ι)
  /-- the answer to the handshake of a stream arrives -/
  | answer (k : ℕ)
  /-- a connection of the peer takes the place of that of a link -/
  | replace (n p : ι)
  /-- the target of a stream takes its source for its parent -/
  | resolve (k : ℕ)
  /-- the sender of the files has a chunk forwarded -/
  | hand (chunk : Bytes)
  /-- a relay reads so much, which the receiver of the files takes or not -/
  | read (n : ι) (count : ℕ) (taken : Bool)
  /-- the loop of `_forward_chunk` comes to its next link -/
  | forward (n : ι) (count : ℕ) (outcome : SendOutcome)
  /-- what reads or sends the files is at its end, has lost its connection, or is cancelled -/
  | stop (n : ι)

variable {ι : Type} [DecidableEq ι] (order : SetOrder ι) (root : ι)

def setNode (n : ι) (r : StreamingRelay ι) (net : StreamingNetwork ι) : StreamingNetwork ι :=
  { net with node := Function.update net.node n r }

/-- What there is to be read on a stream, behind what has been got. -/
def unread (net : StreamingNetwork ι) (n : ι) (k : ℕ) : Bytes :=
  match net.streams[k]? with
  | some s => s.written.drop (net.node n).got.length
  | none => []

/-- The root's future has been resolved without a link, and the others take their first parent for good. A
stream that is connected to replace another one is not answered by the relay that gets it, so that whoever
has it in place of its parent stream has nothing to read any more, as if it were stopped. -/
def step (net : StreamingNetwork ι) : Event ι → StreamingNetwork ι
  | .activate n p => net.setNode n ((net.node n).admitted p)
  | .connect n p =>
    if p ∈ (net.node n).relay.activeLinks then { net with streams := net.streams ++ [{ source := n, target := p }] }
    else net
  | .answer k =>
    match net.streams[k]? with
    | some s =>
      if s.answered then net
      else
        let r := net.node s.source
        { net.setNode s.source (r.opened s.target k) with
          streams := net.streams.modify k (·.opened (r.got.length-(r.owed s.target).length)) }
    | none => net
  | .replace n p =>
    if ((net.node n).relay.link p).status = .offline then net
    else net.setNode n ((net.node n).replaced p)
  | .resolve k =>
    match net.streams[k]? with
    | some s =>
      if s.target ≠ root ∧ (net.node s.target).parentStream = none then
        net.setNode s.target ((net.node s.target).resolved s.source k)
      else net
    | none => net
  | .hand chunk =>
    if (net.node root).idle then net.setNode root ((net.node root).take order chunk) else net
  | .read n count taken =>
    match (net.node n).parentStream with
    | some k =>
      let chunk := (net.unread n k).take count
      if (net.node n).idle ∧ chunk ≠ [] then
        net.setNode n (if taken then (net.node n).take order chunk else (net.node n).refuse chunk)
      else net
    | none => net
  | .forward n count outcome =>
    if (net.node n).ended ∨ (net.node n).relay.forwardLimiter = 0 then net
    else
      let (r,written) := (net.node n).forwardNext count outcome
      { net.setNode n r with streams := write written net.streams }
  | .stop n => net.setNode n { net.node n with ended := true }

/-- The relays as they are made. -/
def start (fanout : ι → ℕ) : StreamingNetwork ι where
  node n := { relay := { fanout := fanout n, forwardLimiter := fanout n } }

/-- The relay has its place in a chain of parents up to the root, each of which had the stream to the next
one before it got anything. -/
inductive FromTheStart (net : StreamingNetwork ι) : ι → Prop
  | root : FromTheStart net root
  | child {m k s} : (net.node m).parentStream = some k → net.streams[k]? = some s → s.start = 0 →
      FromTheStart net s.source → FromTheStart net m

/-- What holds of all relays and streams. -/
structure Sound (net : StreamingNetwork ι) : Prop where
  serves : ∀ n, StreamingRelay.Serves n (net.node n) net.streams
  rootless : (net.node root).parentStream = none
  silent : ∀ n ≠ root, (net.node n).parentStream = none →
    (net.node n).got = [] ∧ (net.node n).forwarding = none
  reads : ∀ n k, (net.node n).parentStream = some k →
    ∃ s, net.streams[k]? = some s ∧ s.target = n ∧ (net.node n).got <+: s.written
  whole : ∀ n, (net.node n).got <:+: (net.node root).got

variable {order root} {net : StreamingNetwork ι}

variable {n m : ι} {r : StreamingRelay ι}

@[simp] theorem setNode_self : (net.setNode n r).node n = r := Function.update_self _ _ _

theorem setNode_of_ne (h : m ≠ n) : (net.setNode n r).node m = net.node m := Function.update_of_ne h _ _

/-- What a node keeps when one of them changes. -/
theorem setNode_keeps {α : Type} {f : StreamingRelay ι → α} (h : f r = f (net.node n)) (m : ι) :
    f ((net.setNode n r).node m) = f (net.node m) := by
  by_cases hm : m = n
  · subst hm
    rw [setNode_self, h]
  · rw [setNode_of_ne hm]

theorem sound_start (fanout : ι → ℕ) : Sound root (start fanout) where
  serves n := by
    refine ⟨?_,?_,?_,?_,?_,?_⟩ <;> simp [start]
  rootless := rfl
  silent _ _ _ := ⟨rfl,rfl⟩
  reads _ _ h := by cases h
  whole _ := List.infix_refl _

namespace Sound

/-- A step of one relay in which it gets nothing. The streams of the others are as they were. -/
theorem change (h : Sound root net) {streams : List (DataStream ι)}
    (hserves : StreamingRelay.Serves n r streams)
    (hothers : ∀ (k : ℕ) (s : DataStream ι), s.source ≠ n → (streams[k]? = some s ↔ net.streams[k]? = some s))
    (hgrow : ∀ (k : ℕ) (s : DataStream ι), net.streams[k]? = some s →
      ∃ s', streams[k]? = some s' ∧ s'.target = s.target ∧ s.written <+: s'.written)
    (hgot : r.got = (net.node n).got) (hparent : r.parentStream = (net.node n).parentStream)
    (hforwarding : (net.node n).forwarding = none → r.forwarding = none) :
    Sound root { net.setNode n r with streams := streams } := by
  have hgot' : ∀ m, ((net.setNode n r).node m).got = (net.node m).got := setNode_keeps hgot
  have hparent' : ∀ m, ((net.setNode n r).node m).parentStream = (net.node m).parentStream :=
    setNode_keeps hparent
  constructor
  · intro m
    change StreamingRelay.Serves m ((net.setNode n r).node m) streams
    by_cases hm : m = n
    · subst hm
      rwa [setNode_self]
    · rw [setNode_of_ne hm]
      exact (h.serves m).congr fun k s hs => hothers k s (hs ▸ hm)
  · exact (hparent' root).trans h.rootless
  · intro m hm hnone
    obtain ⟨hg,hf⟩ := h.silent m hm ((hparent' m).symm.trans hnone)
    refine ⟨(hgot' m).trans hg,?_⟩
    change ((net.setNode n r).node m).forwarding = none
    by_cases hmn : m = n
    · subst hmn
      rw [setNode_self, hforwarding hf]
    · rw [setNode_of_ne hmn, hf]
  · intro m k hk
    obtain ⟨s,hs,ht,hread⟩ := h.reads m k ((hparent' m).symm.trans hk)
    obtain ⟨s',hs',ht',hw⟩ := hgrow k s hs
    refine ⟨s',hs',ht'.trans ht,?_⟩
    change ((net.setNode n r).node m).got <+: s'.written
    rw [hgot']
    exact hread.trans hw
  · intro m
    change ((net.setNode n r).node m).got <:+: ((net.setNode n r).node root).got
    rw [hgot', hgot']
    exact h.whole m

/-- A step of one relay alone in which it gets nothing. -/
theorem setNode (h : Sound root net) (hserves : StreamingRelay.Serves n r net.streams)
    (hgot : r.got = (net.node n).got) (hparent : r.parentStream = (net.node n).parentStream)
    (hforwarding : r.forwarding = (net.node n).forwarding) : Sound root (net.setNode n r) :=
  h.change hserves (fun _ _ _ => Iff.rfl) (fun _ s hs => ⟨s,hs,rfl,List.prefix_refl _⟩) hgot hparent
    fun hf => hforwarding.trans hf

/-- A relay gets more from the stream that it reads from, or from the sender of the files. -/
theorem gets (h : Sound root net) {chunk : Bytes} (hserves : StreamingRelay.Serves n r net.streams)
    (hgot : r.got = (net.node n).got ++ chunk) (hparent : r.parentStream = (net.node n).parentStream)
    (hread : n = root ∨ ∃ k s, (net.node n).parentStream = some k ∧ net.streams[k]? = some s ∧
      s.target = n ∧ (net.node n).got ++ chunk <+: s.written) :
    Sound root (net.setNode n r) := by
  have hparent' : ∀ m, ((net.setNode n r).node m).parentStream = (net.node m).parentStream :=
    setNode_keeps hparent
  constructor
  · intro m
    by_cases hm : m = n
    · subst hm
      rwa [setNode_self]
    · rw [setNode_of_ne hm]
      exact h.serves m
  · rw [hparent', h.rootless]
  · intro m hm hnone
    rw [hparent'] at hnone
    by_cases hmn : m = n
    · subst hmn
      obtain hroot | ⟨k,s,hk,-⟩ := hread
      · exact absurd hroot hm
      · rw [hk] at hnone
        cases hnone
    · rw [setNode_of_ne hmn]
      exact h.silent m hm hnone
  · intro m k hk
    rw [hparent'] at hk
    by_cases hmn : m = n
    · subst hmn
      obtain rfl | ⟨k',s,hk',hs,ht,hw⟩ := hread
      · rw [h.rootless] at hk
        cases hk
      · rw [hk] at hk'
        cases hk'
        exact ⟨s,hs,ht,by rw [setNode_self, hgot]; exact hw⟩
    · rw [setNode_of_ne hmn]
      exact h.reads m k hk
  · intro m
    have hroot : (net.node root).got <+: ((net.setNode n r).node root).got := by
      by_cases hn : root = n
      · subst hn
        rw [setNode_self, hgot]
        exact List.prefix_append _ _
      · rw [setNode_of_ne hn]
    by_cases hmn : m = n
    · subst hmn
      obtain rfl | ⟨k,s,hk,hs,ht,hw⟩ := hread
      · exact List.infix_refl _
      · rw [setNode_self, hgot]
        have hpart := ((h.serves s.source).part k s hs rfl).2
        have hdrop := (List.drop_suffix s.start (net.node s.source).got).isInfix
        exact (((hw.trans hpart).isInfix.trans hdrop).trans (h.whole s.source)).trans hroot.isInfix
    · rw [setNode_of_ne hmn]
      exact (h.whole m).trans hroot.isInfix

/-- A relay finds its parent. -/
theorem resolve (h : Sound root net) {k : ℕ} {s : DataStream ι} (hs : net.streams[k]? = some s)
    (ht : s.target ≠ root) (hnone : (net.node s.target).parentStream = none) :
    Sound root (net.setNode s.target ((net.node s.target).resolved s.source k)) := by
  obtain ⟨hg,hf⟩ := h.silent _ ht hnone
  constructor
  · intro m
    by_cases hm : m = s.target
    · rw [hm, setNode_self]
      exact (h.serves _).resolved hg hf _ _
    · rw [setNode_of_ne hm]
      exact h.serves m
  · rw [setNode_of_ne (Ne.symm ht), h.rootless]
  · intro m hm hnone'
    by_cases hmt : m = s.target
    · rw [hmt, setNode_self] at hnone'
      cases hnone'
    · rw [setNode_of_ne hmt] at hnone' ⊢
      exact h.silent m hm hnone'
  · intro m k' hk'
    by_cases hmt : m = s.target
    · rw [hmt, setNode_self] at hk'
      cases hk'
      rw [hmt, setNode_self]
      exact ⟨s,hs,rfl,by rw [StreamingRelay.resolved, hg]; exact List.nil_prefix⟩
    · rw [setNode_of_ne hmt] at hk' ⊢
      exact h.reads m k' hk'
  · intro m
    rw [setNode_of_ne (Ne.symm ht)]
    by_cases hmt : m = s.target
    · rw [hmt, setNode_self, StreamingRelay.resolved, hg]
      exact List.nil_infix
    · rw [setNode_of_ne hmt]
      exact h.whole m

/-- A relay connects a stream. -/
theorem connect (h : Sound root net) {p : ι} (hp : p ∈ (net.node n).relay.activeLinks) :
    Sound root { net with streams := net.streams ++ [{ source := n, target := p }] } := by
  have hsame : net.setNode n (net.node n) = net := by
    rw [StreamingNetwork.setNode, Function.update_eq_self]
  have hchange := h.change ((h.serves n).connect hp) (fun k s hne => ⟨fun hs => ?_,StreamingRelay.concat_old _⟩)
    (fun k s hs => ⟨s,StreamingRelay.concat_old _ hs,rfl,List.prefix_refl _⟩) rfl rfl id
  · rwa [hsame] at hchange
  · obtain hold | rfl := StreamingRelay.concat_cases hs
    · exact hold
    · exact absurd rfl hne

/-- A step of one relay in which it changes one of its own streams. -/
theorem modify (h : Sound root net) {k : ℕ} {s : DataStream ι} {f : DataStream ι → DataStream ι}
    (hs : net.streams[k]? = some s) (hf : (f s).source = s.source ∧ (f s).target = s.target ∧
      s.written <+: (f s).written)
    (hserves : StreamingRelay.Serves s.source r (net.streams.modify k f))
    (hgot : r.got = (net.node s.source).got)
    (hparent : r.parentStream = (net.node s.source).parentStream)
    (hforwarding : (net.node s.source).forwarding = none → r.forwarding = none) :
    Sound root { net.setNode s.source r with streams := net.streams.modify k f } := by
  refine h.change hserves (fun k' s' hne => StreamingRelay.modify_others hs hf.1 hne) (fun k' s' hs' => ?_)
    hgot hparent hforwarding
  by_cases hk : k = k'
  · subst hk
    cases hs.symm.trans hs'
    exact ⟨f s,by rw [List.getElem?_modify_eq, hs]; rfl,hf.2⟩
  · exact ⟨s',by rw [List.getElem?_modify_ne _ _ hk, hs'],rfl,List.prefix_refl _⟩

theorem step (h : Sound root net) (e : Event ι) : Sound root (net.step order root e) := by
  cases e with
  | activate n p => exact h.setNode ((h.serves n).admitted p) rfl rfl rfl
  | connect n p =>
    simp only [StreamingNetwork.step]
    split
    next hp => exact h.connect hp
    next => exact h
  | answer k =>
    simp only [StreamingNetwork.step]
    split
    next s hs =>
      split
      · exact h
      next ha =>
        exact h.modify hs ⟨rfl,rfl,List.prefix_refl _⟩
          ((h.serves s.source).opened hs rfl (by simpa using ha)) rfl rfl id
    · exact h
  | replace n p =>
    simp only [StreamingNetwork.step]
    split
    · exact h
    · exact h.setNode ((h.serves n).replaced p) rfl rfl rfl
  | resolve k =>
    simp only [StreamingNetwork.step]
    split
    next s hs =>
      split
      next ht => exact h.resolve hs ht.1 ht.2
      next => exact h
    · exact h
  | hand chunk =>
    simp only [StreamingNetwork.step]
    split
    next hidle => exact h.gets ((h.serves root).take order hidle chunk) rfl rfl (.inl rfl)
    next => exact h
  | read n count taken =>
    simp only [StreamingNetwork.step]
    split
    next k hk =>
      split
      next hidle =>
        obtain ⟨s,hs,ht,hread⟩ := h.reads n k hk
        have hmore : (net.node n).got ++ (net.unread n k).take count <+: s.written := by
          obtain ⟨rest,hrest⟩ := hread
          have hunread : net.unread n k = rest := by
            simp only [unread, hs, ← hrest]
            exact List.drop_left
          rw [hunread, ← hrest]
          exact (List.prefix_append_right_inj _).mpr (List.take_prefix _ _)
        split
        · exact h.gets ((h.serves n).take order hidle.1 _) rfl rfl (.inr ⟨k,s,hk,hs,ht,hmore⟩)
        · exact h.gets ((h.serves n).refuse hidle.1 _) rfl rfl (.inr ⟨k,s,hk,hs,ht,hmore⟩)
      next => exact h
    · exact h
  | forward n count outcome =>
    simp only [StreamingNetwork.step]
    split
    · exact h
    next hnot =>
      have hend : (net.node n).ended = false := by
        cases he : (net.node n).ended with
        | false => rfl
        | true => exact absurd (.inl he) hnot
      obtain ⟨hgot,hparent⟩ := StreamingRelay.forwardNext_keeps count outcome (net.node n)
      have hserves := (h.serves n).forwardNext hend count outcome
      have hforwarding : (net.node n).forwarding = none →
          ((net.node n).forwardNext count outcome).1.forwarding = none := by
        intro hf
        rw [StreamingRelay.forwardNext_none count outcome hf]
        exact hf
      cases hw : ((net.node n).forwardNext count outcome).2 with
      | none =>
        rw [hw] at hserves
        exact h.change hserves (fun _ _ _ => Iff.rfl) (fun _ s hs => ⟨s,hs,rfl,List.prefix_refl _⟩) hgot
          hparent hforwarding
      | some w =>
        obtain ⟨p,hp⟩ := StreamingRelay.forwardNext_written hw
        obtain ⟨s,hs,rfl,-⟩ := (h.serves n).own p w.1 hp
        rw [hw] at hserves
        exact h.modify hs ⟨rfl,rfl,List.prefix_append _ _⟩ hserves hgot hparent hforwarding
  | stop n => exact h.setNode (h.serves n).stopped rfl rfl rfl

end Sound

theorem sound_run (fanout : ι → ℕ) (es : List (Event ι)) :
    Sound root (after (step order root) (start fanout) es) :=
  after_invariant (fun _ e h => h.step e) (sound_start fanout) es

/-- A relay with such a place has got the beginning of what the root has. -/
theorem FromTheStart.got_prefix (h : Sound root net) {m : ι} (hm : FromTheStart root net m) :
    (net.node m).got <+: (net.node root).got := by
  induction hm with
  | root => exact List.prefix_refl _
  | child hk hs hstart _ ih =>
    obtain ⟨s',hs',-,hread⟩ := h.reads _ _ hk
    cases hs.symm.trans hs'
    have hpart := ((h.serves _).part _ _ hs rfl).2
    rw [hstart, List.drop_zero] at hpart
    exact (hread.trans hpart).trans ih

/-- In every run a relay has got a part of what the root has been handed, without a gap: from the first byte
on if all streams up to the root have been there from the start, and else from where the one that it reads
from begins. A relay at rest has left out nothing on any stream that its links still use. -/
theorem relays_get_parts (order : SetOrder ι) (root : ι) (fanout : ι → ℕ) (es : List (Event ι)) (m : ι) :
    let net := after (step order root) (start fanout) es
    (net.node m).got <:+: (net.node root).got ∧
    (FromTheStart root net m → (net.node m).got <+: (net.node root).got) ∧
    (∀ k, (net.node m).parentStream = some k → ∃ s, net.streams[k]? = some s ∧ s.target = m ∧
      (net.node m).got <+: (net.node s.source).got.drop s.start) ∧
    ((net.node m).idle = true → ∀ p k, (net.node m).connection p = some k →
      ((net.node m).relay.link p).isLagging = false → (net.node m).relay.readLink ≠ some p →
      ∃ s, net.streams[k]? = some s ∧ s.source = m ∧ s.target = p ∧
        (net.node m).got.drop s.start = s.written) := by
  intro net
  have h : Sound root net := sound_run fanout es
  refine ⟨h.whole m,fun hm => hm.got_prefix h,fun k hk => ?_,fun hidle p k hk hlag hread => ?_⟩
  · obtain ⟨s,hs,ht,hgot⟩ := h.reads m k hk
    exact ⟨s,hs,ht,hgot.trans ((h.serves s.source).part k s hs rfl).2⟩
  · obtain ⟨s,hs,hn,ht,-⟩ := (h.serves m).own p k hk
    have hdue := (h.serves m).due (StreamingRelay.ended_of_idle hidle) p k s hk hs hlag hread
    rw [StreamingRelay.owed_none (StreamingRelay.forwarding_of_idle hidle), List.append_nil] at hdue
    exact ⟨s,hs,hn,ht,hdue⟩

/-- Two relays, the root first. -/
def rootFirst : SetOrder Bool where
  toList s := [false,true].filter (· ∈ s)
  nodup _ := List.Nodup.filter _ (by decide)
  mem_toList s b := by cases b <;> simp

/-- The stream to the other relay is answered when the first chunk has been forwarded. -/
def lateEvents : List (Event Bool) :=
  [.activate false true,.connect false true,.hand [1],.forward false 0 .sent,.answer 0,.resolve 0,
    .hand [2],.forward false 0 .sent,.forward false 0 .sent,.read true 5 true]

example : ((after (step rootFirst false) (start fun _ => 2) lateEvents).node true).got = [2] := by
  decide

end StreamingNetwork
end PeerConnect.OneToMany
