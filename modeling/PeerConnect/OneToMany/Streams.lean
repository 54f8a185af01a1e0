import PeerConnect.OneToMany.Reader

/-! A relay that forwards what it gets over streams that may be opened late, lag, break or be replaced: on
each of them it sends a part of what it has got, without a gap. -/
namespace PeerConnect.OneToMany
open Library Wire PalmTree

/-- A stream connection from the relay that has made it, with what this relay has sent on it, and whether
its handshake has been answered. When it was, `start` bytes had come to its source that are not sent on it
any more. -/
structure DataStream (ι : Type) where
  source : ι
  target : ι
  written : Bytes := []
  answered : Bool := false
  start : ℕ := 0

/-- The handshake is answered. -/
def DataStream.opened {ι : Type} (start : ℕ) (s : DataStream ι) : DataStream ι :=
  { s with answered := true, start := start }

/-- Bytes are sent on a stream, if there is one. -/
def write {ι : Type} (written : Option (ℕ × Bytes)) (streams : List (DataStream ι)) :
    List (DataStream ι) :=
  match written with
  | some (k,bytes) => streams.modify k fun s => { s with written := s.written ++ bytes }
  | none => streams

/-- A relay with the stream that each link of its own uses, the one it reads from, all it has got, be it
from that stream or from the sender of the files, and the chunk that is being forwarded with the links
that are still to be tried. -/
structure StreamingRelay (ι : Type) where
  relay : OTMFilesRelay ι
  connection : ι → Option ℕ := fun _ => none
  parentStream : Option ℕ := none
  got : Bytes := []
  forwarding : Option (Bytes × List ι) := none
  ended : Bool := false

namespace StreamingRelay
variable {ι : Type} [DecidableEq ι] (order : SetOrder ι)

/-- A relay that waits for its next chunk. -/
def idle (r : StreamingRelay ι) : Bool := r.forwarding.isNone && !r.ended

/-- What is still to be sent to a peer of the chunk that is being forwarded. -/
def owed (r : StreamingRelay ι) (p : ι) : Bytes :=
  match r.forwarding with
  | some (chunk,ps) => if p ∈ ps then chunk else []
  | none => []

/-- A chunk has come and is to be forwarded on the links of this moment. -/
def take (chunk : Bytes) (r : StreamingRelay ι) : StreamingRelay ι :=
  { r with
    got := r.got ++ chunk
    forwarding := some (chunk,order.toList r.relay.getForwardLinks) }

/-- A chunk has come which the receiver of the files does not take. -/
def refuse (chunk : Bytes) (r : StreamingRelay ι) : StreamingRelay ι :=
  { r with got := r.got ++ chunk, ended := true }

/-- The loop of `_forward_chunk` comes to its next link. What is sent on a link before it fails has been
sent. A link whose connection has been replaced has it sent back to where this has come from. -/
def forwardNext (count : ℕ) (outcome : SendOutcome) (r : StreamingRelay ι) :
    StreamingRelay ι × Option (ℕ × Bytes) :=
  match r.forwarding with
  | none => (r,none)
  | some (_,[]) => ({ r with forwarding := none },none)
  | some (chunk,p::ps) =>
    let r' := { r with forwarding := some (chunk,ps) }
    if (r.relay.link p).isLagging then (r',none)
    else
      match outcome with
      | .sent => (r',(r.connection p).map fun k => (k,chunk))
      | .failed e _ =>
        let written := (r.connection p).map fun k => (k,chunk.take count)
        if e = .timeoutError then ({ r' with relay := r.relay.setLagging p },written)
        else ({ r' with ended := true },written)

/-- The handshake of a stream to a peer has been answered. -/
def opened (p : ι) (k : ℕ) (r : StreamingRelay ι) : StreamingRelay ι :=
  { r with
    relay := { r.relay with link := Function.update r.relay.link p ⟨.online,.outgoing⟩ }
    connection := Function.update r.connection p (some k) }

/-- A connection of the peer has taken the place of that of the link. -/
def replaced (p : ι) (r : StreamingRelay ι) : StreamingRelay ι :=
  { r with
    relay := { r.relay with
      link := Function.update r.relay.link p { r.relay.link p with status := .online } }
    connection := Function.update r.connection p none }

/-- The parent link is the one to a peer, with that stream. -/
def resolved (p : ι) (k : ℕ) (r : StreamingRelay ι) : StreamingRelay ι :=
  { r with
    relay := { r.relay with
      link := Function.update r.relay.link p ⟨.online,.incoming⟩, readLink := some p }
    connection := Function.update r.connection p none
    parentStream := some k }

/-- A tree check has been sent to a peer, or an upgrade packet. -/
def admitted (p : ι) (r : StreamingRelay ι) : StreamingRelay ι :=
  { r with relay := { r.relay with activeLinks := insert p r.relay.activeLinks } }

/-- On each of its streams a relay has sent what it had got from some point on, up to some other. On a
stream that is in use it has sent all from this point on, but for what it is about to send. -/
structure Serves (n : ι) (r : StreamingRelay ι) (streams : List (DataStream ι)) : Prop where
  part : ∀ (k : ℕ) (s : DataStream ι), streams[k]? = some s → s.source = n →
    s.start ≤ r.got.length ∧ s.written <+: r.got.drop s.start
  unanswered : ∀ (k : ℕ) (s : DataStream ι), streams[k]? = some s → s.source = n → s.answered = false →
    s.written = [] ∧ s.target ∈ r.relay.activeLinks
  own : ∀ p k, r.connection p = some k →
    ∃ s : DataStream ι, streams[k]? = some s ∧ s.source = n ∧ s.target = p ∧ s.answered = true
  live : ∀ p k, r.connection p = some k → p ∈ r.relay.activeLinks ∧
    (r.relay.link p).status ≠ .offline ∧ (r.relay.link p).isOutgoing = true
  pending : ∀ chunk ps, r.forwarding = some (chunk,ps) →
    ps.Nodup ∧ chunk <:+ r.got ∧ ∀ p ∈ ps, r.relay.readLink ≠ some p
  due : r.ended = false → ∀ p (k : ℕ) (s : DataStream ι), r.connection p = some k → streams[k]? = some s →
    (r.relay.link p).isLagging = false → r.relay.readLink ≠ some p →
      r.got.drop s.start = s.written ++ r.owed p

variable {n : ι} {r : StreamingRelay ι} {streams streams' : List (DataStream ι)} {p : ι} {k : ℕ}
  {chunk : Bytes} {ps : List ι}

theorem forwardNext_keeps (count : ℕ) (outcome : SendOutcome) (r : StreamingRelay ι) :
    (r.forwardNext count outcome).1.got = r.got ∧
      (r.forwardNext count outcome).1.parentStream = r.parentStream := by
  unfold forwardNext
  dsimp only
  split
  · exact ⟨rfl,rfl⟩
  · exact ⟨rfl,rfl⟩
  · split
    · exact ⟨rfl,rfl⟩
    · split
      · exact ⟨rfl,rfl⟩
      · split <;> exact ⟨rfl,rfl⟩

theorem forwardNext_none (count : ℕ) (outcome : SendOutcome) (h : r.forwarding = none) :
    r.forwardNext count outcome = (r,none) := by
  rw [forwardNext, h]

/-- What is sent is sent on a stream that is in use. -/
theorem forwardNext_written {count : ℕ} {outcome : SendOutcome} {bytes : Bytes}
    (h : (r.forwardNext count outcome).2 = some (k,bytes)) : ∃ p, r.connection p = some k := by
  unfold forwardNext at h
  dsimp only at h
  split at h
  · cases h
  · cases h
  next p ps _ =>
    have hmap : ∀ bytes', (r.connection p).map (fun k => (k,bytes')) = some (k,bytes) →
        ∃ p, r.connection p = some k := by
      intro bytes' h
      obtain ⟨k',hk',heq⟩ := Option.map_eq_some_iff.mp h
      cases heq
      exact ⟨p,hk'⟩
    split at h
    · cases h
    · split at h
      · exact hmap _ h
      · split at h <;> exact hmap _ h

/-- What is sent on one of the streams. -/
def sentOn (written : Option (ℕ × Bytes)) (k : ℕ) : Bytes :=
  match written with
  | some (k',bytes) => if k' = k then bytes else []
  | none => []

omit [DecidableEq ι] in
theorem getElem?_write (written : Option (ℕ × Bytes)) (streams : List (DataStream ι)) (k : ℕ) :
    (write written streams)[k]? =
      streams[k]?.map fun s => { s with written := s.written ++ sentOn written k } := by
  cases written with
  | none => simp [write, sentOn]
  | some w =>
    simp only [write, List.getElem?_modify, sentOn]
    split <;> simp

omit [DecidableEq ι] in
theorem sentOn_map {bytes : Bytes} {connection : Option ℕ} :
    sentOn (connection.map fun k => (k,bytes)) k = if connection = some k then bytes else [] := by
  cases connection <;> simp [sentOn]

omit [DecidableEq ι] in
theorem modify_cases {f : DataStream ι → DataStream ι} {k k' : ℕ} {s s' : DataStream ι}
    (hs : streams[k]? = some s) (h : (streams.modify k f)[k']? = some s') :
    k' = k ∧ s' = f s ∨ k' ≠ k ∧ streams[k']? = some s' := by
  by_cases hk : k' = k
  · subst hk
    rw [List.getElem?_modify_eq, hs] at h
    cases h
    exact .inl ⟨rfl,rfl⟩
  · rw [List.getElem?_modify_ne _ _ (Ne.symm hk)] at h
    exact .inr ⟨hk,h⟩

omit [DecidableEq ι] in
/-- A change of one stream leaves those of other relays as they are. -/
theorem modify_others {f : DataStream ι → DataStream ι} {k : ℕ} {s : DataStream ι}
    (hs : streams[k]? = some s) (hf : (f s).source = s.source) {k' : ℕ} {s' : DataStream ι}
    (hne : s'.source ≠ s.source) : (streams.modify k f)[k']? = some s' ↔ streams[k']? = some s' := by
  constructor
  · intro h
    obtain ⟨-,rfl⟩ | ⟨-,hold⟩ := modify_cases hs h
    · exact absurd hf hne
    · exact hold
  · intro h
    rw [List.getElem?_modify_ne, h]
    rintro rfl
    cases hs.symm.trans h
    exact hne rfl

omit [DecidableEq ι] in
theorem concat_cases {x : DataStream ι} {k : ℕ} {s : DataStream ι} (h : (streams ++ [x])[k]? = some s) :
    streams[k]? = some s ∨ s = x := by
  by_cases hk : k < streams.length
  · rw [List.getElem?_append_left hk] at h
    exact .inl h
  · rw [List.getElem?_append_right (Nat.le_of_not_lt hk)] at h
    exact .inr (List.mem_singleton.mp (List.mem_of_getElem? h))

omit [DecidableEq ι] in
theorem concat_old {k : ℕ} {s : DataStream ι} (x : DataStream ι) (h : streams[k]? = some s) :
    (streams ++ [x])[k]? = some s := by
  rw [List.getElem?_append_left (List.getElem?_eq_some_iff.mp h).1, h]

omit [DecidableEq ι] in
theorem forwarding_of_idle (h : r.idle = true) : r.forwarding = none := by
  simp only [idle, Bool.and_eq_true, Option.isNone_iff_eq_none] at h
  exact h.1

omit [DecidableEq ι] in
theorem ended_of_idle (h : r.idle = true) : r.ended = false := by
  simp only [idle, Bool.and_eq_true, Bool.not_eq_true'] at h
  exact h.2

@[simp] theorem take_relay : (r.take order chunk).relay = r.relay := rfl

@[simp] theorem opened_connection :
    (r.opened p k).connection = Function.update r.connection p (some k) := rfl

@[simp] theorem opened_link :
    (r.opened p k).relay.link = Function.update r.relay.link p ⟨.online,.outgoing⟩ := rfl

@[simp] theorem replaced_connection :
    (r.replaced p).connection = Function.update r.connection p none := rfl

@[simp] theorem replaced_link : (r.replaced p).relay.link =
    Function.update r.relay.link p { r.relay.link p with status := .online } := rfl

@[simp] theorem resolved_connection :
    (r.resolved p k).connection = Function.update r.connection p none := rfl

@[simp] theorem resolved_link :
    (r.resolved p k).relay.link = Function.update r.relay.link p ⟨.online,.incoming⟩ := rfl

theorem owed_none (h : r.forwarding = none) : r.owed p = [] := by simp [owed, h]

theorem owed_some (h : r.forwarding = some (chunk,ps)) : r.owed p = if p ∈ ps then chunk else [] := by
  simp [owed, h]

namespace Serves

/-- Only the streams of the relay itself matter. -/
theorem congr (h : Serves n r streams)
    (hsame : ∀ (k : ℕ) (s : DataStream ι), s.source = n → (streams'[k]? = some s ↔ streams[k]? = some s)) :
    Serves n r streams' where
  part k s hs hn := h.part k s ((hsame k s hn).mp hs) hn
  unanswered k s hs hn := h.unanswered k s ((hsame k s hn).mp hs) hn
  own p k hk := by
    obtain ⟨s,hs,hn,hp⟩ := h.own p k hk
    exact ⟨s,(hsame k s hn).mpr hs,hn,hp⟩
  live := h.live
  pending := h.pending
  due hend p k s hk hs := by
    obtain ⟨s',hs',hn,-⟩ := h.own p k hk
    have heq := (hsame k s' hn).mpr hs'
    rw [hs] at heq
    cases heq
    exact h.due hend p k s hk hs'

theorem owed_suffix (h : Serves n r streams) (p : ι) : r.owed p <:+ r.got := by
  cases hf : r.forwarding with
  | none =>
    rw [owed_none hf]
    exact List.nil_suffix
  | some x =>
    obtain ⟨chunk,ps⟩ := x
    rw [owed_some hf]
    split
    · exact (h.pending chunk ps hf).2.1
    · exact List.nil_suffix

/-- A relay that stops does not owe anything any more. -/
theorem stopped (h : Serves n r streams) : Serves n { r with ended := true } streams where
  part := h.part
  unanswered := h.unanswered
  own := h.own
  live := h.live
  pending := h.pending
  due hend := by cases hend

theorem admitted (h : Serves n r streams) (q : ι) : Serves n (r.admitted q) streams where
  part := h.part
  unanswered k s hs hn ha :=
    ⟨(h.unanswered k s hs hn ha).1,Finset.mem_insert_of_mem (h.unanswered k s hs hn ha).2⟩
  own := h.own
  live p k hk := ⟨Finset.mem_insert_of_mem (h.live p k hk).1,(h.live p k hk).2⟩
  pending := h.pending
  due := h.due

/-- A chunk that comes to an idle relay is owed to all peers that it sends to. -/
theorem take (h : Serves n r streams) (hidle : r.idle = true) (chunk : Bytes) :
    Serves n (r.take order chunk) streams where
  part k s hs hn := by
    obtain ⟨hle,hpart⟩ := h.part k s hs hn
    refine ⟨hle.trans (by simp [StreamingRelay.take]),hpart.trans ?_⟩
    rw [StreamingRelay.take, List.drop_append_of_le_length hle]
    exact List.prefix_append _ _
  unanswered := h.unanswered
  own := h.own
  live := h.live
  pending chunk' ps hf := by
    cases hf
    refine ⟨order.nodup _,List.suffix_append _ _,fun p hp hread => ?_⟩
    have hread' : r.relay.readLink = some p := hread
    rw [order.mem_toList] at hp
    simp [OTMFilesRelay.getForwardLinks, hread'] at hp
  due hend p k s hk hs hlag hread := by
    rw [take_relay] at hlag hread
    have hf := forwarding_of_idle hidle
    obtain ⟨s',hs',hn,-⟩ := h.own p k hk
    cases hs.symm.trans hs'
    have hdue := h.due (ended_of_idle hidle) p k s hk hs hlag hread
    rw [owed_none hf, List.append_nil] at hdue
    obtain ⟨hactive,honline,hout⟩ := h.live p k hk
    have hmem : p ∈ r.relay.getForwardLinks := by
      have hon : (r.relay.link p).isOnline = true := by
        have hl : (r.relay.link p).status ≠ .lagging := by simpa [TreeLink.isLagging] using hlag
        cases hst : (r.relay.link p).status with
        | offline => exact absurd hst honline
        | online => simp [TreeLink.isOnline, hst]
        | lagging => exact absurd hst hl
      refine Finset.mem_filter.mpr ⟨Finset.mem_sdiff.mpr ⟨hactive,?_⟩,hon,hout⟩
      simpa [Option.mem_toFinset] using hread
    rw [owed_some (show (r.take order chunk).forwarding = some (chunk,_) from rfl),
      if_pos ((order.mem_toList _ p).mpr hmem), StreamingRelay.take,
      List.drop_append_of_le_length (h.part k s hs hn).1, hdue]

theorem refuse (h : Serves n r streams) (hidle : r.idle = true) (chunk : Bytes) :
    Serves n (r.refuse chunk) streams where
  part := (h.take SetOrder.arbitrary hidle chunk).part
  unanswered := h.unanswered
  own := h.own
  live := h.live
  pending chunk' ps hf := by
    rw [StreamingRelay.refuse, forwarding_of_idle hidle] at hf
    cases hf
  due hend := by cases hend

/-- Nothing has been sent on a new stream. -/
theorem connect (h : Serves n r streams) (hp : p ∈ r.relay.activeLinks) :
    Serves n r (streams ++ [{ source := n, target := p }]) where
  part k s hs hn := by
    obtain hold | rfl := concat_cases hs
    · exact h.part k s hold hn
    · exact ⟨Nat.zero_le _,List.nil_prefix⟩
  unanswered k s hs hn ha := by
    obtain hold | rfl := concat_cases hs
    · exact h.unanswered k s hold hn ha
    · exact ⟨rfl,hp⟩
  own p k hk := by
    obtain ⟨s,hs,hrest⟩ := h.own p k hk
    exact ⟨s,concat_old _ hs,hrest⟩
  live := h.live
  pending := h.pending
  due hend p k s hk hs hlag hread := by
    obtain ⟨s',hs',-⟩ := h.own p k hk
    cases hs.symm.trans (concat_old _ hs')
    exact h.due hend p k s hk hs' hlag hread

/-- A stream that is answered owes what is about to be sent to its peer, and all that comes later. -/
theorem opened (h : Serves n r streams) {s : DataStream ι} (hs : streams[k]? = some s) (hn : s.source = n)
    (ha : s.answered = false) :
    Serves n (r.opened s.target k)
      (streams.modify k (·.opened (r.got.length-(r.owed s.target).length))) := by
  obtain ⟨hw,hactive⟩ := h.unanswered k s hs hn ha
  have hne : ∀ p k', r.connection p = some k' → k' ≠ k := by
    intro p k' hk' heq
    obtain ⟨s',hs',-,-,ha'⟩ := h.own p k' hk'
    rw [heq, hs] at hs'
    cases hs'
    rw [ha] at ha'
    cases ha'
  constructor
  · intro k' s' hs' hn'
    obtain ⟨-,rfl⟩ | ⟨-,hold⟩ := modify_cases hs hs'
    · exact ⟨Nat.sub_le _ _,by rw [DataStream.opened, hw]; exact List.nil_prefix⟩
    · exact h.part k' s' hold hn'
  · intro k' s' hs' hn' ha'
    obtain ⟨-,rfl⟩ | ⟨-,hold⟩ := modify_cases hs hs'
    · cases ha'
    · exact h.unanswered k' s' hold hn' ha'
  · intro p k' hk'
    by_cases hp : p = s.target
    · subst hp
      rw [opened_connection, Function.update_self] at hk'
      cases hk'
      exact ⟨s.opened _,by rw [List.getElem?_modify_eq, hs]; rfl,hn,rfl,rfl⟩
    · rw [opened_connection, Function.update_of_ne hp] at hk'
      obtain ⟨s',hs',hrest⟩ := h.own p k' hk'
      exact ⟨s',by rwa [List.getElem?_modify_ne _ _ (hne p k' hk').symm],hrest⟩
  · intro p k' hk'
    by_cases hp : p = s.target
    · subst hp
      simp [StreamingRelay.opened, hactive, TreeLink.isOutgoing]
    · rw [opened_connection, Function.update_of_ne hp] at hk'
      rw [opened_link, Function.update_of_ne hp]
      exact h.live p k' hk'
  · exact h.pending
  · intro hend p k' s' hk' hs' hlag hread
    change r.got.drop s'.start = s'.written ++ r.owed p
    by_cases hp : p = s.target
    · subst hp
      rw [opened_connection, Function.update_self] at hk'
      cases hk'
      obtain ⟨-,rfl⟩ | ⟨hk,-⟩ := modify_cases hs hs'
      · simp only [DataStream.opened, hw, List.nil_append]
        exact (List.suffix_iff_eq_drop.mp (h.owed_suffix _)).symm
      · exact absurd rfl hk
    · rw [opened_connection, Function.update_of_ne hp] at hk'
      rw [opened_link, Function.update_of_ne hp] at hlag
      rw [List.getElem?_modify_ne _ _ (hne p k' hk').symm] at hs'
      exact h.due hend p k' s' hk' hs' hlag hread

theorem replaced (h : Serves n r streams) (q : ι) : Serves n (r.replaced q) streams := by
  have hq : ∀ {p k}, (r.replaced q).connection p = some k → p ≠ q ∧ r.connection p = some k := by
    intro p k hk
    by_cases hp : p = q
    · subst hp
      rw [replaced_connection, Function.update_self] at hk
      cases hk
    · rw [replaced_connection, Function.update_of_ne hp] at hk
      exact ⟨hp,hk⟩
  refine ⟨h.part,h.unanswered,fun p k hk => h.own p k (hq hk).2,fun p k hk => ?_,h.pending,?_⟩
  · obtain ⟨hp,hk⟩ := hq hk
    rw [replaced_link, Function.update_of_ne hp]
    exact h.live p k hk
  · intro hend p k s hk hs hlag hread
    obtain ⟨hp,hk⟩ := hq hk
    rw [replaced_link, Function.update_of_ne hp] at hlag
    exact h.due hend p k s hk hs hlag hread

/-- A relay that has not got anything has not sent anything when it gets its parent link. -/
theorem resolved (h : Serves n r streams) (hgot : r.got = []) (hf : r.forwarding = none) (q : ι)
    (k : ℕ) : Serves n (r.resolved q k) streams := by
  have hq : ∀ {p k'}, (r.resolved q k).connection p = some k' → p ≠ q ∧ r.connection p = some k' := by
    intro p k' hk'
    by_cases hp : p = q
    · subst hp
      rw [resolved_connection, Function.update_self] at hk'
      cases hk'
    · rw [resolved_connection, Function.update_of_ne hp] at hk'
      exact ⟨hp,hk'⟩
  have hpending : (r.resolved q k).forwarding = none := hf
  refine ⟨h.part,h.unanswered,fun p k' hk' => h.own p k' (hq hk').2,fun p k' hk' => ?_,?_,?_⟩
  · obtain ⟨hp,hk'⟩ := hq hk'
    rw [resolved_link, Function.update_of_ne hp]
    exact h.live p k' hk'
  · intro chunk ps hsome
    rw [hpending] at hsome
    cases hsome
  · intro hend p k' s hk' hs hlag hread
    obtain ⟨s',hs',hn,-⟩ := h.own p k' (hq hk').2
    cases hs.symm.trans hs'
    obtain ⟨-,hpart⟩ := h.part k' s hs hn
    rw [hgot, List.drop_nil] at hpart
    change r.got.drop s.start = _
    rw [owed_none hpending, hgot, List.drop_nil, List.prefix_nil.mp hpart, List.append_nil]

/-- What is sent on a link is a part of the chunk that is owed to its peer. The stream is in use behind that
only if it is all of the chunk. -/
theorem sent (h : Serves n r streams) (hend : r.ended = false) (hf : r.forwarding = some (chunk,p::ps))
    (hlag : (r.relay.link p).isLagging = false) {piece : Bytes} (hpiece : piece <+: chunk)
    {r' : StreamingRelay ι} (hgot : r'.got = r.got) (hf' : r'.forwarding = some (chunk,ps))
    (hconnection : r'.connection = r.connection)
    (hactive : r'.relay.activeLinks = r.relay.activeLinks)
    (hread : r'.relay.readLink = r.relay.readLink) (hlink : ∀ q ≠ p, r'.relay.link q = r.relay.link q)
    (hp : ((r.relay.link p).status ≠ .offline → (r'.relay.link p).status ≠ .offline) ∧
      (r'.relay.link p).isOutgoing = (r.relay.link p).isOutgoing)
    (hall : r'.ended = true ∨ (r'.relay.link p).isLagging = true ∨ piece = chunk) :
    Serves n r' (write ((r.connection p).map fun k => (k,piece)) streams) := by
  obtain ⟨hnodup,hsuffix,hnotread⟩ := h.pending _ _ hf
  obtain ⟨hp',hnodup⟩ := List.nodup_cons.mp hnodup
  have hout : ∀ {q k s}, q ≠ p → r.connection q = some k → streams[k]? = some s →
      sentOn ((r.connection p).map fun k => (k,piece)) k = [] := by
    intro q k s hq hk hs
    rw [sentOn_map, if_neg]
    intro hk'
    obtain ⟨s₁,hs₁,-,ht₁,-⟩ := h.own q k hk
    obtain ⟨s₂,hs₂,-,ht₂,-⟩ := h.own p k hk'
    cases hs₁.symm.trans hs₂
    exact hq (ht₁.symm.trans ht₂)
  have hdue : ∀ {k s}, r.connection p = some k → streams[k]? = some s →
      r.got.drop s.start = s.written ++ chunk := by
    intro k s hk hs
    rw [h.due hend p k s hk hs hlag (hnotread p List.mem_cons_self), owed_some hf,
      if_pos List.mem_cons_self]
  constructor
  · intro k s' hs' hn
    rw [getElem?_write, Option.map_eq_some_iff] at hs'
    obtain ⟨s,hs,rfl⟩ := hs'
    rw [hgot, sentOn_map]
    refine ⟨(h.part k s hs hn).1,?_⟩
    split
    next hk =>
      rw [hdue hk hs]
      exact (List.prefix_append_right_inj _).mpr hpiece
    next => simpa using (h.part k s hs hn).2
  · intro k s' hs' hn ha
    rw [getElem?_write, Option.map_eq_some_iff] at hs'
    obtain ⟨s,hs,rfl⟩ := hs'
    obtain ⟨hw,htarget⟩ := h.unanswered k s hs hn ha
    rw [hactive]
    refine ⟨?_,htarget⟩
    have hk : r.connection p ≠ some k := by
      intro hk
      obtain ⟨s',hs',-,-,ha'⟩ := h.own p k hk
      cases hs.symm.trans hs'
      exact absurd ha' (by simpa using ha)
    simp [sentOn_map, hk, hw]
  · intro q k hk
    rw [hconnection] at hk
    obtain ⟨s,hs,hrest⟩ := h.own q k hk
    exact ⟨{ s with written := s.written ++ sentOn _ k },by rw [getElem?_write, hs]; rfl,hrest⟩
  · intro q k hk
    rw [hconnection] at hk
    obtain ⟨hq,hstatus,houtgoing⟩ := h.live q k hk
    rw [hactive]
    by_cases hqp : q = p
    · subst hqp
      exact ⟨hq,hp.1 hstatus,hp.2.trans houtgoing⟩
    · rw [hlink q hqp]
      exact ⟨hq,hstatus,houtgoing⟩
  · intro chunk' ps' hsome
    rw [hf'] at hsome
    cases hsome
    rw [hgot, hread]
    exact ⟨hnodup,hsuffix,fun q hq => hnotread q (List.mem_cons_of_mem p hq)⟩
  · intro hend' q k s' hk hs' hlag' hread'
    rw [hconnection] at hk
    rw [getElem?_write, Option.map_eq_some_iff] at hs'
    obtain ⟨s,hs,rfl⟩ := hs'
    rw [hgot, owed_some hf']
    by_cases hq : q = p
    · subst hq
      -- the stream of this link is in use still, so that all has been sent
      obtain he | hl | rfl := hall
      · rw [hend'] at he
        cases he
      · rw [hlag'] at hl
        cases hl
      · rw [if_neg hp', List.append_nil, sentOn_map, if_pos hk]
        exact hdue hk hs
    · rw [hlink q hq] at hlag'
      rw [hread] at hread'
      have hold := h.due hend q k s hk hs hlag' hread'
      rw [owed_some hf] at hold
      rw [hout hq hk hs, List.append_nil]
      simpa [hq] using hold

/-- So does the loop of `_forward_chunk`, whatever becomes of its sends. -/
theorem forwardNext (h : Serves n r streams) (hend : r.ended = false) (count : ℕ) (outcome : SendOutcome) :
    Serves n (r.forwardNext count outcome).1 (write (r.forwardNext count outcome).2 streams) := by
  cases hf : r.forwarding with
  | none =>
    rw [StreamingRelay.forwardNext, hf]
    exact h
  | some x =>
  cases x with
  | mk chunk ps =>
  cases ps with
  | nil =>
    rw [StreamingRelay.forwardNext, hf]
    refine ⟨h.part,h.unanswered,h.own,h.live,fun _ _ hsome => ?_,fun hend p k s hk hs hlag hread => ?_⟩
    · cases hsome
    · have hold := h.due hend p k s hk hs hlag hread
      rwa [owed_some hf, if_neg List.not_mem_nil] at hold
  | cons p ps =>
  cases hlag : (r.relay.link p).isLagging with
  | true =>
    -- nothing is sent on a link that lags
    simp only [StreamingRelay.forwardNext, hf, hlag, if_true]
    obtain ⟨hnodup,hsuffix,hnotread⟩ := h.pending _ _ hf
    refine ⟨h.part,h.unanswered,h.own,h.live,fun _ _ hsome => ?_,fun hend q k s hk hs hlag' hread => ?_⟩
    · cases hsome
      exact ⟨(List.nodup_cons.mp hnodup).2,hsuffix,fun q hq => hnotread q (List.mem_cons_of_mem p hq)⟩
    · have hq : q ≠ p := by
        rintro rfl
        rw [hlag] at hlag'
        cases hlag'
      have hold := h.due hend q k s hk hs hlag' hread
      rw [owed_some hf] at hold
      have howed := owed_some (r := { r with forwarding := some (chunk,ps) }) (p := q) rfl
      rw [howed]
      simpa [hq] using hold
  | false =>
    simp only [StreamingRelay.forwardNext, hf, hlag, Bool.false_eq_true, if_false]
    cases outcome with
    | sent =>
      exact h.sent hend hf hlag (List.prefix_refl chunk) rfl rfl rfl rfl rfl (fun _ _ => rfl) ⟨id,rfl⟩
        (.inr (.inr rfl))
    | failed e he =>
      have hprefix := List.take_prefix count chunk
      dsimp only
      split
      · refine h.sent hend hf hlag hprefix rfl rfl rfl rfl rfl
          (fun q hq => Function.update_of_ne hq _ _) ⟨fun _ => ?_,?_⟩ (.inr (.inl ?_))
        · simp [OTMFilesRelay.setLagging]
        · simp [OTMFilesRelay.setLagging, TreeLink.isOutgoing]
        · simp [OTMFilesRelay.setLagging, TreeLink.isLagging]
      · exact h.sent hend hf hlag hprefix rfl rfl rfl rfl rfl (fun _ _ => rfl) ⟨id,rfl⟩ (.inl rfl)

end Serves
end StreamingRelay
end PeerConnect.OneToMany
