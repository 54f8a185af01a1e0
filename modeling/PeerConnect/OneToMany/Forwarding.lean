import PeerConnect.OneToMany.Reader

/-! Forwarding to many children. A child that is too slow is left out from then on and costs the others
nothing, but any other failure of one ends the forwarding to all. -/
namespace PeerConnect.OneToMany
open Library Wire PalmTree

namespace SendOutcome

/-- A failure that `_forward_chunk` does not catch. -/
def escapes : SendOutcome → Bool
  | sent => false
  | failed e _ => e ≠ .timeoutError

/-- The chunks that a link is tried with: all up to the first that fails. -/
def tried (outcome : ℕ → SendOutcome) : ℕ → List Bytes → List Bytes
  | _,[] => []
  | k,chunk::chunks => chunk::if outcome k = sent then tried outcome (k+1) chunks else []

/-- The chunks that are sent on a link: all before the first that fails. -/
def landed (outcome : ℕ → SendOutcome) : ℕ → List Bytes → List Bytes
  | _,[] => []
  | k,chunk::chunks => if outcome k = sent then chunk::landed outcome (k+1) chunks else []

/-- If one of the next `n` sends is the first that fails, it runs out of time. -/
def FailsOnlyByTimeout (outcome : ℕ → SendOutcome) (k n : ℕ) : Prop :=
  ∀ j < n, (∀ i < j, outcome (k+i) = sent) → (outcome (k+j)).escapes = false

theorem failsOnlyByTimeout_succ {outcome : ℕ → SendOutcome} {k n : ℕ} :
    FailsOnlyByTimeout outcome k (n+1) ↔ (outcome k).escapes = false ∧
      (outcome k = sent → FailsOnlyByTimeout outcome (k+1) n) := by
  constructor
  · intro h
    refine ⟨h 0 (by omega) nofun,fun hk j hj hsent => ?_⟩
    rw [show k+1+j = k+(j+1) by omega]
    refine h (j+1) (by omega) fun i hi => ?_
    cases i with
    | zero => exact hk
    | succ i =>
      rw [show k+(i+1) = k+1+i by omega]
      exact hsent i (by omega)
  · rintro ⟨hk,h⟩ j hj hsent
    cases j with
    | zero => exact hk
    | succ j =>
      rw [show k+(j+1) = k+1+j by omega]
      refine h (hsent 0 (by omega)) j (by omega) fun i hi => ?_
      rw [show k+1+i = k+(i+1) by omega]
      exact hsent (i+1) (by omega)

end SendOutcome

namespace OTMFilesRelay
open SendOutcome

variable {ι : Type} [DecidableEq ι] (order : SetOrder ι) (outcome : ι → ℕ → SendOutcome)

/-- What becomes of the next send on a link. -/
def next (r : OTMFilesRelay ι) (p : ι) : SendOutcome := outcome p (r.attempted p).length

/-- The relay once a chunk has been tried on some links and each has failed in time or not at all. -/
def afterSends (chunk : Bytes) (s : Finset ι) (r : OTMFilesRelay ι) : OTMFilesRelay ι :=
  { r with
    attempted := fun p => r.attempted p ++ if p ∈ s then [chunk] else []
    delivered := fun p => r.delivered p ++ if p ∈ s ∧ r.next outcome p = .sent then [chunk] else []
    link := fun p =>
      if p ∈ s ∧ r.next outcome p ≠ .sent then { r.link p with status := .lagging } else r.link p }

theorem afterSends_empty (chunk : Bytes) (r : OTMFilesRelay ι) :
    r.afterSends outcome chunk ∅ = r := by
  simp [afterSends]

/-- The sends of one link leave the others alone, so that they may be taken one by one. -/
theorem afterSends_insert (chunk : Bytes) {p : ι} {s : Finset ι} (hp : p ∉ s) (r : OTMFilesRelay ι) :
    (r.afterSends outcome chunk {p}).afterSends outcome chunk s = r.afterSends outcome chunk (insert p s) := by
  have hother : ∀ q ∈ s, q ≠ p := fun q hq h => hp (h ▸ hq)
  simp only [afterSends, next, OTMFilesRelay.mk.injEq, Relay.mk.injEq, and_true, true_and]
  refine ⟨funext fun q => ?_,funext fun q => ?_,funext fun q => ?_⟩ <;>
  · by_cases hq : q = p
    · subst hq
      simp [hp]
    · simp [hq]

/-- A send that succeeds, or runs out of time and makes its link lag. -/
theorem send_handled (chunk : Bytes) (p : ι) (r : OTMFilesRelay ι)
    (h : (r.next outcome p).escapes = false) :
    Coro.tryCatch (send outcome chunk p) (fun e =>
      if e = .timeoutError then Coro.modify (setLagging p) else Coro.raise e) r =
      .done () (r.afterSends outcome chunk {p}) := by
  have hnext : outcome p (r.attempted p).length = r.next outcome p := rfl
  cases ho : r.next outcome p with
  | sent =>
    have hlink : ∀ q, ¬ (q ∈ ({p} : Finset ι) ∧ r.next outcome q ≠ .sent) := by
      rintro q ⟨hq,hne⟩
      rw [Finset.mem_singleton.mp hq] at hne
      exact hne ho
    simp only [Coro.tryCatch_apply, send, hnext, ho, Run.handle_done, Run.done.injEq, true_and,
      afterSends, if_neg (hlink _), OTMFilesRelay.mk.injEq]
    refine ⟨funext fun q => ?_,funext fun q => ?_⟩ <;>
    · by_cases hq : q = p
      · subst hq
        simp [ho]
      · simp [hq]
  | failed e he =>
    have heq : e = .timeoutError := by
      rw [ho] at h
      simpa [escapes] using h
    simp only [Coro.tryCatch_apply, send, hnext, ho, Run.handle_raised, heq, if_true, Coro.modify_apply,
      setLagging, Run.done.injEq, true_and, afterSends, OTMFilesRelay.mk.injEq, Relay.mk.injEq, and_true]
    refine ⟨funext fun q => ?_,funext fun q => ?_,funext fun q => ?_⟩ <;>
    · by_cases hq : q = p
      · subst hq
        simp [ho]
      · simp [hq]

/-- A send that fails in another way is not caught. -/
theorem send_escapes (chunk : Bytes) (p : ι) (r : OTMFilesRelay ι)
    (h : (r.next outcome p).escapes = true) :
    ∃ e r', Coro.tryCatch (send outcome chunk p) (fun e =>
      if e = .timeoutError then Coro.modify (setLagging p) else Coro.raise e) r = .raised e r' := by
  have hnext : outcome p (r.attempted p).length = r.next outcome p := rfl
  cases ho : r.next outcome p with
  | sent =>
    rw [ho] at h
    cases h
  | failed e he =>
    have hne : e ≠ .timeoutError := by
      rw [ho] at h
      simpa [escapes] using h
    exact ⟨e,_,by simp only [Coro.tryCatch_apply, send, hnext, ho, Run.handle_raised, if_neg hne]; rfl⟩

theorem next_afterSends {chunk : Bytes} {s : Finset ι} {r : OTMFilesRelay ι} {p : ι} (hp : p ∉ s) :
    (r.afterSends outcome chunk s).next outcome p = r.next outcome p := by
  simp [next, afterSends, hp]

theorem link_afterSends {chunk : Bytes} {s : Finset ι} {r : OTMFilesRelay ι} {p : ι} (hp : p ∉ s) :
    (r.afterSends outcome chunk s).link p = r.link p := by
  simp [afterSends, hp]

theorem forwardTo_cons (chunk : Bytes) {p : ι} (ps : List ι) {r : OTMFilesRelay ι}
    (hp : (r.link p).isLagging = false) :
    forwardTo outcome chunk (p::ps) r =
      (Coro.tryCatch (send outcome chunk p) (fun e =>
        if e = .timeoutError then Coro.modify (setLagging p) else Coro.raise e) r).bind fun _ r' =>
        forwardTo outcome chunk ps r' := by
  simp only [forwardTo, Coro.bind_apply, Coro.get_apply, Run.bind_done, hp, Bool.false_eq_true, if_false]

/-- Every link gets the chunk if no failure ends the loop. -/
theorem forwardTo_eq (chunk : Bytes) {ps : List ι} (hnodup : ps.Nodup) {r : OTMFilesRelay ι}
    (hps : ∀ p ∈ ps, (r.link p).isLagging = false) (h : ∀ p ∈ ps, (r.next outcome p).escapes = false) :
    forwardTo outcome chunk ps r = .done () (r.afterSends outcome chunk ps.toFinset) := by
  induction ps generalizing r with
  | nil =>
    rw [List.toFinset_nil, afterSends_empty]
    rfl
  | cons p ps ih =>
    obtain ⟨hp,hnodup⟩ := List.nodup_cons.mp hnodup
    have hother : ∀ q ∈ ps, q ∉ ({p} : Finset ι) := fun q hq hqp =>
      hp (Finset.mem_singleton.mp hqp ▸ hq)
    rw [forwardTo_cons outcome chunk ps (hps p List.mem_cons_self),
      send_handled outcome chunk p r (h p List.mem_cons_self), Run.bind_done, ih hnodup, List.toFinset_cons,
      afterSends_insert outcome chunk (by simpa using hp)]
    · intro q hq
      rw [link_afterSends outcome (hother q hq)]
      exact hps q (List.mem_cons_of_mem p hq)
    · intro q hq
      rw [next_afterSends outcome (hother q hq)]
      exact h q (List.mem_cons_of_mem p hq)

/-- A failure that is not caught ends the loop, whatever the other links do. -/
theorem forwardTo_raised (chunk : Bytes) {ps : List ι} (hnodup : ps.Nodup) {r : OTMFilesRelay ι}
    (hps : ∀ p ∈ ps, (r.link p).isLagging = false) {p : ι} (hp : p ∈ ps)
    (h : (r.next outcome p).escapes = true) : ∃ e r', forwardTo outcome chunk ps r = .raised e r' := by
  induction ps generalizing r with
  | nil => cases hp
  | cons q ps ih =>
    obtain ⟨hq,hnodup⟩ := List.nodup_cons.mp hnodup
    have hother : ∀ x ∈ ps, x ∉ ({q} : Finset ι) := fun x hx hxq =>
      hq (Finset.mem_singleton.mp hxq ▸ hx)
    rw [forwardTo_cons outcome chunk ps (hps q List.mem_cons_self)]
    cases ho : (r.next outcome q).escapes with
    | true =>
      obtain ⟨e,r',hr⟩ := send_escapes outcome chunk q r ho
      exact ⟨e,r',by rw [hr, Run.bind_raised]⟩
    | false =>
      have hmem : p ∈ ps := by
        rcases List.mem_cons.mp hp with rfl | hmem
        · rw [h] at ho
          cases ho
        · exact hmem
      rw [send_handled outcome chunk q r ho, Run.bind_done]
      refine ih hnodup (fun x hx => ?_) hmem ?_
      · rw [link_afterSends outcome (hother x hx)]
        exact hps x (List.mem_cons_of_mem q hx)
      · rw [next_afterSends outcome (hother p hmem)]
        exact h

/-- The relay once a chunk has been forwarded. -/
def afterChunk (chunk : Bytes) (r : OTMFilesRelay ι) : OTMFilesRelay ι :=
  { r.afterSends outcome chunk r.getForwardLinks with forwarded := r.forwarded ++ [chunk] }

theorem isLagging_of_mem {r : OTMFilesRelay ι} {p : ι} (hp : p ∈ order.toList r.getForwardLinks) :
    (r.link p).isLagging = false := by
  rw [order.mem_toList, getForwardLinks, Finset.mem_filter] at hp
  have honline := hp.2.1
  simp only [TreeLink.isOnline, decide_eq_true_eq] at honline
  simp [TreeLink.isLagging, honline]

theorem forwardChunk_eq (chunk : Bytes) {r : OTMFilesRelay ι} (hl : r.forwardLimiter ≠ 0)
    (h : ∀ p ∈ r.getForwardLinks, (r.next outcome p).escapes = false) :
    forwardChunk order outcome chunk r = .done () (r.afterChunk outcome chunk) := by
  have hset : (order.toList r.getForwardLinks).toFinset = r.getForwardLinks := by
    ext p
    rw [List.mem_toFinset, order.mem_toList]
  rw [forwardChunk, if_neg hl, forwardTo_eq outcome chunk (order.nodup _)
    (fun p hp => isLagging_of_mem order hp) (fun p hp => h p ((order.mem_toList _ _).mp hp)), hset]
  rfl

theorem forwardChunk_raised (chunk : Bytes) {r : OTMFilesRelay ι} (hl : r.forwardLimiter ≠ 0) {p : ι}
    (hp : p ∈ r.getForwardLinks) (h : (r.next outcome p).escapes = true) :
    ∃ e r', forwardChunk order outcome chunk r = .raised e r' := by
  obtain ⟨e,r',hr⟩ := forwardTo_raised outcome chunk (order.nodup _)
    (fun p hp => isLagging_of_mem order hp) ((order.mem_toList _ _).mpr hp) h
  exact ⟨e,r',by rw [forwardChunk, if_neg hl, hr, Run.bind_raised]⟩

/-- A link is used again as long as it does not fail. -/
theorem mem_getForwardLinks_afterChunk {chunk : Bytes} {r : OTMFilesRelay ι} {p : ι} :
    p ∈ (r.afterChunk outcome chunk).getForwardLinks ↔
      p ∈ r.getForwardLinks ∧ r.next outcome p = .sent := by
  by_cases hp : p ∈ r.getForwardLinks
  · have hp' := Finset.mem_filter.mp hp
    rw [getForwardLinks, Finset.mem_filter]
    by_cases hs : r.next outcome p = .sent
    · have hlink : (r.afterChunk outcome chunk).link p = r.link p := by
        simp [afterChunk, afterSends, hs]
      rw [hlink]
      exact ⟨fun _ => ⟨hp,hs⟩,fun _ => hp'⟩
    · simp [afterChunk, afterSends, hp, hs, TreeLink.isOnline]
  · have hlink : (r.afterChunk outcome chunk).link p = r.link p := by
      simp [afterChunk, afterSends, hp]
    refine ⟨fun h => absurd ?_ hp,fun h => absurd h.1 hp⟩
    rw [getForwardLinks, Finset.mem_filter, hlink] at h
    exact Finset.mem_filter.mpr h

theorem attempted_afterChunk (chunk : Bytes) (r : OTMFilesRelay ι) (p : ι) :
    (r.afterChunk outcome chunk).attempted p =
      r.attempted p ++ if p ∈ r.getForwardLinks then [chunk] else [] := rfl

theorem delivered_afterChunk (chunk : Bytes) (r : OTMFilesRelay ι) (p : ι) :
    (r.afterChunk outcome chunk).delivered p =
      r.delivered p ++ if p ∈ r.getForwardLinks ∧ r.next outcome p = .sent then [chunk] else [] := rfl

/-- No link that is forwarded to fails within the next sends in a way that is not caught. -/
def Tolerated (r : OTMFilesRelay ι) (n : ℕ) : Prop :=
  ∀ p ∈ r.getForwardLinks, FailsOnlyByTimeout (outcome p) (r.attempted p).length n

variable {order outcome} in
theorem tolerated_succ (chunk : Bytes) {r : OTMFilesRelay ι} {n : ℕ} :
    Tolerated outcome r (n+1) ↔ (∀ p ∈ r.getForwardLinks, (r.next outcome p).escapes = false) ∧
      Tolerated outcome (r.afterChunk outcome chunk) n := by
  have hlength : ∀ p ∈ r.getForwardLinks,
      ((r.afterChunk outcome chunk).attempted p).length = (r.attempted p).length+1 := by
    intro p hp
    simp [attempted_afterChunk, hp]
  constructor
  · intro h
    refine ⟨fun p hp => (failsOnlyByTimeout_succ.mp (h p hp)).1,fun p hp => ?_⟩
    obtain ⟨hp,hsent⟩ := (mem_getForwardLinks_afterChunk outcome).mp hp
    rw [hlength p hp]
    exact (failsOnlyByTimeout_succ.mp (h p hp)).2 hsent
  · rintro ⟨hfirst,h⟩ p hp
    refine failsOnlyByTimeout_succ.mpr ⟨hfirst p hp,fun hsent => ?_⟩
    rw [← hlength p hp]
    exact h p ((mem_getForwardLinks_afterChunk outcome).mpr ⟨hp,hsent⟩)

/-- What the links have got of the chunks. -/
def Shared (chunks : List Bytes) (r r' : OTMFilesRelay ι) : Prop :=
  ∀ p, r'.attempted p = r.attempted p ++
      (if p ∈ r.getForwardLinks then tried (outcome p) (r.attempted p).length chunks else []) ∧
    r'.delivered p = r.delivered p ++
      if p ∈ r.getForwardLinks then landed (outcome p) (r.attempted p).length chunks else []

variable {order outcome} in
theorem Shared.cons {chunk : Bytes} {chunks : List Bytes} {r r' : OTMFilesRelay ι}
    (h : Shared outcome chunks (r.afterChunk outcome chunk) r') :
    Shared outcome (chunk::chunks) r r' := by
  intro p
  have hp' := h p
  rw [attempted_afterChunk, delivered_afterChunk] at hp'
  have hmem : p ∈ (r.afterChunk outcome chunk).getForwardLinks ↔
      p ∈ r.getForwardLinks ∧ r.next outcome p = .sent := mem_getForwardLinks_afterChunk outcome
  by_cases hp : p ∈ r.getForwardLinks
  · by_cases hs : r.next outcome p = .sent
    · have hs' : outcome p (r.attempted p).length = .sent := hs
      simpa [hp, hs, hmem, tried, landed, hs'] using hp'
    · have hs' : outcome p (r.attempted p).length ≠ .sent := hs
      simp only [hp, hs, hmem, tried, landed, hs', and_false, if_false, if_true, List.append_nil] at hp' ⊢
      exact hp'
  · simpa [hp, hmem] using hp'

/-- Without a failure that is not caught, each link gets the chunks up to where it fails itself. -/
theorem forwardChunks_shared {chunks : List Bytes} {r : OTMFilesRelay ι}
    (hl : chunks = [] ∨ r.forwardLimiter ≠ 0) (h : Tolerated outcome r chunks.length) :
    ∃ r', forwardChunks order outcome chunks r = .done () r' ∧ Shared outcome chunks r r' := by
  induction chunks generalizing r with
  | nil =>
    refine ⟨r,rfl,fun p => ?_⟩
    simp [tried, landed]
  | cons chunk chunks ih =>
    have hl := hl.resolve_left (List.cons_ne_nil _ _)
    obtain ⟨hfirst,hrest⟩ := (tolerated_succ chunk).mp h
    obtain ⟨r',hr,hs⟩ := ih (r := r.afterChunk outcome chunk) (.inr hl) hrest
    refine ⟨r',?_,hs.cons⟩
    rw [forwardChunks, Coro.bind_apply, forwardChunk_eq order outcome chunk hl hfirst, Run.bind_done, hr]

theorem tolerated_of_forwardChunks {chunks : List Bytes} {r r' : OTMFilesRelay ι}
    (h : forwardChunks order outcome chunks r = .done () r') :
    (chunks = [] ∨ r.forwardLimiter ≠ 0) ∧ Tolerated outcome r chunks.length := by
  induction chunks generalizing r with
  | nil => exact ⟨.inl rfl,fun p _ j hj => absurd hj (Nat.not_lt_zero j)⟩
  | cons chunk chunks ih =>
    obtain ⟨_,t,hr,h⟩ := Run.bind_eq_done h
    have hl : r.forwardLimiter ≠ 0 := by
      intro hzero
      rw [forwardChunk, if_pos hzero] at hr
      cases hr
    have hfirst : ∀ p ∈ r.getForwardLinks, (r.next outcome p).escapes = false := by
      intro p hp
      by_contra he
      obtain ⟨e,s,hraised⟩ := forwardChunk_raised order outcome chunk hl hp (by simpa using he)
      rw [hraised] at hr
      cases hr
    rw [forwardChunk_eq order outcome chunk hl hfirst] at hr
    cases hr
    exact ⟨.inr hl,(tolerated_succ chunk).mpr ⟨hfirst,(ih h).2⟩⟩

/-- Nor does it end the reader. -/
theorem startReader_ne_raised (receive : ℕ → Bytes → Except Exn Unit) (totalBytesLen : ℕ)
    (hreceive : ∀ k chunk, receive k chunk = .ok ()) {chunks : List Bytes} {r : OTMFilesRelay ι}
    (hne : ∀ chunk ∈ chunks, chunk ≠ []) (hin : r.incoming = chunks.map .ok)
    (hl : chunks = [] ∨ r.forwardLimiter ≠ 0) (h : Tolerated outcome r chunks.length)
    (e : Exn) (r' : OTMFilesRelay ι) :
    startReader order outcome receive totalBytesLen r ≠ .raised e r' := by
  induction chunks generalizing r with
  | nil =>
    rw [startReader_nil order outcome receive totalBytesLen hin]
    nofun
  | cons chunk chunks ih =>
    have hl := hl.resolve_left (List.cons_ne_nil _ _)
    -- what is received and counted does not matter to the links
    have h' : Tolerated outcome (r.withReceived chunk (chunks.map .ok)) (chunks.length+1) := h
    obtain ⟨hfirst,hrest⟩ := (tolerated_succ chunk).mp h'
    rw [startReader_eq, readRound_chunk order outcome receive totalBytesLen hin
      (hne chunk List.mem_cons_self) (hreceive _ _),
      forwardChunk_eq order outcome chunk (r := r.withReceived chunk (chunks.map .ok)) hl hfirst,
      Run.bind_done]
    split
    · nofun
    · exact ih (r := countChunk _) (fun c hc => hne c (List.mem_cons_of_mem _ hc)) rfl (.inr hl) hrest

/-- One bad child does not starve the others: each link is tried with every chunk up to the first that
it fails on and gets the chunks before it, the forwarding returns, and a reader that gets these chunks
goes on. -/
structure Unstarved (chunks : List Bytes) (r : OTMFilesRelay ι) : Prop where
  returns : ∃ r', forwardChunks order outcome chunks r = .done () r' ∧ Shared outcome chunks r r'
  goesOn : ∀ (receive : ℕ → Bytes → Except Exn Unit) (totalBytesLen : ℕ),
    (∀ k chunk, receive k chunk = .ok ()) → (∀ chunk ∈ chunks, chunk ≠ []) →
    ∀ e r', startReader order outcome receive totalBytesLen { r with incoming := chunks.map .ok } ≠
      .raised e r'

/-- Bad children are put up with if the limiter lets the forwarding begin and no link fails but by
running out of time. -/
theorem unstarved_iff_tolerated (chunks : List Bytes) (r : OTMFilesRelay ι) :
    Unstarved order outcome chunks r ↔
      (chunks = [] ∨ r.forwardLimiter ≠ 0) ∧ ∀ p ∈ r.getForwardLinks,
        FailsOnlyByTimeout (outcome p) (r.attempted p).length chunks.length := by
  constructor
  · rintro ⟨⟨r',hr,_⟩,_⟩
    exact tolerated_of_forwardChunks order outcome hr
  · rintro ⟨hl,h⟩
    exact ⟨forwardChunks_shared order outcome hl h,fun receive totalBytesLen hreceive hne =>
      startReader_ne_raised order outcome receive totalBytesLen hreceive hne rfl hl h⟩

/-- A relay with two children. -/
def twoChildren : OTMFilesRelay ℕ where
  fanout := 2
  forwardLimiter := 2
  activeLinks := {1,2}
  link := fun _ => ⟨.online,.outgoing⟩

/-- The connection to one child is reset, and the other does not get what is sent to both. -/
theorem starved_by_reset :
    ¬ Unstarved SetOrder.byNumber (fun p _ => if p = 1 then .failed .connectionReset rfl else .sent) [[7]]
      twoChildren := by
  rintro ⟨⟨r',hr,_⟩,_⟩
  obtain ⟨e,s,hraised⟩ := forwardChunk_raised SetOrder.byNumber
    (fun p _ => if p = 1 then .failed .connectionReset rfl else .sent) [7] (r := twoChildren) (p := 1)
    (by decide) (by decide) rfl
  rw [forwardChunks, Coro.bind_apply, hraised] at hr
  cases hr

end OTMFilesRelay
end PeerConnect.OneToMany
