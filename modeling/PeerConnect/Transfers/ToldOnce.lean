import PeerConnect.Transfers.Rumor

/-! No peer is told a rumor twice. -/
namespace PeerConnect.Transfers
open Library Wire

namespace RumorMongerProtocol

variable {μ ι π : Type} [DecidableEq ι] [DecidableEq π]
variable {rumor : Rumor μ ι} {env : Surroundings π} {message : μ} {s : RumorMongerProtocol μ ι π}

omit [DecidableEq ι] in
/-- However the forwarding ends, the message has been sent to the first of the peers, in order. -/
theorem forwardAll_state (rumor : Rumor μ ι) (env : Surroundings π) (message : μ)
    (sampledPeers : List π) (s : RumorMongerProtocol μ ι π) :
    ∃ part, part <+: sampledPeers ∧ (forwardAll rumor env message sampledPeers s).state =
      { s with sent := s.sent ++ part.map fun peerId => (message,peerId) } := by
  induction sampledPeers generalizing s with
  | nil => exact ⟨[],List.nil_prefix,by simp [forwardAll]⟩
  | cons peerId sampledPeers ih =>
    by_cases hp : peerId ∈ env.peerIds
    · cases hb : rumor.toBytes message with
      | error e => exact ⟨[],List.nil_prefix,by simp [forwardAll, forwardPayload, hp, hb]⟩
      | ok bs =>
        obtain ⟨part,hpre,hs⟩ := ih { s with sent := s.sent ++ [(message,peerId)] }
        refine ⟨peerId::part,List.cons_prefix_cons.mpr ⟨rfl,hpre⟩,?_⟩
        simpa [forwardAll, forwardPayload, hp, hb] using hs
    · exact ⟨[],List.nil_prefix,by simp [forwardAll, forwardPayload, hp]⟩

/-- Forwarding changes nothing, or it enters the sampled peers into the item of the message and sends
it to the first of them. -/
theorem gossipForward_cases (rumor : Rumor μ ι) (env : Surroundings π) (message : μ)
    (s : RumorMongerProtocol μ ι π) :
    (gossipForward rumor env message s).state = s ∨
    ∃ k item part, rumor.id message = .ok k ∧ s.messageList.lookup k = some item ∧
      part <+: sampled env item ∧
      (gossipForward rumor env message s).state = { s.enter k item (sampled env item) with
        sent := s.sent ++ part.map fun peerId => (message,peerId) } := by
  cases hid : rumor.id message with
  | error e => exact .inl (by simp [gossipForward, hid])
  | ok k =>
    cases hl : s.messageList.lookup k with
    | none => exact .inl (by simp [gossipForward, hid, samplePeers, hl])
    | some item =>
      right
      obtain ⟨part,hpre,hs⟩ := forwardAll_state rumor env message (sampled env item)
        (s.enter k item (sampled env item))
      exact ⟨k,item,part,rfl,hl,hpre,by rw [gossipForward_of_lookup hid hl, hs]; rfl⟩

omit [DecidableEq ι] in
/-- Nobody is sampled twice, or again. -/
theorem sampled_nodup (env : Surroundings π) (item : RumorMessageItem ι π) :
    (sampled env item).Nodup := Reservoir.sample_nodup (env.nodup.filter _)

omit [DecidableEq ι] in
theorem not_mem_of_sampled {env : Surroundings π} {item : RumorMessageItem ι π} {peerId : π}
    (h : peerId ∈ sampled env item) : peerId ∉ item.peerList := by
  simpa using (List.mem_filter.mp (Reservoir.mem_of_mem_sample h)).2

/-- The protocol remembers having told the peer: the message is in the list with this peer, or it has
been dropped. -/
def Remembered (s : RumorMongerProtocol μ ι π) (k : ι) (peerId : π) : Prop :=
  k ∈ s.dropped ∨ ∃ item, s.messageList.lookup k = some item ∧ peerId ∈ item.peerList

/-- What holds of the protocol when the messages it has met have the given ids. -/
structure Consistent (rumor : Rumor μ ι) (s : RumorMongerProtocol μ ι π) (ids : Set ι) : Prop where
  once : (s.sent.map fun x => (rumor.id x.1,x.2)).Nodup
  remembered : ∀ x ∈ s.sent, ∃ k, rumor.id x.1 = .ok k ∧ s.Remembered k x.2
  met : ∀ k, k ∈ s.messageList ∨ k ∈ s.dropped → k ∈ ids

omit [DecidableEq π] in
theorem shouldRumor_state (rumor : Rumor μ ι) (env : Surroundings π) (message : μ)
    (s : RumorMongerProtocol μ ι π) : (shouldRumor rumor env message s).state = s := by
  cases hid : rumor.id message with
  | error e => simp [shouldRumor, hid]
  | ok k =>
    by_cases hd : k ∈ s.dropped
    · simp [shouldRumor, hid, hd]
    · cases he : DefaultRumorPolicy.elapsedTime env.time (rumor.created message) <;>
        simp [shouldRumor, hid, hd, he]

omit [DecidableEq π] in
/-- What the policy allows has an id, which has not been dropped. -/
theorem shouldRumor_true {t : RumorMongerProtocol μ ι π}
    (h : shouldRumor rumor env message s = .done true t) :
    ∃ k, rumor.id message = .ok k ∧ k ∉ s.dropped := by
  cases hid : rumor.id message with
  | error e => simp [shouldRumor, hid] at h
  | ok k =>
    refine ⟨k,rfl,fun hd => ?_⟩
    simp [shouldRumor, hid, hd] at h

/-- A message that arrives changes nothing, or it has not been dropped and is forwarded or gossiped. -/
theorem messageArrived_cases (rumor : Rumor μ ι) (env : Surroundings π) (message : μ)
    (s : RumorMongerProtocol μ ι π) :
    (messageArrived rumor env message s).state = s ∨
    ∃ k, rumor.id message = .ok k ∧ k ∉ s.dropped ∧
      (messageArrived rumor env message s).state =
        (if k ∈ s.messageList then gossipForward rumor env message s
          else gossipMessage rumor env message s).state := by
  by_cases hf : rumor.fieldsCheck message = true
  · have hsame := shouldRumor_state rumor env message s
    cases hr : shouldRumor rumor env message s with
    | raised e t => exact .inl (by simpa [messageArrived, hf, hr] using hsame)
    | blocked t => exact .inl (by simpa [messageArrived, hf, hr] using hsame)
    | done allowed t =>
      rw [hr, Run.state_done] at hsame
      subst hsame
      cases allowed with
      | false => exact .inl (by simp [messageArrived, hf, hr])
      | true =>
        obtain ⟨k,hid,hd⟩ := shouldRumor_true hr
        refine .inr ⟨k,hid,hd,?_⟩
        rw [messageArrived_allowed hf hr hid, Coro.state_bind fun _ t' => Coro.state_ofExcept _ t',
          Coro.ite_apply]
  · exact .inl (by simp [messageArrived, hf])

namespace Consistent

omit [DecidableEq π] in
theorem init (ids : Set ι) : Consistent rumor ({} : RumorMongerProtocol μ ι π) ids where
  once := List.nodup_nil
  remembered := fun x hx => nomatch hx
  met := by
    rintro k (hk | hk)
    · exact absurd hk (AList.notMem_empty k)
    · exact absurd hk (Finset.notMem_empty k)

omit [DecidableEq π] in
theorem mono {ids ids' : Set ι} (h : Consistent rumor s ids) (hsub : ids ⊆ ids') :
    Consistent rumor s ids' :=
  ⟨h.once,h.remembered,fun k hk => hsub (h.met k hk)⟩

/-- Forwarding a message that has not been dropped tells it to new peers only. -/
theorem gossipForward {ids : Set ι} (h : Consistent rumor s ids) (env : Surroundings π)
    (hd : ∀ k, rumor.id message = .ok k → k ∉ s.dropped) :
    Consistent rumor (gossipForward rumor env message s).state ids := by
  rcases gossipForward_cases rumor env message s with
    hs | ⟨k,item,part,hid,hl,hpre,hs⟩
  · rw [hs]; exact h
  · rw [hs]
    have hpart : part.Nodup := (sampled_nodup env item).sublist hpre.sublist
    refine ⟨?_,?_,?_⟩
    · rw [List.map_append, List.nodup_append]
      refine ⟨h.once,?_,?_⟩
      · rw [List.map_map]
        exact hpart.map fun p q hpq => (Prod.mk.inj hpq).2
      · intro before hbefore now hnow heq
        obtain ⟨x,hxs,rfl⟩ := List.mem_map.mp hbefore
        obtain ⟨y,hy,rfl⟩ := List.mem_map.mp hnow
        obtain ⟨peerId,hp,rfl⟩ := List.mem_map.mp hy
        obtain ⟨hxid,hxp⟩ := Prod.mk.inj heq
        obtain ⟨k',hk',hrem⟩ := h.remembered x hxs
        have hkk : k' = k := by
          rw [hk', hid] at hxid
          exact Except.ok.inj hxid
        subst hkk
        rcases hrem with hdrop | ⟨item',hl',hp'⟩
        · exact hd k' hid hdrop
        · rw [hl] at hl'
          cases hl'
          rw [hxp] at hp'
          exact not_mem_of_sampled (hpre.subset hp) hp'
    · intro x hx
      rcases List.mem_append.mp hx with hx | hx
      · obtain ⟨k',hk',hrem⟩ := h.remembered x hx
        refine ⟨k',hk',?_⟩
        rcases hrem with hdrop | ⟨item',hl',hp'⟩
        · exact .inl hdrop
        · right
          by_cases hkk : k' = k
          · subst hkk
            rw [hl] at hl'
            cases hl'
            exact ⟨_,AList.lookup_insert _,Finset.mem_union_left _ hp'⟩
          · exact ⟨item',(AList.lookup_insert_ne hkk).trans hl',hp'⟩
      · obtain ⟨peerId,hp,rfl⟩ := List.mem_map.mp hx
        exact ⟨k,hid,.inr ⟨_,AList.lookup_insert _,
          Finset.mem_union_right _ (List.mem_toFinset.mpr (hpre.subset hp))⟩⟩
    · rintro k' (hk | hk)
      · rcases (AList.mem_insert _).mp hk with rfl | hk
        · exact h.met k' (.inl (mem_of_lookup hl))
        · exact h.met k' (.inl hk)
      · exact h.met k' (.inr hk)

omit [DecidableEq π] in
/-- A message that is neither in the list nor dropped has not been told to anybody, and can be
entered with no peers. -/
theorem insert {ids : Set ι} (h : Consistent rumor s ids) {k : ι} (hl : k ∉ s.messageList)
    (hd : k ∉ s.dropped) (item : RumorMessageItem ι π) :
    Consistent rumor { s with messageList := s.messageList.insert k item } (insert k ids) := by
  refine ⟨h.once,?_,?_⟩
  · intro x hx
    obtain ⟨k',hk',hrem⟩ := h.remembered x hx
    refine ⟨k',hk',?_⟩
    rcases hrem with hdrop | ⟨item',hl',hp'⟩
    · exact .inl hdrop
    · have hkk : k' ≠ k := by
        rintro rfl
        exact hl (mem_of_lookup hl')
      exact .inr ⟨item',by rw [AList.lookup_insert_ne hkk, hl'],hp'⟩
  · rintro k' (hk | hk)
    · rcases (AList.mem_insert _).mp hk with rfl | hk
      · exact Set.mem_insert _ _
      · exact Set.mem_insert_of_mem _ (h.met k' (.inl hk))
    · exact Set.mem_insert_of_mem _ (h.met k' (.inr hk))

omit [DecidableEq π] in
/-- Dropping a message of the list forgets no peer. -/
theorem drop {ids : Set ι} (h : Consistent rumor s ids) {k : ι} (hk : k ∈ ids) :
    Consistent rumor (s.drop k) ids := by
  refine ⟨h.once,?_,?_⟩
  · intro x hx
    obtain ⟨k',hk',hrem⟩ := h.remembered x hx
    refine ⟨k',hk',?_⟩
    by_cases hkk : k' = k
    · exact .inl (by rw [hkk]; exact Finset.mem_insert_self _ _)
    · rcases hrem with hdrop | ⟨item,hl,hp⟩
      · exact .inl (Finset.mem_insert_of_mem hdrop)
      · exact .inr ⟨item,by rw [RumorMongerProtocol.drop, AList.lookup_erase_ne hkk, hl],hp⟩
  · rintro k' (hk' | hk')
    · exact h.met k' (.inl (AList.mem_erase.mp hk').2)
    · rcases Finset.mem_insert.mp hk' with rfl | hk'
      · exact hk
      · exact h.met k' (.inr hk')

omit [DecidableEq π] in
theorem disseminate {ids : Set ι} (h : Consistent rumor s ids) (currentTime : ℚ) :
    Consistent rumor (s.disseminate currentTime) ids := by
  unfold RumorMongerProtocol.disseminate
  generalize s.messageList.keys = messageIds
  induction messageIds generalizing s with
  | nil => exact h
  | cons messageId messageIds ih =>
    refine ih ?_
    unfold dropIfOld
    split
    next item hl =>
      split
      · exact h.drop (h.met messageId (.inl (mem_of_lookup hl)))
      · exact h
    · exact h

omit [DecidableEq π] in
theorem removeMessage {ids : Set ι} (h : Consistent rumor s ids) (messageId : ι) :
    Consistent rumor (removeMessage messageId s).state ids := by
  by_cases hm : messageId ∈ s.messageList
  · have hs : (RumorMongerProtocol.removeMessage messageId s).state = s.drop messageId := by
      simp [RumorMongerProtocol.removeMessage, hm]
    rw [hs]
    exact h.drop (h.met messageId (.inl hm))
  · have hs : (RumorMongerProtocol.removeMessage messageId s).state = s := by
      simp [RumorMongerProtocol.removeMessage, hm]
    rwa [hs]

/-- A new message is entered and told to its first peers. -/
theorem gossipMessage {ids : Set ι} (h : Consistent rumor s ids)
    (hnew : ∀ k, rumor.id message = .ok k → k ∉ s.messageList ∧ k ∉ s.dropped) :
    Consistent rumor (gossipMessage rumor env message s).state
      (ids ∪ { k | rumor.id message = .ok k }) := by
  have hsame := h.mono (Set.subset_union_left (t := { k | rumor.id message = .ok k }))
  cases hr : rumor.repr message with
  | error e => simpa [RumorMongerProtocol.gossipMessage, hr] using hsame
  | ok _ =>
    cases hid : rumor.id message with
    | error e => simpa [RumorMongerProtocol.gossipMessage, hr, push, hid] using hsame
    | ok k =>
      obtain ⟨hl,hd⟩ := hnew k hid
      have hins := (h.insert hl hd ⟨k,env.monotonic,rumor.created message,∅⟩).gossipForward env
        fun k' hk' => (hnew k' hk').2
      rw [gossipMessage_of_id hr hid]
      refine hins.mono ?_
      rw [Set.insert_subset_iff]
      exact ⟨.inr rfl,Set.subset_union_left⟩

/-- A message that arrives is told to new peers, if it is told at all. -/
theorem messageArrived {ids : Set ι} (h : Consistent rumor s ids) :
    Consistent rumor (messageArrived rumor env message s).state
      (ids ∪ { k | rumor.id message = .ok k }) := by
  rcases messageArrived_cases rumor env message s with hs | ⟨k,hid,hd,hs⟩
  · rw [hs]
    exact h.mono Set.subset_union_left
  · have hkey : ∀ k', rumor.id message = .ok k' → k' = k := by
      intro k' hk'
      rw [hid] at hk'
      exact (Except.ok.inj hk').symm
    rw [hs]
    split
    · exact (h.gossipForward env fun k' hk' => hkey k' hk' ▸ hd).mono Set.subset_union_left
    next hl => exact h.gossipMessage fun k' hk' => hkey k' hk' ▸ ⟨hl,hd⟩

end Consistent

/-- The key of the id of the message that an event is about. -/
def Event.id? (rumor : Rumor μ ι) : Event μ ι π → Option ι
  | .gossipMessage message _ | .messageArrived message _ => (rumor.id message).toOption
  | .disseminate _ | .removeMessage _ => none

/-- The ids that some events are about. -/
def met (rumor : Rumor μ ι) (es : List (Event μ ι π)) : Set ι := { k | ∃ e ∈ es, e.id? rumor = some k }

/-- Every message that originates here has an id that no earlier event was about. -/
def Fresh (rumor : Rumor μ ι) (es : List (Event μ ι π)) : Prop :=
  ∀ before message env after, es = before ++ .gossipMessage message env::after →
    ∀ k, rumor.id message = .ok k → k ∉ met rumor before

omit [DecidableEq ι] [DecidableEq π] in
theorem met_concat (rumor : Rumor μ ι) (es : List (Event μ ι π)) (e : Event μ ι π) :
    met rumor (es ++ [e]) = met rumor es ∪ { k | e.id? rumor = some k } := by
  ext k
  simp [met, or_and_right, exists_or]

/-- One event keeps the protocol consistent. -/
theorem Consistent.step {ids : Set ι} (h : Consistent rumor s ids) (e : Event μ ι π)
    (hfresh : ∀ message env, e = .gossipMessage message env →
      ∀ k, rumor.id message = .ok k → k ∉ ids) :
    Consistent rumor (step rumor s e) (ids ∪ { k | e.id? rumor = some k }) := by
  have hids : ∀ message : μ, { k | (rumor.id message).toOption = some k } =
      { k | rumor.id message = .ok k } := by
    intro message
    ext k
    cases rumor.id message <;> simp [Except.toOption]
  cases e with
  | gossipMessage message env =>
    rw [show Event.id? rumor (.gossipMessage message env : Event μ ι π) =
      (rumor.id message).toOption from rfl, hids]
    refine h.gossipMessage fun k hk => ⟨fun hl => ?_,fun hd => ?_⟩
    · exact hfresh message env rfl k hk (h.met k (.inl hl))
    · exact hfresh message env rfl k hk (h.met k (.inr hd))
  | messageArrived message env =>
    rw [show Event.id? rumor (.messageArrived message env : Event μ ι π) =
      (rumor.id message).toOption from rfl, hids]
    exact h.messageArrived
  | disseminate currentTime => exact (h.disseminate currentTime).mono Set.subset_union_left
  | removeMessage messageId => exact (h.removeMessage messageId).mono Set.subset_union_left

/-- The protocol is consistent after every run. -/
theorem consistent_run {es : List (Event μ ι π)} (h : Fresh rumor es) :
    Consistent rumor (run rumor es) (met rumor es) := by
  induction es using List.reverseRecOn with
  | nil => exact .init _
  | append_singleton es e ih =>
    rw [run, List.foldl_append, met_concat]
    refine (ih ?_).step e ?_
    · intro before message env after hes
      exact h before message env (after ++ [e]) (by rw [hes, List.append_assoc, List.cons_append])
    · rintro message env rfl
      exact h es message env [] rfl

/-- No message id is ever sent twice to one peer: in every run in which the messages that originate
here have new ids, whatever arrives and is dropped in between, and whoever is known at each time. -/
theorem told_once {es : List (Event μ ι π)} (h : Fresh rumor es) :
    ((run rumor es).sent.map fun x => (rumor.id x.1,x.2)).Nodup := (consistent_run h).once

/-- Messages that are nothing but their id. -/
def numbered : Rumor ℕ ℕ where
  fieldsCheck _ := true
  id := .ok
  created _ := .int 0
  repr _ := .ok ()
  toBytes _ := .ok []

/-- Four peers, of which the last one takes the place of the first one in the sample. -/
def fourPeers : Surroundings ℕ := ⟨[1,2,3,4],by decide,fun _ => 0,0,0,0⟩

/-- A message that originates here comes back twice, once before and once after it has been dropped. -/
theorem told_once_numbered :
    ((run numbered [.gossipMessage 7 fourPeers,.messageArrived 7 fourPeers,.disseminate 4,
      .messageArrived 7 fourPeers]).sent.map fun x => (numbered.id x.1,x.2)).Nodup := by
  refine told_once ?_
  intro before message env after hes k _
  rcases before with _ | ⟨e₁,_ | ⟨e₂,_ | ⟨e₃,_ | ⟨e₄,before⟩⟩⟩⟩
  · rintro ⟨e,he,-⟩
    cases he
  all_goals simp at hes

end RumorMongerProtocol
end PeerConnect.Transfers
