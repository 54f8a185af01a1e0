import PeerConnect.Transfers.Rumor

/-! Which gossip messages are passed on. -/
namespace PeerConnect.Transfers
open Library Wire

/-- A gossip message, as the protocol looks at it. Dictionaries find an id by its key. -/
def gossipRumor {ι : Type} (u : Umsgpack) (key : Value → Except Exn ι) : Rumor GossipMessage ι where
  fieldsCheck := GossipMessage.fieldsCheck
  id m := key m.id
  created := GossipMessage.created
  repr := GossipMessage.repr
  toBytes m :=
    match m.toBytes u with
    | some bs => .ok bs
    | none => .error .packException

namespace RumorMongerProtocol

variable {μ ι π : Type} [DecidableEq ι] [DecidableEq π]
variable {rumor : Rumor μ ι} {env : Surroundings π} {message : μ} {s : RumorMongerProtocol μ ι π}

omit [DecidableEq ι] in
/-- Peers that are there are sent a message that can be packed. -/
theorem forwardAll_done {bs : Bytes} (hb : rumor.toBytes message = .ok bs) {sampledPeers : List π}
    (hp : ∀ peerId ∈ sampledPeers, peerId ∈ env.peerIds) (s : RumorMongerProtocol μ ι π) :
    forwardAll rumor env message sampledPeers s =
      .done () { s with sent := s.sent ++ sampledPeers.map fun peerId => (message,peerId) } := by
  induction sampledPeers generalizing s with
  | nil => simp [forwardAll]
  | cons peerId sampledPeers ih =>
    have hfirst := hp peerId List.mem_cons_self
    have hrest := ih (fun p hm => hp p (List.mem_cons_of_mem _ hm))
      { s with sent := s.sent ++ [(message,peerId)] }
    simpa [forwardAll, forwardPayload, hfirst, hb] using hrest

omit [DecidableEq ι] in
/-- A message that cannot be packed is sent to nobody. -/
theorem forwardAll_unpackable {e : Exn} (hb : rumor.toBytes message = .error e) (sampledPeers : List π)
    (s : RumorMongerProtocol μ ι π) :
    (forwardAll rumor env message sampledPeers s).state = s := by
  cases sampledPeers with
  | nil => rfl
  | cons peerId sampledPeers =>
    by_cases hp : peerId ∈ env.peerIds <;> simp [forwardAll, forwardPayload, hp, hb]

/-- A message arrives that is new here and that the policy allows. -/
structure Welcome (rumor : Rumor μ ι) (env : Surroundings π) (s : RumorMongerProtocol μ ι π)
    (message : μ) (messageId : ι) : Prop where
  id : rumor.id message = .ok messageId
  unseen : messageId ∉ s.messageList
  undropped : messageId ∉ s.dropped
  allowed : shouldRumor rumor env message s = .done true s

/-- The message is in the list now, and has been sent to as many peers as there are, if not more than
`alpha`. -/
def Disseminated (s : RumorMongerProtocol μ ι π) (env : Surroundings π) (message : μ) (messageId : ι)
    (s' : RumorMongerProtocol μ ι π) : Prop :=
  messageId ∈ s'.messageList ∧ ∃ peers : List π, peers.Nodup ∧ (∀ p ∈ peers, p ∈ env.peerIds) ∧
    peers.length = min alpha env.peerIds.length ∧
    s'.sent = s.sent ++ peers.map fun peerId => (message,peerId)

/-- Once a message is entered with no peers, it is told to as many as it should be if it can be packed,
or if there are none. -/
theorem gossipMessage_disseminated {messageId : ι} (hr : rumor.repr message = .ok ())
    (hid : rumor.id message = .ok messageId) :
    Disseminated s env message messageId (gossipMessage rumor env message s).state ↔
      (∃ bs, rumor.toBytes message = .ok bs) ∨ env.peerIds = [] := by
  set item : RumorMessageItem ι π := ⟨messageId,env.monotonic,rumor.created message,∅⟩ with hitem
  have hsampled : ∀ p ∈ sampled env item, p ∈ env.peerIds := fun p hp =>
    (List.mem_filter.mp (Reservoir.mem_of_mem_sample hp)).1
  have hlength : (sampled env item).length = min alpha env.peerIds.length := by
    rw [sampled, Reservoir.sample_length, List.filter_eq_self.mpr]
    intro p _
    exact decide_eq_true (Finset.notMem_empty p)
  rw [gossipMessage_of_id hr hid, ← hitem, gossipForward_of_lookup hid (AList.lookup_insert _)]
  cases hb : rumor.toBytes message with
  | ok bs =>
    refine iff_of_true ?_ (.inl ⟨bs,rfl⟩)
    rw [forwardAll_done hb hsampled]
    exact ⟨(AList.mem_insert _).mpr (.inl rfl),sampled env item,
      Reservoir.sample_nodup (env.nodup.filter _),hsampled,hlength,rfl⟩
  | error e =>
    rw [forwardAll_unpackable hb]
    constructor
    · rintro ⟨-,peers,-,-,hl,hsent⟩
      have hnil : peers = [] := List.map_eq_nil_iff.mp (List.self_eq_append_right.mp hsent)
      rw [hnil, List.length_nil, alpha] at hl
      exact .inr (List.length_eq_zero_iff.mp (by omega))
    · rintro (⟨bs,h⟩ | hnone)
      · cases h
      · refine ⟨(AList.mem_insert _).mpr (.inl rfl),[],List.nodup_nil,(fun p hp => nomatch hp),?_,?_⟩
        · simp [hnone]
        · exact (List.append_nil _).symm

/-- A welcome message is disseminated exactly if it passes the check, can be printed, and can be packed
if it is sent to anybody. -/
theorem messageArrived_disseminated {messageId : ι} (hw : Welcome rumor env s message messageId) :
    Disseminated s env message messageId (messageArrived rumor env message s).state ↔
      rumor.fieldsCheck message = true ∧ rumor.repr message = .ok () ∧
        ((∃ bs, rumor.toBytes message = .ok bs) ∨ env.peerIds = []) := by
  by_cases hf : rumor.fieldsCheck message = true
  · rw [messageArrived_allowed hf hw.allowed hw.id, if_neg hw.unseen,
      Coro.state_bind fun _ t => Coro.state_ofExcept _ t]
    cases hr : rumor.repr message with
    | error e =>
      refine iff_of_false ?_ (by simp)
      rintro ⟨hm,-⟩
      simp only [gossipMessage, Coro.bind_apply, hr, Coro.ofExcept_error, Run.bind_raised,
        Run.state_raised] at hm
      exact hw.unseen hm
    | ok _ =>
      rw [gossipMessage_disseminated hr hw.id]
      exact ⟨fun h => ⟨hf,rfl,h⟩,fun h => h.2.2⟩
  · refine iff_of_false ?_ fun h => hf h.1
    rintro ⟨hm,-⟩
    have hf' : rumor.fieldsCheck message = false := by simpa using hf
    simp only [messageArrived, hf', if_true, Coro.pure_apply, Run.state_done] at hm
    exact hw.unseen hm

end RumorMongerProtocol

open RumorMongerProtocol

/-- The check looks for the id under the name `id`, and a packet exposes it as `msg_id`. A message whose
fields have been set passes it exactly if its body has a field `id` besides, before and after it is
packed and read back. Then it is disseminated where it is welcome, if it can be printed and packed. -/
theorem gossip_disseminated_iff {m : GossipMessage} (hm : m.Prepared) :
    (m.fieldsCheck = true ↔ m.HasField "id".toList) ∧
    (∀ (u : Umsgpack) (bs : Bytes) (copy : WireData), m.toBytes u = some bs →
      WireData.loadFrom u bs = .ok copy →
      ((GossipMessage.mk copy).fieldsCheck = true ↔ m.HasField "id".toList)) ∧
    ∀ {ι π : Type} [DecidableEq ι] [DecidableEq π] (u : Umsgpack) (key : Value → Except Exn ι)
      (env : Surroundings π) (s : RumorMongerProtocol GossipMessage ι π) (messageId : ι),
      Welcome (gossipRumor u key) env s m messageId →
      (Disseminated s env m messageId (messageArrived (gossipRumor u key) env m s).state ↔
        m.HasField "id".toList ∧ m.repr = .ok () ∧
          ((m.toBytes u).isSome = true ∨ env.peerIds = [])) := by
  refine ⟨hm.fieldsCheck_iff,?_,?_⟩
  · intro u bs copy hb hc
    rw [WireData.eq_of_loadFrom_toBytes hb hc]
    exact hm.fieldsCheck_iff
  · intro ι π _ _ u key env s messageId hw
    have hbytes : (∃ bs, (gossipRumor u key).toBytes m = .ok bs) ↔ (m.toBytes u).isSome = true := by
      cases hb : m.toBytes u <;> simp [gossipRumor, hb]
    rw [messageArrived_disseminated hw, hbytes]
    exact and_congr_left fun _ => hm.fieldsCheck_iff

/-- What `generate_gossip` of the tests sets in an empty packet. -/
def generateGossip (id created : Value) : List GossipMessage.Assignment :=
  [.header (.str ['\x00']),.id id,.message (.str "WHAT'S UP EVERYBODY".toList),.ttl (.int 3),
    .created created]

/-- Such a message does not pass the check. -/
theorem generated_gossip_refused :
    ¬ ∀ m : GossipMessage, m.Prepared → m.fieldsCheck = true := by
  intro h
  have hp := GossipMessage.Prepared.assigned ⟨⟨.nil,.nil,.nil,[],.nil⟩⟩
    (generateGossip (.str ['7']) (.int 0)) ⟨_,List.mem_cons_self⟩
    ⟨.str ['7'],by simp [generateGossip]⟩ ⟨.int 0,by simp [generateGossip]⟩
    ⟨.int 3,by simp [generateGossip]⟩
  have hc := hp.fieldsCheck_iff.mp (h _ hp)
  exact absurd hc (by decide)

/-- A message with a field `id` in its body. -/
def namedFields : List GossipMessage.Assignment :=
  [.header .nil,.id .nil,.message (.str []),.ttl (.int 3),.created (.int 0),.field "id".toList .nil]

def named : GossipMessage := namedFields.foldl GossipMessage.assign ⟨⟨.nil,.nil,.nil,[],.nil⟩⟩

theorem named_prepared : named.Prepared :=
  .assigned _ _ ⟨.nil,by simp [namedFields]⟩ ⟨.nil,by simp [namedFields]⟩
    ⟨.int 0,by simp [namedFields]⟩ ⟨.int 3,by simp [namedFields]⟩

/-- A package that knows the message and its encoding. -/
def namedCodec : Umsgpack :=
  .single (.array [.nil,.nil,.nil,.map [(.str "message".toList,.str []),(.str "ttl".toList,.int 3),
      (.str "created".toList,.int 0),(.str "id".toList,.nil)],.nil])
    [0x95,0xc0,0xc0,0xc0,0x84,0xa7,0x6d,0x65,0x73,0x73,0x61,0x67,0x65,0xa0,0xa3,0x74,0x74,0x6c,0x03,
      0xa7,0x63,0x72,0x65,0x61,0x74,0x65,0x64,0x00,0xa2,0x69,0x64,0xc0,0xc0]
    (fun
      | .array [.nil,.nil,.nil,.map [(.str a,.str []),(.str b,.int m),(.str c,.int n),(.str d,.nil)],
          .nil] =>
        decide (a = "message".toList ∧ b = "ttl".toList ∧ m = 3 ∧ c = "created".toList ∧ n = 0 ∧
          d = "id".toList)
      | _ => false)
    (by
      intro w h
      split at h
      · obtain ⟨rfl,rfl,rfl,rfl,rfl,rfl⟩ := of_decide_eq_true h
        rfl
      · cases h)

/-- Where nothing has been seen yet and two peers are known, the message goes to both. -/
theorem named_disseminated :
    let env : Surroundings ℕ := ⟨[1,2],by decide,fun _ => 0,0,0,0⟩
    let key : Value → Except Exn ℕ := fun _ => .ok 0
    Disseminated {} env named 0 (messageArrived (gossipRumor namedCodec key) env named {}).state := by
  intro env key
  have hchance : DefaultRumorPolicy.chance 0 (.finite (0-(0:ℤ))) = true := by
    simp [DefaultRumorPolicy.chance, DefaultRumorPolicy.globalGossipTtl]
  have hw : Welcome (gossipRumor namedCodec key) env {} named 0 := by
    refine ⟨rfl,AList.notMem_empty 0,Finset.notMem_empty 0,?_⟩
    have hcreated : named.created = .int 0 := rfl
    simp only [shouldRumor, gossipRumor, hcreated, DefaultRumorPolicy.elapsedTime, Coro.bind_apply,
      Coro.ofExcept_ok, Run.bind_done, Coro.get_apply, Finset.notMem_empty, decide_false,
      Bool.false_eq_true, if_false, Coro.pure_apply, env, key, hchance]
  exact ((gossip_disseminated_iff named_prepared).2.2 namedCodec key env {} 0 hw).mpr
    ⟨by decide,rfl,.inl rfl⟩

end PeerConnect.Transfers
