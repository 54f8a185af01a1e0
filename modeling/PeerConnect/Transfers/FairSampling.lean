import PeerConnect.Library.ReservoirShares
import PeerConnect.Transfers.Rumor

/-! The peers that a message is forwarded to are sampled fairly. -/
namespace PeerConnect.Transfers
open Library Wire

/-- The same surroundings with the random numbers of an outcome. -/
def Surroundings.withDraws {π : Type} {size m : ℕ} (env : Surroundings π) (o : Outcomes size m) :
    Surroundings π := { env with draw := o.draws }

namespace RumorMongerProtocol

variable {μ ι π : Type} [DecidableEq ι] [DecidableEq π]
variable {env : Surroundings π} {s : RumorMongerProtocol μ ι π} {messageId : ι}
variable {item : RumorMessageItem ι π}

/-- The known peers that have not been told the message. -/
def untold (env : Surroundings π) (item : RumorMessageItem ι π) : List π :=
  env.peerIds.filter fun peerId => peerId ∉ item.peerList

/-- What a call of `sample_peers` returns. -/
def returned (env : Surroundings π) (messageId : ι) (sampleSize : ℕ) (s : RumorMongerProtocol μ ι π) :
    List π :=
  match samplePeers env messageId sampleSize s with
  | .done reservoir _ => reservoir
  | _ => []

theorem samplePeers_of_lookup (hl : s.messageList.lookup messageId = some item) (sampleSize : ℕ) :
    samplePeers env messageId sampleSize s =
      .done (Reservoir.sample sampleSize env.draw (untold env item))
        (s.enter messageId item (Reservoir.sample sampleSize env.draw (untold env item))) := by
  simp only [samplePeers, Coro.bind_apply, Coro.get_apply, Run.bind_done, hl, Coro.modify_apply,
    Coro.pure_apply]
  rfl

omit [DecidableEq ι] in
theorem nodup_untold (env : Surroundings π) (item : RumorMessageItem ι π) : (untold env item).Nodup :=
  env.nodup.filter _

/-- As many peers as asked for, as far as there are that many who have not been told; they are entered
as told, and every one of them is returned in the same share of the outcomes of the random numbers. -/
theorem samplePeers_fair (env : Surroundings π) (hl : s.messageList.lookup messageId = some item)
    (sampleSize : ℕ) :
    (∃ reservoir s', samplePeers env messageId sampleSize s = .done reservoir s' ∧
      reservoir.Nodup ∧ reservoir.length = min sampleSize (untold env item).length ∧
      (∀ peerId ∈ reservoir, peerId ∈ env.peerIds ∧ peerId ∉ item.peerList) ∧
      s'.messageList.lookup messageId =
        some { item with peerList := item.peerList ∪ reservoir.toFinset } ∧
      (∀ other, other ≠ messageId → s'.messageList.lookup other = s.messageList.lookup other) ∧
      s'.dropped = s.dropped ∧ s'.sent = s.sent) ∧
    ∀ peerId ∈ untold env item,
      Outcomes.share (fun o : Outcomes sampleSize ((untold env item).length-sampleSize) =>
        peerId ∈ returned (env.withDraws o) messageId sampleSize s) =
          (min sampleSize (untold env item).length : ℕ)/((untold env item).length : ℚ) := by
  constructor
  · refine ⟨_,_,samplePeers_of_lookup hl sampleSize,Reservoir.sample_nodup (nodup_untold env item),
      Reservoir.sample_length ..,fun peerId hp => ?_,?_,fun other hne => ?_,rfl,rfl⟩
    · have hmem := Reservoir.mem_of_mem_sample hp
      rw [untold, List.mem_filter, decide_eq_true_eq] at hmem
      exact hmem
    · exact AList.lookup_insert _
    · exact AList.lookup_insert_ne hne
  · intro peerId hp
    have hreturned : ∀ o : Outcomes sampleSize ((untold env item).length-sampleSize),
        returned (env.withDraws o) messageId sampleSize s =
          Reservoir.sample sampleSize o.draws (untold env item) := by
      intro o
      rw [returned, samplePeers_of_lookup hl]
      rfl
    simp only [hreturned]
    exact Reservoir.share_sampled (nodup_untold env item) hp sampleSize

theorem nodup_five : [1,2,3,4,5].Nodup := by decide

/-- Five peers, of whom one has been told the message. -/
def fivePeers : Surroundings ℕ where
  peerIds := [1,2,3,4,5]
  nodup := nodup_five
  draw i := Fin.last i
  monotonic := 1
  time := 1
  random := 0

def toldOne : RumorMongerProtocol ℕ ℕ ℕ where
  messageList := (∅ : AList fun _ : ℕ => RumorMessageItem ℕ ℕ).insert 7 ⟨7,0,.int 0,{3}⟩

theorem samplePeers_fair_five :
    toldOne.messageList.lookup 7 = some ⟨7,0,.int 0,{3}⟩ ∧
    Outcomes.share (fun o : Outcomes 3 1 => 5 ∈ returned (fivePeers.withDraws o) 7 3 toldOne) = 3/4 := by
  have hl : toldOne.messageList.lookup 7 = some ⟨7,0,.int 0,{3}⟩ := by rfl
  have h := (samplePeers_fair fivePeers hl 3).2 5 (by decide)
  exact ⟨hl,h⟩

end RumorMongerProtocol
end PeerConnect.Transfers
