import PeerConnect.OneToMany.Forwarding

/-! The end of the reading loop. The counter is raised after the test and a piece is no longer than a
chunk, so that the test never holds of the pieces of what was announced. -/
namespace PeerConnect.OneToMany
open Library Wire PalmTree

namespace OTMFilesRelay

variable {ι : Type} [DecidableEq ι] (order : SetOrder ι) (outcome : ι → ℕ → SendOutcome)
  (receive : ℕ → Bytes → Except Exn Unit)

/-- None of the chunks that come passes the test for the end. -/
def Untested (totalBytesLen counter : ℕ) (chunks : List Bytes) : Prop :=
  ∀ i chunk, chunks[i]? = some chunk → chunk ≠ [] ∧ (counter+i)*chunk.length < totalBytesLen

theorem Untested.head {totalBytesLen counter : ℕ} {chunk : Bytes} {chunks : List Bytes}
    (h : Untested totalBytesLen counter (chunk::chunks)) :
    chunk ≠ [] ∧ counter*chunk.length < totalBytesLen := h 0 chunk rfl

theorem Untested.tail {totalBytesLen counter : ℕ} {chunk : Bytes} {chunks : List Bytes}
    (h : Untested totalBytesLen counter (chunk::chunks)) : Untested totalBytesLen (counter+1) chunks := by
  intro i c hc
  rw [show counter+1+i = counter+(i+1) by omega]
  exact h (i+1) c hc

theorem untested_pieces (data : Bytes) (chunkSize : ℕ) :
    Untested data.length 0 (pieces chunkSize data) := by
  intro i chunk h
  rw [Nat.zero_add]
  exact (pieces_getElem? h).2

/-- Forwarding does not read, and the counter is left to the reader. -/
theorem forwardChunk_keeps (chunk : Bytes) {r r' : OTMFilesRelay ι}
    (h : forwardChunk order outcome chunk r = .done () r') :
    r'.incoming = r.incoming ∧ r'.chunkCounter = r.chunkCounter := by
  have hchunks : forwardChunks order outcome [chunk] r = .done () r' := by
    rw [forwardChunks, Coro.bind_apply, h]
    rfl
  obtain ⟨hl,ht⟩ := tolerated_of_forwardChunks order outcome hchunks
  have hl := hl.resolve_left (List.cons_ne_nil _ _)
  rw [forwardChunk_eq order outcome chunk hl ((tolerated_succ chunk).mp ht).1] at h
  cases h
  exact ⟨rfl,rfl⟩

/-- A reader that returns has gone past the chunks that do not pass the test. -/
theorem startReader_past {totalBytesLen : ℕ} {chunks : List Bytes} {later : List (Except Exn Bytes)}
    {r r' : OTMFilesRelay ι} (hin : r.incoming = chunks.map .ok ++ later)
    (htest : Untested totalBytesLen r.chunkCounter chunks)
    (h : startReader order outcome receive totalBytesLen r = .done () r') :
    r'.incoming.length < later.length := by
  induction chunks generalizing r with
  | nil =>
    rw [List.map_nil, List.nil_append] at hin
    rw [← hin]
    exact startReader_done order outcome receive h
  | cons chunk chunks ih =>
    obtain ⟨hne,hlt⟩ := htest.head
    rw [startReader_eq] at h
    cases hreceive : receive r.chunkCounter chunk with
    | error e =>
      rw [readRound_refused order outcome receive totalBytesLen hin hne hreceive] at h
      cases h
    | ok u =>
      rw [readRound_chunk order outcome receive totalBytesLen hin hne hreceive] at h
      obtain ⟨returns,t,hround,h⟩ := Run.bind_eq_done h
      obtain ⟨_,s,hforward,hround⟩ := Run.bind_eq_done hround
      obtain ⟨hincoming,hcounter⟩ := forwardChunk_keeps order outcome chunk hforward
      have hcounter : s.chunkCounter = r.chunkCounter := hcounter
      rw [if_neg (by rw [hcounter]; omega)] at hround
      cases hround
      refine ih (r := s.countChunk) hincoming ?_ h
      rw [countChunk, hcounter]
      exact htest.tail

/-- The chunks with their numbers. -/
def numbered (counter : ℕ) (chunks : List Bytes) : List (ℕ × Bytes) :=
  (List.range' counter chunks.length).zip chunks

/-- What the reader does instead of returning: it has handed over and forwarded every chunk and waits
for one more. -/
theorem startReader_waits {totalBytesLen : ℕ} (hreceive : ∀ k chunk, receive k chunk = .ok ())
    {chunks : List Bytes} {r : OTMFilesRelay ι} (hin : r.incoming = chunks.map .ok)
    (htest : Untested totalBytesLen r.chunkCounter chunks) (hl : r.forwardLimiter ≠ 0)
    (h : Tolerated outcome r chunks.length) :
    ∃ r', startReader order outcome receive totalBytesLen r = .blocked r' ∧
      r'.received = r.received ++ numbered r.chunkCounter chunks ∧
      r'.forwarded = r.forwarded ++ chunks := by
  induction chunks generalizing r with
  | nil =>
    refine ⟨r,startReader_nil order outcome receive totalBytesLen hin,?_,?_⟩ <;> simp [numbered]
  | cons chunk chunks ih =>
    obtain ⟨hne,hlt⟩ := htest.head
    have h' : Tolerated outcome (r.withReceived chunk (chunks.map .ok)) (chunks.length+1) := h
    obtain ⟨hfirst,hrest⟩ := (tolerated_succ chunk).mp h'
    obtain ⟨r',hr,hreceived,hforwarded⟩ := ih
      (r := ((r.withReceived chunk (chunks.map .ok)).afterChunk outcome chunk).countChunk)
      rfl htest.tail hl hrest
    have hcounter : ((r.withReceived chunk (chunks.map .ok)).afterChunk outcome chunk).chunkCounter =
      r.chunkCounter := rfl
    refine ⟨r',?_,?_,?_⟩
    · rw [startReader_eq, readRound_chunk order outcome receive totalBytesLen hin hne (hreceive _ _),
        forwardChunk_eq order outcome chunk (r := r.withReceived chunk (chunks.map .ok)) hl hfirst,
        Run.bind_done, hcounter, if_neg (Nat.not_le_of_lt hlt)]
      exact hr
    · rw [hreceived]
      simp [numbered, countChunk, afterChunk, afterSends, withReceived, List.range'_succ]
    · rw [hforwarded]
      simp [countChunk, afterChunk, afterSends, withReceived]

/-- The reading loop stops at the end: of the pieces of the announced data and what comes later, it
returns once it has handed over and forwarded every piece, with the rest unread. -/
def StopsAtEnd (chunkSize : ℕ) (data : Bytes) (later : List (Except Exn Bytes)) (r : OTMFilesRelay ι) :
    Prop :=
  ∃ r', startReader order outcome receive data.length { r with
      chunkCounter := 0, incoming := (pieces chunkSize data).map .ok ++ later } = .done () r' ∧
    r'.received = r.received ++ numbered 0 (pieces chunkSize data) ∧
    r'.forwarded = r.forwarded ++ pieces chunkSize data ∧ r'.incoming = later

/-- It never does, whatever the data, the size of a chunk, the receiver and the links are. -/
theorem not_stopsAtEnd (chunkSize : ℕ) (data : Bytes) (later : List (Except Exn Bytes))
    (r : OTMFilesRelay ι) : ¬ StopsAtEnd order outcome receive chunkSize data later r := by
  rintro ⟨r',hr,_,_,hlater⟩
  have hlt := startReader_past order outcome receive rfl (untested_pieces data chunkSize) hr
  rw [hlater] at hlt
  exact Nat.lt_irrefl _ hlt

/-- A byte that comes alone is handed over and forwarded, but then one more piece is waited for. -/
theorem one_byte_does_not_end :
    ¬ StopsAtEnd SetOrder.byNumber (fun _ _ => .sent) (fun _ _ => .ok ()) 1 [7] [] twoChildren := by
  rintro ⟨r',hr,_,_,_⟩
  have hin : { twoChildren with incoming := [.ok [7]] }.incoming = [[7]].map .ok := rfl
  obtain ⟨s,hs,_⟩ := startReader_waits SetOrder.byNumber (fun _ _ => .sent) (fun _ _ => .ok ())
    (fun _ _ => rfl) hin (untested_pieces [7] 1) (by decide) (fun _ _ _ _ _ => rfl)
  exact absurd (hs.symm.trans hr) nofun

end OTMFilesRelay
end PeerConnect.OneToMany
