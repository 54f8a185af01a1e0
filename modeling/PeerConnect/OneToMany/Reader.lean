import PeerConnect.PalmTree.Relay
import PeerConnect.Library.Coroutine
import PeerConnect.Library.Sets
import PeerConnect.Wire.Value

/-! A relay of a one-to-many transfer: the chunks it reads from its parent, hands to the receiver of the
files and forwards to its children. -/
namespace PeerConnect.OneToMany
open Library Wire PalmTree

/-- What becomes of a `link.send` that has `link_wait_timeout` seconds. One that runs out of time fails
with a `TimeoutError`, which is an `OSError` as well. -/
inductive SendOutcome
  | sent
  | failed (error : Exn) (isOSError : error.isOSError = true)
  deriving DecidableEq

structure OTMFilesRelay (ι : Type) extends Relay ι where
  readLink : Option ι := none
  /-- `_forward_limiter`, a semaphore of `session.fanout` -/
  forwardLimiter : ℕ
  chunkCounter : ℕ := 0
  /-- what the next calls of `recv` on the read link give -/
  incoming : List (Except Exn Bytes) := []
  /-- the numbered chunks that the receiver of the files has taken -/
  received : List (ℕ × Bytes) := []
  /-- the chunks that have been forwarded -/
  forwarded : List Bytes := []
  /-- the chunks given to `send` of a link -/
  attempted : ι → List Bytes := fun _ => []
  /-- the chunks that have been sent on a link -/
  delivered : ι → List Bytes := fun _ => []

namespace OTMFilesRelay

variable {ι : Type}

/-- `recv` of the read link -/
def recv : Coro Exn (OTMFilesRelay ι) Bytes := fun r =>
  match r.incoming with
  | [] => .blocked r
  | .ok data::rest => .done data { r with incoming := rest }
  | .error e::rest => .raised e { r with incoming := rest }

/-- `recv_int(…, LONG_INT)` -/
def recvLongInt : Coro Exn (OTMFilesRelay ι) ℕ := do
  let bytedInt ← Coro.tryCatch recv fun e =>
    Coro.raise (if e = .connectionReset then .valueError else e)
  match unpackUInt 8 bytedInt with
  | some integer => pure integer
  | none => Coro.raise .valueError

/-- `_parent_link_fut` has been resolved, and is awaited once more. -/
def awaitParentLink : Coro Exn (OTMFilesRelay ι) Unit := fun r =>
  match r.parentLinkFut with
  | .pending => .blocked r
  | .cancelled => .raised .cancelledError r
  | .resolved link => .done () { r with readLink := link }

/-- `_handle_read_link_broken`. It catches a `ConnectionResetError`, but `recv_int` raises none. -/
def handleReadLinkBroken : Coro Exn (OTMFilesRelay ι) Unit := do
  awaitParentLink
  match ← Coro.get readLink with
  | none => Coro.raise .attributeError
  | some _ =>
    let _currentCounter ← recvLongInt
    pure ()

/-- No more is left to be read. -/
def Reads (r r' : OTMFilesRelay ι) : Prop := r'.incoming.length ≤ r.incoming.length

instance : Std.Refl (Reads (ι := ι)) := ⟨fun _ => Nat.le_refl _⟩
instance : IsTrans (OTMFilesRelay ι) Reads := ⟨fun _ _ _ h h' => Nat.le_trans h' h⟩

theorem reads_recv : Coro.Moves Reads (recv (ι := ι)) := by
  intro r
  unfold recv
  split
  next h => exact Nat.le_refl _
  next h => simp [Reads, h]
  next h => simp [Reads, h]

theorem reads_handleReadLinkBroken : Coro.Moves Reads (handleReadLinkBroken (ι := ι)) := by
  have hawait : Coro.Moves Reads (awaitParentLink (ι := ι)) := by
    intro r
    unfold awaitParentLink
    split <;> exact Nat.le_refl _
  refine .bind hawait fun _ => .bind (.get _) fun link => ?_
  cases link with
  | none => exact .raise _
  | some link =>
  refine .bind (.bind (.tryCatch reads_recv fun e => .raise _) fun bytedInt => ?_) fun _ => .pure ()
  split
  · exact .pure _
  · exact .raise _

variable [DecidableEq ι]

/-- `_get_forward_links` -/
def getForwardLinks (r : OTMFilesRelay ι) : Finset ι :=
  (r.activeLinks \ r.readLink.toFinset).filter fun p =>
    (r.link p).isOnline = true ∧ (r.link p).isOutgoing = true

/-- `link.status = TreeLink.LAGGING` -/
def setLagging (p : ι) (r : OTMFilesRelay ι) : OTMFilesRelay ι :=
  { r with link := Function.update r.link p { r.link p with status := .lagging } }

section
variable (order : SetOrder ι) (outcome : ι → ℕ → SendOutcome)
  (receive : ℕ → Bytes → Except Exn Unit)

/-- `asyncio.wait_for(link.send(chunk), …)` -/
def send (chunk : Bytes) (p : ι) : Coro Exn (OTMFilesRelay ι) Unit := fun r =>
  let r' := { r with attempted := Function.update r.attempted p (r.attempted p ++ [chunk]) }
  match outcome p (r.attempted p).length with
  | .sent =>
    .done () { r' with delivered := Function.update r.delivered p (r.delivered p ++ [chunk]) }
  | .failed e _ => .raised e r'

def forwardTo (chunk : Bytes) : List ι → Coro Exn (OTMFilesRelay ι) Unit
  | [] => pure ()
  | p::ps => do
    let lagging ← Coro.get fun r => (r.link p).isLagging
    if lagging then forwardTo chunk ps
    else
      Coro.tryCatch (send outcome chunk p) fun e =>
        if e = .timeoutError then Coro.modify (setLagging p) else Coro.raise e
      forwardTo chunk ps

/-- `_forward_chunk`. The limiter is released however the loop ends. -/
def forwardChunk (chunk : Bytes) : Coro Exn (OTMFilesRelay ι) Unit := fun r =>
  if r.forwardLimiter = 0 then .blocked r
  else (forwardTo outcome chunk (order.toList r.getForwardLinks) r).bind fun _ r' =>
    .done () { r' with forwarded := r'.forwarded ++ [chunk] }

def forwardChunks : List Bytes → Coro Exn (OTMFilesRelay ι) Unit
  | [] => pure ()
  | chunk::chunks => do
    forwardChunk order outcome chunk
    forwardChunks chunks

/-- `receiver_generator((self.chunk_counter, chunk))` -/
def receiveChunk (chunk : Bytes) : Coro Exn (OTMFilesRelay ι) Unit := do
  let counter ← Coro.get chunkCounter
  Coro.ofExcept (receive counter chunk)
  Coro.modify fun r => { r with received := r.received ++ [(counter,chunk)] }

/-- What `_start_reader` does with what has been read, and whether it returns then. -/
def takeChunk (totalBytesLen : ℕ) (chunk : Bytes) : Coro Exn (OTMFilesRelay ι) Bool :=
  if chunk = [] then do
    handleReadLinkBroken
    pure false
  else do
    receiveChunk receive chunk
    forwardChunk order outcome chunk
    let counter ← Coro.get chunkCounter
    if totalBytesLen ≤ counter*chunk.length then pure true
    else
      Coro.modify fun r => { r with chunkCounter := counter+1 }
      pure false

/-- One round of `_start_reader`. An error of the link is handled as its end is. -/
def readRound (totalBytesLen : ℕ) : Coro Exn (OTMFilesRelay ι) Bool := do
  let chunk ← Coro.tryCatch recv fun e =>
    if e.isOSError then pure [] else Coro.raise e
  takeChunk order outcome receive totalBytesLen chunk

end

section
variable (order : SetOrder ι) (outcome : ι → ℕ → SendOutcome)
  (receive : ℕ → Bytes → Except Exn Unit)

theorem reads_send (chunk : Bytes) (p : ι) : Coro.Moves Reads (send outcome chunk p) := by
  intro r
  unfold send
  dsimp only
  split <;> exact Nat.le_refl _

theorem reads_forwardTo (chunk : Bytes) (ps : List ι) :
    Coro.Moves Reads (forwardTo outcome chunk ps) := by
  induction ps with
  | nil => exact .pure ()
  | cons p ps ih =>
    refine .bind (.get _) fun lagging => .ite (fun _ => ih) fun _ => ?_
    refine .bind (.tryCatch (reads_send outcome chunk p) fun e => ?_) fun _ => ih
    exact .ite (fun _ => .modify fun _ => Nat.le_refl _) fun _ => .raise e

theorem reads_forwardChunk (chunk : Bytes) : Coro.Moves Reads (forwardChunk order outcome chunk) := by
  intro r
  unfold forwardChunk
  split
  · exact Nat.le_refl _
  · exact Coro.Moves.bind_at (reads_forwardTo outcome chunk _ r) fun _ _ _ => Nat.le_refl _

theorem reads_takeChunk (totalBytesLen : ℕ) (chunk : Bytes) :
    Coro.Moves Reads (takeChunk order outcome receive totalBytesLen chunk) := by
  refine .ite (fun _ => .bind reads_handleReadLinkBroken fun _ => .pure _) fun _ => ?_
  refine .bind (.bind (.get _) fun _ => .bind (.ofExcept _) fun _ =>
    .modify fun _ => Nat.le_refl _) fun _ => ?_
  refine .bind (reads_forwardChunk order outcome chunk) fun _ => .bind (.get _) fun _ => ?_
  exact .ite (fun _ => .pure _) fun _ => .bind (.modify fun _ => Nat.le_refl _) fun _ => .pure _

/-- A round in which nothing is raised has read something. -/
theorem readRound_done {totalBytesLen : ℕ} {b : Bool} {r r' : OTMFilesRelay ι}
    (h : readRound order outcome receive totalBytesLen r = .done b r') :
    r'.incoming.length < r.incoming.length := by
  obtain ⟨chunk,t,hr,h⟩ := Run.bind_eq_done h
  have hread : t.incoming.length < r.incoming.length := by
    rw [Coro.tryCatch_apply, recv] at hr
    cases hin : r.incoming with
    | nil => rw [hin] at hr; cases hr
    | cons x rest =>
      rw [hin] at hr
      cases x with
      | ok data => cases hr; simp
      | error e =>
        simp only [Run.handle_raised, Coro.ite_apply] at hr
        split at hr
        · cases hr; simp
        · cases hr
  dsimp only at h
  have hle := reads_takeChunk order outcome receive totalBytesLen chunk t
  rw [h] at hle
  exact Nat.lt_of_le_of_lt hle hread

/-- `_start_reader`. What comes behind the end, `fill_partial_chunks`, is empty. -/
def startReader (totalBytesLen : ℕ) (r : OTMFilesRelay ι) : Run Exn (OTMFilesRelay ι) Unit :=
  match h : readRound order outcome receive totalBytesLen r with
  | .raised e r' => .raised e r'
  | .blocked r' => .blocked r'
  | .done true r' => .done () r'
  | .done false r' =>
    have := readRound_done order outcome receive h
    startReader totalBytesLen r'
termination_by r.incoming.length

theorem startReader_eq (totalBytesLen : ℕ) (r : OTMFilesRelay ι) :
    startReader order outcome receive totalBytesLen r =
      (readRound order outcome receive totalBytesLen r).bind fun returns r' =>
        if returns then .done () r' else startReader order outcome receive totalBytesLen r' := by
  rw [startReader]
  split
  next h => rw [h]; rfl
  next h => rw [h]; rfl
  next h => rw [h]; rfl
  next h => simp [h]

theorem startReader_done {totalBytesLen : ℕ} {r r' : OTMFilesRelay ι}
    (h : startReader order outcome receive totalBytesLen r = .done () r') :
    r'.incoming.length < r.incoming.length := by
  rw [startReader_eq] at h
  obtain ⟨returns,t,hr,h⟩ := Run.bind_eq_done h
  have hlt := readRound_done order outcome receive hr
  cases returns with
  | true =>
    cases h
    exact hlt
  | false => exact Nat.lt_trans (startReader_done h) hlt
termination_by r.incoming.length

/-- The relay that has handed over the chunk it has read. -/
def withReceived (chunk : Bytes) (rest : List (Except Exn Bytes)) (r : OTMFilesRelay ι) :
    OTMFilesRelay ι :=
  { r with incoming := rest, received := r.received ++ [(r.chunkCounter,chunk)] }

/-- The relay before the next chunk. -/
def countChunk (r : OTMFilesRelay ι) : OTMFilesRelay ι :=
  { r with chunkCounter := r.chunkCounter+1 }

/-- A round that reads a chunk which the receiver takes. -/
theorem readRound_chunk (totalBytesLen : ℕ) {r : OTMFilesRelay ι} {chunk : Bytes}
    {rest : List (Except Exn Bytes)} (hin : r.incoming = .ok chunk::rest) (hne : chunk ≠ [])
    (hreceive : receive r.chunkCounter chunk = .ok ()) :
    readRound order outcome receive totalBytesLen r =
      (forwardChunk order outcome chunk (r.withReceived chunk rest)).bind fun _ r' =>
        if totalBytesLen ≤ r'.chunkCounter*chunk.length then .done true r'
        else .done false r'.countChunk := by
  have hrecv : recv r = .done chunk { r with incoming := rest } := by rw [recv, hin]
  have htake : receiveChunk receive chunk { r with incoming := rest } =
      .done () (r.withReceived chunk rest) := by
    simp only [receiveChunk, Coro.bind_apply, Coro.get_apply, Run.bind_done, hreceive,
      Coro.ofExcept_ok, Coro.modify_apply, withReceived]
  rw [readRound, Coro.bind_apply, Coro.tryCatch_apply, hrecv, Run.handle_done, Run.bind_done, takeChunk,
    if_neg hne, Coro.bind_apply, htake, Run.bind_done, Coro.bind_apply]
  congr 1
  funext _ r'
  simp only [Coro.bind_apply, Coro.get_apply, Run.bind_done, Coro.ite_apply, Coro.pure_apply,
    Coro.modify_apply, countChunk]

theorem readRound_refused (totalBytesLen : ℕ) {r : OTMFilesRelay ι} {chunk : Bytes}
    {rest : List (Except Exn Bytes)} {e : Exn} (hin : r.incoming = .ok chunk::rest) (hne : chunk ≠ [])
    (hreceive : receive r.chunkCounter chunk = .error e) :
    readRound order outcome receive totalBytesLen r = .raised e { r with incoming := rest } := by
  have hrecv : recv r = .done chunk { r with incoming := rest } := by rw [recv, hin]
  rw [readRound, Coro.bind_apply, Coro.tryCatch_apply, hrecv, Run.handle_done, Run.bind_done, takeChunk,
    if_neg hne]
  simp only [receiveChunk, Coro.bind_apply, Coro.get_apply, Run.bind_done, hreceive,
    Coro.ofExcept_error, Run.bind_raised]

/-- Where nothing comes, the reader waits. -/
theorem startReader_nil (totalBytesLen : ℕ) {r : OTMFilesRelay ι} (hin : r.incoming = []) :
    startReader order outcome receive totalBytesLen r = .blocked r := by
  have hrecv : recv r = .blocked r := by rw [recv, hin]
  rw [startReader_eq, readRound, Coro.bind_apply, Coro.tryCatch_apply, hrecv]
  rfl

end
end OTMFilesRelay
end PeerConnect.OneToMany
