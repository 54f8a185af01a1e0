import PeerConnect.Core.Submission
import PeerConnect.Wire.Framing

/-! Message streams: an accepted connection on which a peer sends one framed packet after the
other, each of which is handed to a dispatcher. -/
namespace PeerConnect.Core
open Library Wire

variable {δ σ : Type}

/-- `use.recv_int` -/
def recvInt (getBytes : ℕ → Coro Exn σ Bytes) (type : ℕ) : Coro Exn σ ℕ := do
  let bytedInt ← Coro.tryCatch (getBytes type) fun e =>
    if e = .connectionReset then Coro.raise .valueError else Coro.raise e
  match unpackUInt type bytedInt with
  | some integer => pure integer
  | none => Coro.raise .valueError

/-- A connection, the dispatcher its messages go to and the calls of it made so far, and whether
`Dock.finalizing` is set. -/
structure MessageStream (δ : Type) where
  source : Source UInt8
  dispatcher : δ
  finalizing : Bool
  handed : List WireData := []
  closed : Bool := false

namespace MessageStream

def recv (n : ℕ) : Coro Exn (MessageStream δ) Bytes :=
  Coro.zoom source (fun s m => { m with source := s }) id (sockRecv n)

/-- `await asyncio.wait_for(data_dispatcher(data_event), TIMEOUT_TO_WAIT_FOR_MSG_PROCESSING_TASK)` -/
def handOver (dataDispatcher : StreamDataEvent → Coro Exn δ Unit) (data : WireData) :
    Coro Exn (MessageStream δ) Unit := do
  Coro.modify fun m => { m with handed := m.handed ++ [data] }
  Coro.zoom dispatcher (fun d m => { m with dispatcher := d }) id
    (Coro.waitFor .timeoutError (dataDispatcher ⟨data⟩))

end MessageStream

namespace ProcessDataHandler
open MessageStream

variable (u : Umsgpack) (dataDispatcher : StreamDataEvent → Coro Exn δ Unit)
  (finalizer : MessageStream δ → Bool)

def processOnce : Coro Exn (MessageStream δ) Unit := do
  let rawDataLen ← recvInt recv 4
  if rawDataLen ≤ 0 then pure () else do
    let rawData ← recv rawDataLen
    let data ← Coro.ofExcept (WireData.loadFrom u rawData)
    handOver dataDispatcher data

end ProcessDataHandler

namespace MessageStream

theorem recv_done {n : ℕ} {m m' : MessageStream δ} {data : Bytes} (h : recv n m = .done data m') :
    m'.source.pending.length + data.length = m.source.pending.length := by
  obtain ⟨s,hr,rfl⟩ := Coro.zoom_done h
  obtain ⟨rfl,hp,_⟩ := sockRecv_done hr
  have := congrArg List.length hp
  rw [List.length_append] at this
  simp only [Source.advance_pending]
  omega

theorem recvInt_done {type n : ℕ} {m m' : MessageStream δ} (h : recvInt recv type m = .done n m') :
    m'.source.pending.length + type = m.source.pending.length := by
  obtain ⟨bytedInt,t,hr,h⟩ := Run.bind_eq_done h
  have hr := recv_done (Coro.tryCatch_done hr fun e t => by split <;> simp)
  cases hi : unpackUInt type bytedInt with
  | none => simp [hi] at h
  | some integer =>
    have hl : bytedInt.length = type := by
      by_contra hne
      rw [unpackUInt_eq_none.mpr hne] at hi
      cases hi
    simp only [hi, Coro.pure_apply, Run.done.injEq] at h
    obtain ⟨-,rfl⟩ := h
    omega

theorem handOver_source {dataDispatcher : StreamDataEvent → Coro Exn δ Unit} {data : WireData}
    {m m' : MessageStream δ} (h : handOver dataDispatcher data m = .done () m') :
    m'.source = m.source := by
  simp only [handOver, Coro.bind_apply, Coro.modify_apply, Run.bind_done] at h
  obtain ⟨d,-,rfl⟩ := Coro.zoom_done h
  rfl

end MessageStream

namespace ProcessDataHandler
open MessageStream

variable (u : Umsgpack) (dataDispatcher : StreamDataEvent → Coro Exn δ Unit)
  (finalizer : MessageStream δ → Bool)

theorem processOnce_done {m m' : MessageStream δ}
    (h : processOnce u dataDispatcher m = .done () m') :
    m'.source.pending.length < m.source.pending.length := by
  obtain ⟨rawDataLen,t,hi,h⟩ := Run.bind_eq_done h
  have hi := recvInt_done hi
  dsimp only at h
  split at h
  · cases h
    omega
  · obtain ⟨rawData,t',hr,h⟩ := Run.bind_eq_done h
    have hr := recv_done hr
    cases hd : WireData.loadFrom u rawData with
    | error e => simp [hd] at h
    | ok data =>
      simp only [Coro.bind_apply, hd, Coro.ofExcept_ok, Run.bind_done] at h
      rw [handOver_source h]
      omega

/-- `while finalizer(): await process_once(event)` -/
def loop (m : MessageStream δ) : Run Exn (MessageStream δ) Unit :=
  if finalizer m then
    match h : processOnce u dataDispatcher m with
    | .raised e m' => .raised e m'
    | .blocked m' => .blocked m'
    | .done _ m' =>
      have := processOnce_done u dataDispatcher h
      loop m'
  else .done () m
termination_by m.source.pending.length

/-- The connection is closed when its `with` block is left, however that happens. -/
def handler : Coro Exn (MessageStream δ) Unit := fun m =>
  match loop u dataDispatcher finalizer m with
  | .done _ m' => .done () { m' with closed := true }
  | .raised e m' => .raised e { m' with closed := true }
  | .blocked m' => .blocked m'

/-- One round of the loop. -/
theorem loop_eq (m : MessageStream δ) :
    loop u dataDispatcher finalizer m = if finalizer m then
      (processOnce u dataDispatcher m).bind fun _ m' => loop u dataDispatcher finalizer m'
    else .done () m := by
  rw [loop]
  split
  · split
    next h => rw [h]; rfl
    next h => rw [h]; rfl
    next h => simp only [h, Run.bind_done]
  · rfl

end ProcessDataHandler

/-- The handler that `initiate_acceptor` registers for `CMD_BASIC_CONN`, with the stop flag it
registers it with, `Dock.finalizing.is_set`. -/
def initiateAcceptor.dataHandler (u : Umsgpack)
    (dataDispatcher : StreamDataEvent → Coro Exn δ Unit) : Coro Exn (MessageStream δ) Unit :=
  ProcessDataHandler.handler u dataDispatcher fun m => m.finalizing

/-- What a peer puts into a frame. -/
inductive Sent
  | keepAlive
  | message (w : WireData)

namespace Sent

def payload (u : Umsgpack) : Sent → Option Bytes
  | keepAlive => some []
  | message w => w.toBytes u

def message? : Sent → Option WireData
  | keepAlive => none
  | message w => some w

/-- The bytes on the connection after some calls of `send_async`. -/
def stream (u : Umsgpack) : List Sent → Option Bytes
  | [] => some []
  | f::sent => do
    let data ← payload u f
    let first ← Frame.sendAsync data
    let others ← stream u sent
    pure (first ++ others)

end Sent

theorem Sent.stream_cons {u : Umsgpack} {f : Sent} {sent : List Sent} {bs : Bytes}
    (h : stream u (f::sent) = some bs) :
    ∃ data size others, f.payload u = some data ∧ packUInt 4 data.length = some size ∧
      stream u sent = some others ∧ bs = size ++ (data ++ others) := by
  simp only [stream] at h
  obtain ⟨data,hd,h⟩ := Option.bind_eq_some_iff.mp h
  obtain ⟨first,hf,h⟩ := Option.bind_eq_some_iff.mp h
  obtain ⟨others,ho,h⟩ := Option.bind_eq_some_iff.mp h
  obtain ⟨size,hs,rfl⟩ := Frame.write_eq_some (w := .sendAsync) hf
  refine ⟨data,size,others,hd,hs,ho,?_⟩
  rw [← List.append_assoc]
  exact (Option.some.inj h).symm

namespace MessageStream

/-- A connection on which a peer has sent its frames, all reads of which are exact. -/
structure Accepted (u : Umsgpack) (sent : List Sent) (m : MessageStream δ) : Prop where
  pending : Sent.stream u sent = some m.source.pending
  exact : m.source.cut = Cut.whole

/-- When the handler has ended, or waits for more, the dispatcher has been called with the messages
that were sent, each once and in their order. -/
def HandsAll (handler : Coro Exn (MessageStream δ) Unit) (sent : List Sent) (m : MessageStream δ) :
    Prop :=
  (handler m).state.handed = m.handed ++ sent.filterMap Sent.message?

theorem recv_whole {m : MessageStream δ} (xs : Bytes) {rest : Bytes}
    (hc : m.source.cut = Cut.whole) (hp : m.source.pending = xs ++ rest) (hx : xs ≠ []) :
    recv xs.length m = .done xs { m with source := m.source.advance xs.length } := by
  simp [recv, sockRecv, Source.recv_whole m.source xs rest hc hp hx]

theorem recvInt_of_recv {type n : ℕ} {bs : Bytes} {m m' : MessageStream δ}
    (h : recv type m = .done bs m') (hn : packUInt type n = some bs) :
    recvInt recv type m = .done n m' := by
  simp only [recvInt, Coro.bind_apply, Coro.tryCatch_apply, h, Run.handle_done, Run.bind_done,
    unpackUInt_pack hn, Coro.pure_apply]

/-- Behind the last frame no length is read. -/
theorem recvInt_nil {m : MessageStream δ} (hp : m.source.pending = []) :
    (∃ e s, recvInt recv 4 m = .raised e { m with source := s }) ∨
      ∃ s, recvInt recv 4 m = .blocked { m with source := s } := by
  cases he : m.source.ending with
  | closed =>
    exact .inl ⟨.valueError,m.source.advance 0,by
      simp [recvInt, recv, sockRecv, m.source.recv_closed 4 hp he, unpackUInt]⟩
  | reset =>
    exact .inl ⟨.valueError,m.source,by
      simp [recvInt, recv, sockRecv, m.source.recv_reset (by decide : 4 ≠ 0) hp he]⟩
  | silent =>
    exact .inr ⟨m.source,by simp [recvInt, recv, sockRecv, m.source.recv_silent (by decide : 4 ≠ 0) hp he]⟩

end MessageStream

namespace ProcessDataHandler
open MessageStream

variable {u : Umsgpack} {dataDispatcher : StreamDataEvent → Coro Exn δ Unit}
  {finalizer : MessageStream δ → Bool} {sent : List Sent} {m : MessageStream δ}

/-- A message that `WireData` can have packed, and that the dispatcher gets done with. -/
structure Deliverable (u : Umsgpack) (dataDispatcher : StreamDataEvent → Coro Exn δ Unit)
    (w : WireData) : Prop where
  admissible : w.Admissible
  nonempty : w.toBytes u ≠ some []
  answered : ∀ d, ∃ d', dataDispatcher ⟨w⟩ d = .done () d'

/-- One round takes one frame from the stream and hands over what is in it. -/
theorem processOnce_frame {f : Sent} (ha : m.Accepted u (f::sent))
    (hf : ∀ w, f = .message w → Deliverable u dataDispatcher w) :
    ∃ m', processOnce u dataDispatcher m = .done () m' ∧ m'.Accepted u sent ∧
      m'.handed = m.handed ++ [f].filterMap Sent.message? := by
  obtain ⟨data,size,others,hd,hs,ho,hp⟩ := Sent.stream_cons ha.pending
  have hlen := packUInt_length hs
  have hsize : size ≠ [] := by rintro rfl; cases hlen
  have hi := recv_whole size ha.exact hp hsize
  rw [hlen] at hi
  have hi := recvInt_of_recv hi hs
  have hp' : (m.source.advance 4).pending = data ++ others := by
    rw [Source.advance_pending, hp, List.drop_left' hlen]
  cases f with
  | keepAlive =>
    cases hd
    refine ⟨{ m with source := m.source.advance 4 },?_,⟨ho.trans (congrArg some hp'.symm),ha.exact⟩,?_⟩
    · simp only [processOnce, Coro.bind_apply, hi, Run.bind_done, List.length_nil, le_refl, if_true,
        Coro.pure_apply]
    · exact (List.append_nil _).symm
  | message w =>
    obtain ⟨hw,hne,hans⟩ := hf w rfl
    have hdata : data ≠ [] := by rintro rfl; exact hne hd
    obtain ⟨d',hd'⟩ := hans m.dispatcher
    have hr := recv_whole (m := { m with source := m.source.advance 4 }) data ha.exact hp' hdata
    have hload := WireData.loadFrom_toBytes u hw hd
    have hpos := List.length_pos_iff.mpr hdata
    refine ⟨{ m with
      source := (m.source.advance 4).advance data.length
      dispatcher := d'
      handed := m.handed ++ [w] },?_,⟨?_,ha.exact⟩,rfl⟩
    · simp only [processOnce, Coro.bind_apply, hi, Run.bind_done, Nat.not_le.mpr hpos, if_false, hr,
        hload, Coro.ofExcept_ok, handOver, Coro.modify_apply, Coro.zoom_apply, Coro.waitFor_apply,
        hd', Run.expire_done, Run.within_done]
    · rw [Source.advance_pending, hp', List.drop_left]
      exact ho

/-- As long as the stop flag lets it, the loop hands over every message of the stream. -/
theorem loop_hands_all (hfin : ∀ m, finalizer m = true) (ha : m.Accepted u sent)
    (hw : ∀ w, .message w ∈ sent → Deliverable u dataDispatcher w) :
    HandsAll (loop u dataDispatcher finalizer) sent m := by
  unfold HandsAll
  induction sent generalizing m with
  | nil =>
    have hp : m.source.pending = [] := (Option.some.inj ha.pending).symm
    rw [loop_eq, if_pos (hfin m)]
    rcases recvInt_nil hp with ⟨e,s,hi⟩ | ⟨s,hi⟩
    · simp [processOnce, hi]
    · simp [processOnce, hi]
  | cons f sent ih =>
    obtain ⟨m',hr,ha',hh⟩ := processOnce_frame ha fun w hf => hw w (hf ▸ List.mem_cons_self)
    rw [loop_eq, if_pos (hfin m), hr, Run.bind_done,
      ih ha' fun w hm => hw w (List.mem_cons_of_mem _ hm), hh, List.append_assoc,
      ← List.filterMap_append, List.singleton_append]

theorem handler_handed (u : Umsgpack) (dataDispatcher : StreamDataEvent → Coro Exn δ Unit)
    (finalizer : MessageStream δ → Bool) (m : MessageStream δ) :
    (handler u dataDispatcher finalizer m).state.handed =
      (loop u dataDispatcher finalizer m).state.handed := by
  unfold handler
  cases loop u dataDispatcher finalizer m <;> rfl

/-- What the handler is for: with a stop flag that lets it go on, it hands over every message. -/
theorem handler_hands_all (hfin : ∀ m, finalizer m = true) (ha : m.Accepted u sent)
    (hw : ∀ w, .message w ∈ sent → Deliverable u dataDispatcher w) :
    HandsAll (handler u dataDispatcher finalizer) sent m :=
  (handler_handed u dataDispatcher finalizer m).trans (loop_hands_all hfin ha hw)

end ProcessDataHandler

/-- The stop flag is passed the wrong way round: while the application is not finalizing, the loop
ends before its first round, and the dispatcher gets every message only if there is none. -/
theorem hands_all_iff_no_message (u : Umsgpack) (dataDispatcher : StreamDataEvent → Coro Exn δ Unit)
    {sent : List Sent} {m : MessageStream δ} (hf : m.finalizing = false) :
    MessageStream.HandsAll (initiateAcceptor.dataHandler u dataDispatcher) sent m ↔
      sent.filterMap Sent.message? = [] := by
  have hend : initiateAcceptor.dataHandler u dataDispatcher m = .done () { m with closed := true } := by
    simp only [initiateAcceptor.dataHandler, ProcessDataHandler.handler,
      ProcessDataHandler.loop_eq _ _ _ m, hf, Bool.false_eq_true, if_false]
  rw [MessageStream.HandsAll, hend, Run.state_done, List.self_eq_append_right]

/-- A connection on which a peer has sent the blank packet behind an empty frame. -/
def blankStream : MessageStream (Dispatcher StreamDataEvent) where
  source := ⟨[0,0,0,0,0,0,0,6,0x95,0xc0,0xc0,0xc0,0x80,0xc0],.closed,Cut.whole,0⟩
  dispatcher := {}
  finalizing := false

theorem blankStream_accepted :
    blankStream.Accepted blankCodec [.keepAlive,.message ⟨.nil,.nil,.nil,[],.nil⟩] := ⟨rfl,rfl⟩

/-- The message on it is not handed over. -/
theorem hands_all_iff_no_message_blank :
    ¬ MessageStream.HandsAll (initiateAcceptor.dataHandler blankCodec StreamDataDispatcher.submit)
      [.keepAlive,.message ⟨.nil,.nil,.nil,[],.nil⟩] blankStream := by
  rw [hands_all_iff_no_message _ _ rfl]
  exact List.cons_ne_nil _ _

theorem blank_message_not_handed :
    ¬ ∀ (u : Umsgpack) (sent : List Sent) (m : MessageStream (Dispatcher StreamDataEvent)),
      m.Accepted u sent → m.finalizing = false →
      MessageStream.HandsAll (initiateAcceptor.dataHandler u StreamDataDispatcher.submit) sent m := by
  intro h
  have hh := h blankCodec _ _ blankStream_accepted rfl
  unfold MessageStream.HandsAll initiateAcceptor.dataHandler ProcessDataHandler.handler at hh
  rw [ProcessDataHandler.loop_eq] at hh
  cases hh

end PeerConnect.Core
