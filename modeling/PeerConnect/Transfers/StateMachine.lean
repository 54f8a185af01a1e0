import PeerConnect.Transfers.Handle
import PeerConnect.Transfers.ReceivingTask
import PeerConnect.Transfers.Resume

/-! The state machine of `files.Sender` and that of `files.Receiver`. -/
namespace PeerConnect.Transfers
open Library Wire Coro

/-- Where a coroutine of a sender is suspended: `continue_transfer` at the offset of its file, or
`send_files`, with the end of its range. -/
inductive SenderPoint
  | syncing (index : ℕ)
  | sending (stop : ℕ) (p : SendPoint)

namespace SenderHandle

def call : HandleCall → Coro Exn SenderHandle Unit
  | .pause => pause
  | .resume => resume
  | .cancel => cancel
  | .attachFiles pathsList => attachFiles pathsList

def startSending : Coro Exn SenderHandle (Option SenderPoint) := do
  let (stop,p) ← sendFiles
  pure (p.map (.sending stop))

/-- `continue_transfer`, up to the offset of the current file. -/
def continueTransfer : Coro Exn SenderHandle (Option SenderPoint) := do
  let h ← Coro.get id
  if h.state ≠ .paused ∨ h.toStop then Coro.raise .invalidStateError
  else do
    Coro.modify (setState .sending)
    let _ ← file h.currentFileIndex
    if h.connectionMade then pure (some (.syncing h.currentFileIndex)) else Coro.raise .typeError

/-- `_raise_transfer_incomplete_and_change_state` -/
def raiseTransferIncomplete {β : Type} : Coro Exn SenderHandle β := do
  Coro.modify (setState .paused)
  Coro.raise .transferIncomplete

/-- What `continue_transfer` does with the bytes of the offset. -/
def synced (index : ℕ) (bytedInt : Bytes) : Coro Exn SenderHandle (Option SenderPoint) :=
  match unpackUInt 8 bytedInt with
  | none => raiseTransferIncomplete
  | some seeked => do
    Coro.modify (setSeeked index seeked)
    let f ← file index
    Coro.ofExcept (statusSetup (.int f.seeked) (.int f.size))
    startSending

/-- A task of the handle at an answer. What `send_func` answers is not looked at. -/
def goOnAt (u : Umsgpack) (answer : Bytes) : SenderPoint → Coro Exn SenderHandle (Option SenderPoint)
  | .syncing index => synced index answer
  | .sending stop p => do
    let q ← goOn u stop p
    pure (q.map (.sending stop))

/-- Something that is raised where a task of the handle is suspended. Where it has yielded, its
generator is closed. -/
def interruptAt : SenderPoint → Raised → Coro Exn SenderHandle Unit
  | .syncing _, .exception e =>
    if e = .valueError ∨ e = .connectionReset then raiseTransferIncomplete else Coro.raise e
  | .syncing _, .cancelled => pure ()
  | .sending _ (.yielded _ _), _ => pure ()
  | .sending _ _, x => interrupt x

def kind (u : Umsgpack) : HandleKind SenderHandle SenderPoint Bytes where
  state := SenderHandle.state
  made := SenderHandle.connectionMade
  connectionMade h := { h with connectionMade := true }
  call := call
  start := startSending
  continueTransfer := continueTransfer
  goOn _ := goOnAt u
  interrupt := interruptAt
  yielded
    | .sending _ (.yielded _ _) => true
    | _ => false

/-- `continue_transfer` has no connection or no file to continue with; a header cannot be packed or an
empty file not be mapped; or what is raised has no handler. -/
def faults (u : Umsgpack) : HandleFaults SenderHandle SenderPoint Bytes where
  atCall h := h.state = .paused ∧ h.toStop = false ∧
    (h.connectionMade = false ∨ h.fileList.length ≤ h.currentFileIndex)
  atAnswer h _
    | .syncing _ => False
    | .sending _ p => p.Fails u h
  atInterrupt
    | .syncing _, x => x ≠ .exception .valueError ∧ x ≠ .exception .connectionReset
    | .sending _ (.yielded _ _), _ => False
    | .sending _ _, x => x.pauses = false

/-- A handle keeps its connection and its files. -/
def Develops (h h' : SenderHandle) : Prop :=
  (h.connectionMade = true → h'.connectionMade = true) ∧ h.fileList.length ≤ h'.fileList.length

instance : Std.Refl Develops := ⟨fun _ => ⟨id,le_rfl⟩⟩
instance : IsTrans SenderHandle Develops :=
  ⟨fun _ _ _ h h' => ⟨fun hc => h'.1 (h.1 hc),h.2.trans h'.2⟩⟩

/-- The points of `continue_transfer`. -/
def Known (h : SenderHandle) : SenderPoint → Prop
  | .syncing index => h.connectionMade = true ∧ index < h.fileList.length
  | .sending stop p => h.connectionMade = true ∧ stop ≤ h.fileList.length ∧ p.Valid h

theorem Known.develops {h h' : SenderHandle} (hd : Develops h h') {p : SenderPoint}
    (hp : Known h p) : Known h' p := by
  cases p with
  | syncing index => exact ⟨hd.1 hp.1,hp.2.trans_le hd.2⟩
  | sending stop p =>
    obtain ⟨hc,hstop,hsync,hindex⟩ := hp
    exact ⟨hd.1 hc,hstop.trans hd.2,hsync,fun i hi => (hindex i hi).trans_le hd.2⟩

section Develops

theorem develops_setState (st : TransferState) :
    Moves Develops (Coro.modify (setState st) : Coro Exn SenderHandle Unit) :=
  .modify fun _ => ⟨id,le_rfl⟩

theorem develops_setSeeked (index n : ℕ) :
    Moves Develops (Coro.modify (setSeeked index n) : Coro Exn SenderHandle Unit) :=
  .modify fun h => ⟨id,by simp [setSeeked]⟩

theorem develops_handleException {α : Type} (e : Exn) :
    Moves Develops (handleException e : Coro Exn SenderHandle α) :=
  .ite (fun _ => .bind (develops_setState _) fun _ => .raise _) fun _ => .raise _

theorem develops_raiseTransferIncomplete {β : Type} :
    Moves Develops (raiseTransferIncomplete : Coro Exn SenderHandle β) :=
  .bind (develops_setState _) fun _ => .raise _

theorem develops_calling (p : SendPoint) : Moves Develops (calling p) :=
  .bind (.get _) fun _ => .ite (fun _ => .pure _) fun _ => develops_handleException _

theorem develops_file (index : ℕ) : Moves Develops (file index) := by
  refine .bind (.get _) fun f => ?_
  cases f with
  | none => exact .raise _
  | some f => exact .pure f

theorem develops_nextFile (stop index : ℕ) : Moves Develops (nextFile stop index) :=
  .bind (.get _) fun _ => .ite
    (fun _ => .bind (.modify fun _ => ⟨id,le_rfl⟩) fun _ => develops_calling _)
    fun _ => develops_calling _

theorem develops_nextChunk (stop index offset : ℕ) : Moves Develops (nextChunk stop index offset) :=
  .bind (develops_file _) fun _ => .ite (fun _ => .pure _) fun _ => develops_nextFile _ _

theorem develops_goOn (u : Umsgpack) (stop : ℕ) (p : SendPoint) : Moves Develops (goOn u stop p) := by
  cases p with
  | syncing => exact .pure _
  | tag index =>
    exact .bind (develops_file _) fun _ => .bind (.tryCatch (.ofExcept _) develops_handleException)
      fun _ => develops_calling _
  | header index => exact .pure _
  | opening index =>
    refine .bind (develops_file _) fun f => .bind (.tryCatch (.bind (.ofExcept _) fun _ => ?_)
      develops_handleException) fun _ => develops_nextChunk _ _ _
    exact .ite (fun _ => .raise _) fun _ => .pure _
  | reading index offset => exact develops_calling _
  | chunk index offset =>
    exact .bind (develops_file _) fun _ => .bind (develops_setSeeked _ _) fun _ =>
      .bind (.get _) fun _ => .ite (fun _ => develops_nextFile _ _) fun _ => .pure _
  | yielded index offset => exact .bind (develops_file _) fun _ => develops_nextChunk _ _ _
  | final => exact .bind (develops_setState _) fun _ => .pure _

theorem develops_startSending : Moves Develops startSending :=
  .bind (.bind (develops_setState _) fun _ => .bind (.get _) fun _ => .bind (develops_nextFile _ _)
    fun _ => .pure _) fun _ => .pure _

theorem develops_synced (index : ℕ) (bytedInt : Bytes) : Moves Develops (synced index bytedInt) := by
  unfold synced
  split
  · exact develops_raiseTransferIncomplete
  · exact .bind (develops_setSeeked _ _) fun _ => .bind (develops_file _) fun _ =>
      .bind (.ofExcept _) fun _ => develops_startSending

theorem develops_goOnAt (u : Umsgpack) (answer : Bytes) (p : SenderPoint) :
    Moves Develops (goOnAt u answer p) := by
  cases p with
  | syncing index => exact develops_synced index answer
  | sending stop p => exact .bind (develops_goOn u stop p) fun _ => .pure _

theorem develops_interruptAt (p : SenderPoint) (x : Raised) : Moves Develops (interruptAt p x) := by
  cases p with
  | syncing index =>
    cases x with
    | exception e => exact .ite (fun _ => develops_raiseTransferIncomplete) fun _ => .raise _
    | cancelled => exact .pure _
  | sending stop p =>
    have hinterrupt : Moves Develops (interrupt x) := by
      cases x with
      | exception e => exact develops_handleException e
      | cancelled => exact .pure _
    cases p with
    | yielded index offset => exact .pure _
    | _ => exact hinterrupt

theorem develops_continueTransfer : Moves Develops continueTransfer :=
  .bind (.get _) fun _ => .ite (fun _ => .raise _) fun _ => .bind (develops_setState _) fun _ =>
    .bind (develops_file _) fun _ => .ite (fun _ => .pure _) fun _ => .raise _

theorem develops_call (c : HandleCall) : Moves Develops (call c) := by
  intro h
  have hcalled : ∀ c : SenderCall, Develops h (c.run h).state := fun c =>
    ⟨fun hc => (called h c).connectionMade.trans hc,(called h c).fileList⟩
  cases c with
  | pause => exact hcalled .pause
  | resume => exact hcalled .resume
  | cancel => exact hcalled .cancel
  | attachFiles pathsList => exact hcalled (.attachFiles pathsList)

end Develops

section Lawful
variable {u : Umsgpack} {h : SenderHandle}

theorem startSending_known (hc : h.connectionMade = true) :
    ∃ q h', startSending h = .done (some q) h' ∧ Known h' q := by
  have hstop : h.fileList.length ≤ (h.setState .sending).fileList.length := le_rfl
  obtain ⟨p,h',hr,hp,_,hc',hlength⟩ := nextFile_continues (h := h.setState .sending) hc hstop
    h.currentFileIndex
  refine ⟨.sending h.fileList.length p,h',?_,hc',hlength.ge,hp⟩
  have hcurrent : (h.setState .sending).currentFileIndex = h.currentFileIndex := rfl
  have hfiles : (h.setState .sending).fileList = h.fileList := rfl
  simp [startSending, sendFiles, hcurrent, hfiles, hr]

/-- The offset is one to go on from, or it pauses the handle. -/
theorem synced_cases {index : ℕ} (hp : Known h (.syncing index)) (bytedInt : Bytes) :
    synced index bytedInt h = .raised .transferIncomplete (h.setState .paused) ∨
    ∃ q h', synced index bytedInt h = .done (some q) h' ∧ Known h' q := by
  obtain ⟨hc,hindex⟩ := hp
  cases hint : unpackUInt 8 bytedInt with
  | none => exact .inl (by simp [synced, hint, raiseTransferIncomplete])
  | some seeked =>
    have hget : (h.setSeeked index seeked).fileList[index]? =
        some (LocalFile.setSeeked seeked h.fileList[index]) := by
      simp [setSeeked, hindex]
    obtain ⟨q,h',hr,hq⟩ := startSending_known (h := h.setSeeked index seeked) hc
    have hstatus := statusSetup_int (LocalFile.setSeeked seeked h.fileList[index]).size_fits
    refine .inr ⟨q,h',?_,hq⟩
    simp [synced, hint, file_apply hget, hstatus, hr]

theorem continues (u : Umsgpack) (h : SenderHandle) :
    (kind u).Continues Known ((faults u).atCall h) h (continueTransfer h) := by
  by_cases hguard : h.state ≠ .paused ∨ h.toStop = true
  · have hr : continueTransfer h = .raised .invalidStateError h := by simp [continueTransfer, hguard]
    rw [hr]
    refine .refused ?_
    rintro ⟨hs,hstop,_⟩
    simp [hs, hstop] at hguard
  · obtain ⟨hs,hstop⟩ : h.state = .paused ∧ h.toStop = false := by simpa using hguard
    by_cases hindex : h.fileList.length ≤ h.currentFileIndex
    · have hr : continueTransfer h = .raised .indexError (h.setState .sending) := by
        simp [continueTransfer, hs, hstop, file, setState, hindex]
      rw [hr]
      exact .failed ⟨hs,hstop,.inr hindex⟩ hs (by rintro ⟨⟩)
    · obtain ⟨f,hget⟩ : ∃ f, (h.setState .sending).fileList[h.currentFileIndex]? = some f :=
        ⟨_,List.getElem?_eq_getElem (not_le.mp hindex)⟩
      cases hc : h.connectionMade with
      | false =>
        have hr : continueTransfer h = .raised .typeError (h.setState .sending) := by
          simp [continueTransfer, hs, hstop, file_apply hget, hc]
        rw [hr]
        exact .failed ⟨hs,hstop,.inl hc⟩ hs (by rintro ⟨⟩)
      | true =>
        have hr : continueTransfer h =
            .done (some (.syncing h.currentFileIndex)) (h.setState .sending) := by
          simp [continueTransfer, hs, hstop, file_apply hget, hc]
        rw [hr]
        refine .begun ?_ hs ⟨hc,not_le.mp hindex⟩
        rintro ⟨_,_,hc' | hindex'⟩
        · cases hc.symm.trans hc'
        · exact hindex hindex'

theorem pause_apply (h : SenderHandle) : pause h =
    if h.connectionMade then .done () (h.setState .paused)
    else .raised .attributeError (h.setState .paused) := by
  simp only [pause, functions, bind_apply, modify_apply, Run.bind_done, get_apply, Coro.ite_apply,
    raise_apply, pure_apply, setState]

theorem resume_apply (h : SenderHandle) (hs : h.state = .paused) : resume h =
    if h.connectionMade then .done () (h.setState .sending)
    else .raised .attributeError (h.setState .sending) := by
  simp only [resume, functions, bind_apply, modify_apply, Run.bind_done, get_apply, Coro.ite_apply,
    raise_apply, pure_apply, setState, hs, ne_eq, not_true_eq_false, if_false]

theorem answers {p : SenderPoint} (hp : Known h p) (answer : Bytes) :
    (kind u).Answers Known ((faults u).atAnswer h answer p) h (goOnAt u answer p h) := by
  cases p with
  | syncing index =>
    rw [goOnAt]
    rcases synced_cases hp answer with hr | ⟨q,h',hr,hq⟩
    · rw [hr]
      exact .paused id rfl
    · rw [hr]
      exact .done id fun p hp => by cases hp; exact hq
  | sending stop p =>
    obtain ⟨hc,hstop,hvalid⟩ := hp
    simp only [goOnAt, bind_apply]
    rcases goOn_cases (u := u) hc hstop hvalid with
      ⟨_,hfails,q,h',hr,hq,_,hc',hlength⟩ | ⟨rfl,hr⟩ | ⟨_,hfails,e,hr,_⟩
    · rw [hr]
      exact .done hfails fun p hp => by cases hp; exact ⟨hc',hstop.trans_eq hlength.symm,hq⟩
    · rw [hr]
      exact .done id nofun
    · rw [hr]
      exact .failed hfails rfl

theorem interruptAt_state {p : SenderPoint} (hy : (kind u).yielded p = false) (x : Raised) :
    (interruptAt p x h).state.state = .paused ↔ ((faults u).atInterrupt p x → h.state = .paused) := by
  have hraised {b : Prop} (hb : b) : h.state = .paused ↔ (b → h.state = .paused) :=
    ⟨fun hs _ => hs,fun hs => hs hb⟩
  cases p with
  | syncing index =>
    cases x with
    | cancelled => exact hraised ⟨nofun,nofun⟩
    | exception e =>
      by_cases he : e = .valueError ∨ e = .connectionReset
      · have hr : interruptAt (.syncing index) (.exception e) h =
            .raised .transferIncomplete (h.setState .paused) := by
          simp [interruptAt, he, raiseTransferIncomplete]
        rw [hr]
        refine iff_of_true rfl fun hfault => ?_
        rcases he with rfl | rfl
        · exact absurd rfl hfault.1
        · exact absurd rfl hfault.2
      · have hr : interruptAt (.syncing index) (.exception e) h = .raised e h := by
          simp [interruptAt, he]
        rw [hr]
        exact hraised ⟨fun h' => he (.inl (Raised.exception.inj h')),
          fun h' => he (.inr (Raised.exception.inj h'))⟩
  | sending stop p =>
    have hinterrupt : (interrupt x h).state.state = .paused ↔
        (x.pauses = false → h.state = .paused) := by
      cases x with
      | cancelled => exact hraised rfl
      | exception e =>
        cases he : (Raised.exception e).pauses with
        | true =>
          rw [interrupt, handleException_paused he]
          exact iff_of_true rfl nofun
        | false =>
          rw [interrupt, handleException_raised he]
          exact hraised rfl
    cases p with
    | yielded index offset => cases hy
    | _ => exact hinterrupt

theorem lawful (u : Umsgpack) : (kind u).Lawful (faults u) Known Develops where
  known hd hp := hp.develops hd
  call := develops_call
  connectionMade _ := ⟨fun _ => rfl,le_rfl⟩
  start := develops_startSending
  continueTransfer := develops_continueTransfer
  goOn _ := develops_goOnAt u
  interrupt := develops_interruptAt
  pause_state h := by
    simp only [kind, call, pause_apply]
    split <;> rfl
  pause_raises h := by
    simp only [kind, call, pause_apply]
    cases h.connectionMade <;> simp
  resume_idle h hs := by
    have hs' : h.state ≠ .paused := hs
    simp [kind, call, resume, hs']
  resume_state h hs := by
    simp only [kind, call, resume_apply h hs]
    split <;> rintro ⟨⟩
  resume_raises h hs := by
    simp only [kind, call, resume_apply h hs]
    cases h.connectionMade <;> simp
  cancel h := by
    simp only [kind, call, cancel, bind_apply, get_apply, Run.bind_done, Coro.ite_apply]
    split <;> rfl
  attachFiles paths h := by
    simp only [kind, call, attachFiles, bind_apply, get_apply, Run.bind_done, Coro.ite_apply]
    split <;> rfl
  continues := continues u
  answers h a p hp := answers hp a
  interrupt_yielded p x hy := by
    cases p with
    | syncing index => cases hy
    | sending stop p =>
      cases p with
      | yielded index offset => exact id
      | _ => cases hy
  interrupt_state h p x _ hy := interruptAt_state hy x

end Lawful

end SenderHandle

namespace Receiver.Task

def call : HandleCall → Coro Exn World Unit
  | .pause => pause
  | .resume => resume
  | .cancel => cancel
  | .attachFiles _ => Coro.raise .attributeError

/-- A task of the handle at an answer, which is what its connection has. -/
def goOnAt (u : Umsgpack) (continued : Bool) (source : Source UInt8) (p : RecvPoint) :
    Coro Exn World (Option RecvPoint) := do
  Coro.modify fun w => { w with source := source }
  goOn u continued p

def kind (u : Umsgpack) : HandleKind World RecvPoint (Source UInt8) where
  state w := w.rx.state
  made w := w.rx.connectionMade
  connectionMade w := { w with rx := { w.rx with connectionMade := true } }
  call := call
  start := recvFiles
  continueTransfer := continueTransfer
  goOn := goOnAt u
  interrupt := interrupt
  yielded
    | .yielded _ _ => true
    | _ => false

/-- There is no current file, or its offset cannot be packed. -/
def Untellable (w : World) : Prop := ∀ item ∈ w.rx.currentFile, ∀ bs, packSeeked item.seeked ≠ .ok bs

/-- Something is missing of the current file and the transfer has not been stopped. -/
def Unfinished (w : World) : Prop :=
  ∀ item ∈ w.rx.currentFile, 0 < gap item ∧ w.rx.toStop = false

/-- An item that is not received: its size cannot be compared, it cannot be touched, it has no name, its
progress cannot be shown, or its file not be opened for another reason than an `OSError`. -/
def ItemFault (w : World) (item : FileItem) : Prop :=
  match item.size.atMostZero with
  | none => True
  | some true => ∃ e fs, FileSystem.touch item.path w.fs = .raised e fs
  | some false => item.path = [] ∨ (∃ e, statusSetup item.seeked item.size = .error e) ∨
    ∃ e w', setupTransfer 0 (w.append (validated w item)) = .raised e w' ∧
      (Raised.exception e).pauses = false

/-- The header cannot be read, or its item not be received. -/
def HeaderFault (u : Umsgpack) (n : ℕ) (w : World) : Prop :=
  (∃ e w', recvHeader u n w = .raised e w' ∧ (Raised.exception e).pauses = false) ∨
    ∃ item w', recvHeader u n w = .done item w' ∧ ItemFault w' item

def faults (u : Umsgpack) : HandleFaults World RecvPoint (Source UInt8) where
  atCall w := w.rx.state = .paused ∧ w.rx.toStop = false ∧ w.rx.connectionMade = true ∧ Untellable w
  atAnswer w source
    | .reconnecting => w.rx.connectionMade = true ∧ Untellable w
    | .header n => HeaderFault u n { w with source := source }
    | .contents _ _ => source.pending = [] ∧ source.ending = .closed ∧ Unfinished w
    | .yielded _ r => (w.rx.toStop = true ∨ r.remainingBytes ≤ 0) ∧ Unfinished w
    | _ => False
  atInterrupt
    | .yielded _ _, _ => False
    | _, .cancelled => True
    | .connecting, _ | .reconnecting, _ => True
    | .length, .exception e => (Raised.exception (lengthError e)).pauses = false
    | .header _, .exception e => (Raised.exception (headerError e)).pauses = false
    | _, x => x.pauses = false

/-- The points of `continue_transfer`. -/
def Known : RecvPoint → Prop
  | .connecting | .tag => False
  | .contents _ r => 0 < r.chunkSize ∧ 0 < r.remainingBytes
  | .writing _ r _ | .yielded _ r => 0 < r.chunkSize
  | _ => True

/-- What a step of `continue_transfer` comes to, which begins in this world. -/
def Answers (u : Umsgpack) (fault : Prop) (w : World) (r : Run Exn World (Option RecvPoint)) : Prop :=
  (kind u).Answers (fun _ p => Known p) fault w r

section Answers
variable {u : Umsgpack} {w : World} {fault : Prop}

theorem Answers.congr {fault' : Prop} {w' : World} {r : Run Exn World (Option RecvPoint)}
    (h : Answers u fault w r) (hf : fault ↔ fault') (hs : w.rx.state = w'.rx.state) :
    Answers u fault' w' r := by
  cases h with
  | done hn hq => exact .done (hf.not.mp hn) hq
  | failed hn h' => exact .failed (hf.mp hn) (h'.trans hs)
  | paused hn h' => exact .paused (hf.not.mp hn) h'
  | blocked hn => exact .blocked (hf.not.mp hn)

/-- A handled part fails where its exception does not pause the handle. -/
theorem Answers.handled {α : Type} {x : Coro Exn World α} (fault : Prop) (hx : Moves SameHandle x) (f : Exn → Exn)
    {k : α → World → Run Exn World (Option RecvPoint)}
    (hdone : ∀ a w', x w = .done a w' → w'.rx = w.rx → Answers u fault w' (k a w'))
    (hraised : ∀ e w', x w = .raised e w' → (fault ↔ (Raised.exception (f e)).pauses = false))
    (hblocked : ∀ w', x w = .blocked w' → ¬ fault) :
    Answers u fault w ((tryCatch x (fun e => handleException (f e)) w).bind k) := by
  have hrx : (x w).state.rx = w.rx := hx w
  rw [tryCatch_apply]
  cases hr : x w with
  | done a w' =>
    rw [hr] at hrx
    exact (hdone a w' hr hrx).congr Iff.rfl (congrArg Receiver.state hrx)
  | raised e w' =>
    rw [hr] at hrx
    have hiff := hraised e w' hr
    rw [Run.handle_raised]
    cases he : (Raised.exception (f e)).pauses with
    | true =>
      rw [handleException_paused he]
      exact .paused (fun hf => by rw [he] at hiff; cases hiff.mp hf) rfl
    | false =>
      rw [handleException_raised he]
      exact .failed (hiff.mpr he) (congrArg Receiver.state hrx)
  | blocked w' => exact .blocked (hblocked w' hr)

theorem answers_next (hf : ¬ fault) : Answers u fault w (nextFile true w) := by
  have hr : nextFile true w = .done (some .length) w := by simp [nextFile]
  rw [hr]
  exact .done hf fun p hp => by cases hp; trivial

theorem answers_endOfContents : Answers u (Unfinished w) w (endOfContents true w) := by
  cases hcur : w.rx.currentFile with
  | none =>
    have hr : endOfContents true w = .raised (.other 0) w := by simp [endOfContents, current, hcur]
    rw [hr]
    exact .failed (fun item hitem => by rw [hcur] at hitem; cases hitem) rfl
  | some item =>
    rw [endOfContents_apply true hcur]
    split
    next h => exact .failed (fun item' hitem => by rw [hcur] at hitem; cases hitem; exact h) rfl
    next h => exact answers_next fun hunfinished => h (hunfinished item hcur)

theorem answers_nextChunk {index : ℕ} {r : Reception} (hchunk : 0 < r.chunkSize) :
    Answers u (r.remainingBytes ≤ 0 ∧ Unfinished w) w (nextChunk true index r w) := by
  unfold nextChunk
  rw [Coro.ite_apply]
  split
  next h =>
    exact .done (fun hf => by omega) fun p hp => by cases hp; exact ⟨hchunk,h⟩
  next h => exact answers_endOfContents.congr (by simp [not_lt.mp h]) rfl

/-- Packing an offset raises nothing that pauses the handle. -/
theorem packSeeked_error {v : Value} {e : Exn} (h : packSeeked v = .error e) :
    (Raised.exception e).pauses = false := by
  unfold packSeeked at h
  split at h
  · split at h <;> cases h
    rfl
  · cases h
    rfl

theorem tellSeeked_cases (w : World) :
    Untellable w ∧ (∃ e, tellSeeked w = .raised e w) ∨
    ¬ Untellable w ∧ ∃ bytes, tellSeeked w = .done (some (.syncing bytes)) w := by
  cases hcur : w.rx.currentFile with
  | none =>
    have he : (Raised.exception (.other 0)).pauses = false := rfl
    refine .inl ⟨fun item hitem => ?_,.other 0,?_⟩
    · rw [hcur] at hitem
      cases hitem
    · simp [tellSeeked, current, hcur, handleException_raised he]
  | some item =>
    cases hpack : packSeeked item.seeked with
    | ok bytes =>
      refine .inr ⟨fun h => h item hcur bytes hpack,bytes,?_⟩
      simp [tellSeeked, current, hcur, hpack]
    | error e =>
      refine .inl ⟨fun item' hitem bytes h => ?_,e,?_⟩
      · rw [hcur] at hitem
        cases hitem
        cases hpack.symm.trans h
      · simp [tellSeeked, current, hcur, hpack, handleException_raised (packSeeked_error hpack)]

theorem answers_tellSeeked (w : World) : Answers u (Untellable w) w (tellSeeked w) := by
  rcases tellSeeked_cases w with ⟨hf,e,hr⟩ | ⟨hf,bytes,hr⟩
  · rw [hr]
    exact .failed hf rfl
  · rw [hr]
    exact .done hf fun p hp => by cases hp; trivial

theorem answers_receiveItem (item : FileItem) :
    Answers u (ItemFault w item) w (receiveItem true item w) := by
  cases hsize : item.size.atMostZero with
  | none =>
    rw [receiveItem_unordered true hsize]
    exact .failed (by simp [ItemFault, hsize]) rfl
  | some b =>
    cases b with
    | true =>
      have hfault : ItemFault w item ↔ ∃ e fs, FileSystem.touch item.path w.fs = .raised e fs := by
        simp [ItemFault, hsize]
      rw [receiveItem_empty true hsize]
      simp only [onDisk, zoom_apply, World.append_fs]
      cases htouch : FileSystem.touch item.path w.fs with
      | done _ fs =>
        exact (answers_next (by rintro ⟨_,_,h⟩; cases htouch.symm.trans h)).congr hfault.symm rfl
      | raised e fs => exact .failed (hfault.mpr ⟨e,fs,htouch⟩) rfl
      | blocked fs =>
        exact .blocked fun h => by obtain ⟨_,_,h⟩ := hfault.mp h; cases htouch.symm.trans h
    | false =>
      by_cases hp : item.path = []
      · obtain ⟨w',hr,hstate,_⟩ := receiveItem_unnamed (w := w) true hsize hp
        rw [hr]
        exact .failed (by simp [ItemFault, hsize, hp]) hstate
      · have hfault : ItemFault w item ↔ (∃ e, statusSetup item.seeked item.size = .error e) ∨
            ∃ e w', setupTransfer 0 (w.append (validated w item)) = .raised e w' ∧
              (Raised.exception e).pauses = false := by
          simp [ItemFault, hsize, hp]
        rw [receiveItem_named true hsize hp]
        cases hstatus : statusSetup item.seeked item.size with
        | error e => exact .failed (hfault.mpr (.inl ⟨e,hstatus⟩)) rfl
        | ok _ =>
          have hfault' : (∃ e w', setupTransfer 0 (w.append (validated w item)) = .raised e w' ∧
              (Raised.exception e).pauses = false) ↔ ItemFault w item := by
            simp [hfault, hstatus]
          refine (Answers.handled (w := w.append (validated w item)) _ (sameHandle_setupTransfer 0) id
            (fun r w' hr hrx => ?_) (fun e w' hr => ?_) (fun w' hr => ?_)).congr hfault' rfl
          · obtain ⟨item',hitem',_,hseek,hremaining,hchunk⟩ := setupTransfer_done hr
            have hcur : w'.rx.currentFile = some item' := by rw [hrx]; exact hitem'
            refine (answers_nextChunk hchunk).congr (iff_of_false ?_ ?_) rfl
            · -- what is left to receive is what is missing of the file
              rintro ⟨hle,hunfinished⟩
              have hgap := (hunfinished item' hcur).1
              rw [hremaining] at hle
              rw [gap, seek_ok hseek, Option.getD_some] at hgap
              omega
            · rintro ⟨e,w'',hr',_⟩
              cases hr.symm.trans hr'
          · refine ⟨?_,fun he => ⟨e,w',hr,he⟩⟩
            rintro ⟨e',w'',hr',he⟩
            cases hr.symm.trans hr'
            exact he
          · rintro ⟨e,w'',hr',_⟩
            cases hr.symm.trans hr'

theorem recvFunc_raised {n : ℕ} {e : Exn} {w' : World} (h : recvFunc n w = .raised e w') :
    e = .connectionReset := by
  rcases recvFunc_cases n w with ⟨_,_,hr,_⟩ | ⟨_,⟨_,_,hr⟩ | ⟨_,hr⟩ | ⟨_,hr⟩⟩
  · cases h.symm.trans hr
  · cases h.symm.trans hr
  · cases h.symm.trans hr
    rfl
  · cases h.symm.trans hr

theorem recvInt_raised {n : ℕ} {e : Exn} {w' : World} (h : recvInt n w = .raised e w') :
    e = .valueError := by
  simp only [recvInt, bind_apply, tryCatch_apply] at h
  cases hr : recvFunc n w with
  | raised e' w'' =>
    obtain rfl := recvFunc_raised hr
    rw [hr] at h
    cases h
    rfl
  | blocked w'' => rw [hr] at h; cases h
  | done bytes w'' =>
    rw [hr, Run.handle_done, Run.bind_done] at h
    cases hu : unpackUInt n bytes <;> rw [hu] at h <;> cases h
    rfl

/-- The answers to `continue_transfer`, where its connection has what it is given. -/
theorem answers_goOn (u : Umsgpack) {p : RecvPoint} (hp : Known p) (source : Source UInt8) :
    Answers u ((faults u).atAnswer w source p) w (goOnAt u true source p w) := by
  set w₁ : World := { w with source := source } with hw₁
  have hgo : goOnAt u true source p w = goOn u true p w₁ := rfl
  rw [hgo]
  cases p with
  | connecting => exact hp.elim
  | tag => exact hp.elim
  | reconnecting =>
    simp only [goOn, awaitConnection, bind_apply, get_apply, Run.bind_done, Coro.ite_apply]
    cases hc : w.rx.connectionMade with
    | false => exact .done (by simp [faults, hc]) fun p hp => by cases hp; trivial
    | true => exact (answers_tellSeeked w₁).congr (by simp [faults, hc, Untellable, hw₁]) rfl
  | syncing seeked =>
    exact (answers_next (w := { w₁ with sent := w₁.sent ++ seeked }) not_false).congr Iff.rfl rfl
  | length =>
    refine (Answers.handled (w := w₁) False (sameHandle_recvInt 4) lengthError
      (fun n w' _ _ => ?_) (fun e w' hr => ?_) (fun _ _ => id)).congr Iff.rfl rfl
    · exact .done id fun p hp => by cases hp; trivial
    · obtain rfl := recvInt_raised hr
      simp [lengthError, Raised.pauses]
  | header n =>
    refine (Answers.handled (w := w₁) (HeaderFault u n w₁) (sameHandle_recvHeader u n) id
      (fun item w' hr _ => ?_) (fun e w' hr => ?_) (fun w' hr => ?_)).congr Iff.rfl rfl
    · refine (answers_receiveItem item).congr ⟨fun h => .inr ⟨item,w',hr,h⟩,?_⟩ rfl
      rintro (⟨_,_,hr',_⟩ | ⟨_,_,hr',h⟩)
      · cases hr.symm.trans hr'
      · cases hr.symm.trans hr'
        exact h
    · refine ⟨?_,fun he => .inl ⟨e,w',hr,he⟩⟩
      rintro (⟨_,_,hr',he⟩ | ⟨_,_,hr',_⟩)
      · cases hr.symm.trans hr'
        exact he
      · cases hr.symm.trans hr'
    · rintro (⟨_,_,hr',_⟩ | ⟨_,_,hr',_⟩) <;> cases hr.symm.trans hr'
  | contents index r =>
    obtain ⟨hchunk,hremaining⟩ := hp
    have hsize : min r.chunkSize r.remainingBytes.toNat ≠ 0 := by omega
    simp only [goOn, bind_apply, tryCatch_apply]
    rcases recvFunc_cases (min r.chunkSize r.remainingBytes.toNat) w₁ with
      ⟨data,s,hr,hpending,hdata⟩ | ⟨hpending,⟨hending,s,hr⟩ | ⟨hending,hr⟩ | ⟨hending,hr⟩⟩
    · have hne : data ≠ [] := fun h => hsize (hdata h)
      rw [hr, Run.handle_done, Run.bind_done, if_neg hne]
      exact .done (fun h => hpending h.1) fun p hp => by cases hp; exact hchunk
    · have hfault : source.pending = [] ∧ source.ending = .closed := ⟨hpending,hending.resolve_right hsize⟩
      rw [hr, Run.handle_done, Run.bind_done, if_pos rfl]
      exact answers_endOfContents.congr (by simp [faults, hfault, Unfinished, hw₁]) rfl
    · rw [hr, Run.handle_raised, handleException_paused rfl]
      exact .paused (fun h => by cases hending.symm.trans h.2.1) rfl
    · rw [hr]
      exact .blocked fun h => by cases hending.symm.trans h.2.1
  | writing index r data =>
    exact .done id fun p hp' => by cases hp'; exact hp
  | yielded index r =>
    simp only [goOn, bind_apply, get_apply, Run.bind_done, Coro.ite_apply]
    split
    next h =>
      have h' : w.rx.toStop = true := h
      exact (answers_endOfContents (w := w₁)).congr (by simp [faults, Unfinished, hw₁, h']) rfl
    next h =>
      have h' : w.rx.toStop = false := by simpa [hw₁] using h
      exact (answers_nextChunk (w := w₁) hp).congr (by simp [faults, Unfinished, hw₁, h']) rfl

end Answers

section Lawful
variable {u : Umsgpack} {w : World}

theorem pause_apply (w : World) : pause w =
    if w.rx.connectionMade then .done () (w.setState .paused)
    else .raised .attributeError (w.setState .paused) := by
  simp only [pause, functions, bind_apply, modify_apply, Run.bind_done, get_apply, Coro.ite_apply,
    raise_apply, pure_apply, World.setState]

theorem resume_apply (w : World) (hs : w.rx.state = .paused) : resume w =
    if w.rx.connectionMade then .done () (w.setState .receiving)
    else .raised .attributeError (w.setState .receiving) := by
  simp only [resume, functions, bind_apply, modify_apply, Run.bind_done, get_apply, Coro.ite_apply,
    raise_apply, pure_apply, World.setState, hs, ne_eq, not_true_eq_false, if_false]

theorem continues (u : Umsgpack) (w : World) :
    (kind u).Continues (fun _ p => Known p) ((faults u).atCall w) w (continueTransfer w) := by
  by_cases hguard : w.rx.state ≠ .paused ∨ w.rx.toStop = true
  · have hr : continueTransfer w = .raised .invalidStateError w := by simp [continueTransfer, hguard]
    rw [hr]
    refine .refused ?_
    rintro ⟨hs,hstop,_⟩
    simp [hs, hstop] at hguard
  · obtain ⟨hs,hstop⟩ : w.rx.state = .paused ∧ w.rx.toStop = false := by simpa using hguard
    have hr : continueTransfer w =
        if w.rx.connectionMade then tellSeeked (w.setState .receiving)
        else .done (some .reconnecting) (w.setState .receiving) := by
      simp [continueTransfer, awaitConnection, hs, hstop, World.setState]
    cases hc : w.rx.connectionMade with
    | false =>
      rw [hr, hc]
      refine .begun (fun hf => ?_) hs trivial
      cases hc.symm.trans hf.2.2.1
    | true =>
      rw [hr, hc, if_pos rfl]
      rcases tellSeeked_cases (w.setState .receiving) with ⟨hf,e,htell⟩ | ⟨hf,bytes,htell⟩
      · rw [htell]
        exact .failed ⟨hs,hstop,hc,hf⟩ hs (by rintro ⟨⟩)
      · rw [htell]
        exact .begun (fun h => hf h.2.2.2) hs trivial

theorem handleException_state (e : Exn) :
    (handleException e w : Run Exn World Unit).state.rx.state = .paused ↔
      ((Raised.exception e).pauses = false → w.rx.state = .paused) := by
  cases he : (Raised.exception e).pauses with
  | true =>
    rw [handleException_paused he]
    exact iff_of_true rfl nofun
  | false =>
    rw [handleException_raised he]
    exact ⟨fun hs _ => hs,fun hs => hs rfl⟩

theorem interrupt_state {p : RecvPoint} (hy : (kind u).yielded p = false) (x : Raised) :
    (interrupt p x w).state.rx.state = .paused ↔
      ((faults u).atInterrupt p x → w.rx.state = .paused) := by
  cases x with
  | cancelled =>
    have hfault : (faults u).atInterrupt p .cancelled := by
      cases p <;> trivial
    exact ⟨fun hs _ => hs,fun hs => hs hfault⟩
  | exception e =>
    cases p with
    | connecting | reconnecting => exact ⟨fun hs _ => hs,fun hs => hs trivial⟩
    | yielded index r => cases hy
    | length => exact handleException_state (lengthError e)
    | header n => exact handleException_state (headerError e)
    | syncing _ | tag | contents _ _ | writing _ _ _ => exact handleException_state e

theorem lawful (u : Umsgpack) :
    (kind u).Lawful (faults u) (fun _ p => Known p) (fun _ _ => True) where
  known _ hp := hp
  call _ _ := trivial
  connectionMade _ := trivial
  start _ := trivial
  continueTransfer _ := trivial
  goOn _ _ _ _ := trivial
  interrupt _ _ _ := trivial
  pause_state w := by
    simp only [kind, call, pause_apply]
    split <;> rfl
  pause_raises w := by
    simp only [kind, call, pause_apply]
    cases w.rx.connectionMade <;> simp
  resume_idle w hs := by
    have hs' : w.rx.state ≠ .paused := hs
    simp [kind, call, resume, hs']
  resume_state w hs := by
    simp only [kind, call, resume_apply w hs]
    split <;> rintro ⟨⟩
  resume_raises w hs := by
    simp only [kind, call, resume_apply w hs]
    cases w.rx.connectionMade <;> simp
  cancel w := by
    simp only [kind, call, cancel, bind_apply, get_apply, Run.bind_done, Coro.ite_apply]
    split <;> rfl
  attachFiles _ _ := rfl
  continues := continues u
  answers _ source _ hp := answers_goOn u hp source
  interrupt_yielded p x hy := by
    cases p with
    | yielded index r => exact id
    | _ => cases hy
  interrupt_state w p x _ hy := interrupt_state hy x

end Lawful

end Receiver.Task

/-- The calls on a handle respect its states in exactly the regular runs. -/
theorem states_respected_iff_regular (u : Umsgpack) :
    (∀ (h : SenderHandle) (es : List (HandleEvent Bytes)),
      Along (SenderHandle.kind u).step (SenderHandle.kind u).Respects ⟨h,[]⟩ es ↔
        Along (SenderHandle.kind u).step
          ((SenderHandle.kind u).Regular (SenderHandle.faults u)) ⟨h,[]⟩ es) ∧
    ∀ (w : World) (es : List (HandleEvent (Source UInt8))),
      Along (Receiver.Task.kind u).step (Receiver.Task.kind u).Respects ⟨w,[]⟩ es ↔
        Along (Receiver.Task.kind u).step
          ((Receiver.Task.kind u).Regular (Receiver.Task.faults u)) ⟨w,[]⟩ es :=
  ⟨fun _ es => HandleKind.respects_iff_regular (SenderHandle.lawful u) rfl es,
    fun _ es => HandleKind.respects_iff_regular (Receiver.Task.lawful u) rfl es⟩

/-- A sender that has sent all its files and is paused then. -/
def pausedBehindItsEnd : List (HandleEvent Bytes) :=
  [.connectionMade,.start,.goOn 0 [],.call .pause]

/-- A completed transfer is paused, and so is one that `pause` raises for without a connection. -/
theorem states_not_respected :
    (¬ ∀ (u : Umsgpack) (h : SenderHandle) (es : List (HandleEvent Bytes)),
      Along (SenderHandle.kind u).step (SenderHandle.kind u).Respects ⟨h,[]⟩ es) ∧
    ¬ ∀ (u : Umsgpack) (w : World) (es : List (HandleEvent (Source UInt8))),
      Along (Receiver.Task.kind u).step (Receiver.Task.kind u).Respects ⟨w,[]⟩ es := by
  constructor
  · intro h
    obtain ⟨_,_,_,⟨_,hpause⟩,_⟩ := h twoCodec { fileList := [] } pausedBehindItsEnd
    have hstate := hpause (.inl rfl)
    cases hstate
  · intro h
    let w : World :=
      ⟨{ downloadPath := [], connectionMade := false },.bare,⟨[],.silent,Cut.whole,0⟩,[]⟩
    obtain ⟨⟨hpause,_⟩,_⟩ := h twoCodec w [.call .pause]
    have hstate := hpause .preparing rfl
    cases hstate

end PeerConnect.Transfers
