import PeerConnect.Transfers.ContentPhase
import PeerConnect.Transfers.Touched
import PeerConnect.Transfers.SendingTask

/-! `files.Receiver` as a task: where it awaits, others can call its handle, and what it awaits may
raise. -/
namespace PeerConnect.Transfers
open Library Wire FileSystem

/-- Where `recv_files` and `continue_transfer` are suspended: at the connection, at the offset that is
sent, at what is received, at the disk, or where they yield. An open file is that of one of the file
items. -/
inductive RecvPoint
  | connecting
  | reconnecting
  | syncing (seeked : Bytes)
  | tag
  | length
  | header (n : ℕ)
  | contents (index : ℕ) (r : Reception)
  | writing (index : ℕ) (r : Reception) (data : Bytes)
  | yielded (index : ℕ) (r : Reception)

/-- Where a receiving task is: suspended, or at its end, with what it has raised. -/
inductive RecvStage
  | waiting (p : RecvPoint)
  | ended (raised : Option Exn)

/-- The stage that a step leads to. One that still waits leads nowhere. -/
def RecvStage.next (st : RecvStage) : Run Exn World (Option RecvPoint) → RecvStage
  | .done (some p) _ => .waiting p
  | .done none _ => .ended none
  | .raised e _ => .ended (some e)
  | .blocked _ => st

/-- What is left to receive once some bytes have been written. -/
def Reception.wrote (n : ℕ) (r : Reception) : Reception :=
  { r with position := r.position+n, remainingBytes := r.remainingBytes-n }

namespace World

def updateItem (index : ℕ) (f : FileItem → FileItem) (w : World) : World :=
  if index = w.rx.earlier.length then w.updateCurrent f
  else { w with rx := { w.rx with earlier := w.rx.earlier.modify index f } }

def addSeeked (n : ℕ) (item : FileItem) : FileItem :=
  { item with seeked := .int ((item.seeked.int?.getD 0)+n) }

/-- `f_writer(data)`, and the count kept in the file item. -/
def writeItem (index : ℕ) (r : Reception) (data : Bytes) (w : World) : World :=
  { w with fs := w.fs.writeAt r.location r.position data }.updateItem index (addSeeked data.length)

end World

namespace Receiver.Task

/-- The functions of the connection are paused or resumed; `None` has no such methods. -/
def functions : Coro Exn World Unit := do
  let made ← Coro.get (·.rx.connectionMade)
  if made then pure () else Coro.raise .attributeError

def pause : Coro Exn World Unit := do
  Coro.modify (World.setState .paused)
  functions

def resume : Coro Exn World Unit := do
  let st ← Coro.get (·.rx.state)
  if st ≠ .paused then pure () else do
    Coro.modify (World.setState .receiving)
    functions

/-- No task lets its exception be set. -/
def cancel : Coro Exn World Unit := do
  let st ← Coro.get (·.rx.state)
  if st ≠ .receiving ∧ st ≠ .paused then Coro.raise .invalidStateError
  else do
    Coro.modify fun w => { w with rx := { w.rx with toStop := true } }
    Coro.raise .runtimeError

/-- `await self.connection_wait`, which does not suspend if there is a connection. -/
def awaitConnection (p : RecvPoint) (x : Coro Exn World (Option RecvPoint)) :
    Coro Exn World (Option RecvPoint) := do
  let made ← Coro.get (·.rx.connectionMade)
  if made then x else pure (some p)

/-- The loop of `recv_files`, or that of `continue_transfer`, whose test is a coroutine that it does
not await and that therefore is true. -/
def nextFile (continued : Bool) : Coro Exn World (Option RecvPoint) := do
  let toStop ← Coro.get (·.rx.toStop)
  if continued then pure (some .length)
  else if toStop then do
    Coro.modify (World.setState .completed)
    pure none
  else pure (some .tag)

def connected : Coro Exn World (Option RecvPoint) := do
  Coro.modify (World.setState .receiving)
  nextFile false

/-- The start of `recv_files`. -/
def recvFiles : Coro Exn World (Option RecvPoint) := do
  Coro.modify (World.setState .connecting)
  awaitConnection .connecting connected

/-- The offset that the sender is to continue from. -/
def tellSeeked : Coro Exn World (Option RecvPoint) := do
  let bytes ← Coro.tryCatch
    (do
      let item ← current
      Coro.ofExcept (packSeeked item.seeked))
    handleException
  pure (some (.syncing bytes))

/-- The start of `continue_transfer`. -/
def continueTransfer : Coro Exn World (Option RecvPoint) := do
  let w ← Coro.get id
  if w.rx.state ≠ .paused ∨ w.rx.toStop then Coro.raise .invalidStateError
  else do
    Coro.modify (World.setState .receiving)
    awaitConnection .reconnecting tellSeeked

/-- What `_receive_single_file` does behind the contents of a file. -/
def endOfContents (continued : Bool) : Coro Exn World (Option RecvPoint) := do
  let item ← current
  let toStop ← Coro.get (·.rx.toStop)
  if item.seeked.int?.getD 0 < item.size.int?.getD 0 ∧ ¬ toStop then Coro.raise .transferIncomplete
  else nextFile continued

/-- The loop of `recv_file_contents`. -/
def nextChunk (continued : Bool) (index : ℕ) (r : Reception) : Coro Exn World (Option RecvPoint) :=
  if 0 < r.remainingBytes then pure (some (.contents index r)) else endOfContents continued

/-- `_recv_file_once`, once the header has been read. -/
def receiveItem (continued : Bool) (item : FileItem) : Coro Exn World (Option RecvPoint) := do
  Coro.modify (World.append item)
  match item.size.atMostZero with
  | none => Coro.raise .typeError
  | some true => do
    onDisk (FileSystem.touch item.path)
    nextFile continued
  | some false => do
    validatename
    let item ← current
    Coro.ofExcept (statusSetup item.seeked item.size)
    let r ← Coro.tryCatch (setupTransfer 0) handleException
    let index ← Coro.get (·.rx.earlier.length)
    nextChunk continued index r

/-- What `_recv_file_item` makes of an exception at the length of a header, or at the header. -/
def lengthError (e : Exn) : Exn :=
  if e = .valueError ∨ e = .connectionReset then .transferIncomplete else e

def headerError (e : Exn) : Exn := if e.isOSError then .transferIncomplete else e

/-- The next item, from a header of the given length. -/
def recvHeader (u : Umsgpack) (n : ℕ) : Coro Exn World FileItem := do
  let rawFileItem ← Coro.tryCatch (recvFunc n) fun e => Coro.raise (headerError e)
  let downloadPath ← Coro.get (·.rx.downloadPath)
  Coro.ofExcept (FileItem.loadFrom u rawFileItem downloadPath)

/-- What a receiver does once it gets what it waits for, up to where it waits next. -/
def goOn (u : Umsgpack) (continued : Bool) : RecvPoint → Coro Exn World (Option RecvPoint)
  | .connecting => awaitConnection .connecting connected
  | .reconnecting => awaitConnection .reconnecting tellSeeked
  | .syncing seeked => do
    sendFunc seeked
    nextFile continued
  | .tag => do
    let what ← Coro.tryCatch (recvFunc 1) handleException
    let toStop ← Coro.get (·.rx.toStop)
    if toStop ∨ what = [] ∨ what = [0] then do
      Coro.modify (World.setState .completed)
      pure none
    else pure (some .length)
  | .length => do
    let n ← Coro.tryCatch (recvInt 4) fun e => handleException (lengthError e)
    pure (some (.header n))
  | .header n => do
    let item ← Coro.tryCatch (recvHeader u n) handleException
    receiveItem continued item
  | .contents index r => do
    let data ← Coro.tryCatch (recvFunc (min r.chunkSize r.remainingBytes.toNat)) handleException
    if data = [] then endOfContents continued else pure (some (.writing index r data))
  | .writing index r data => do
    Coro.modify (World.writeItem index r data)
    pure (some (.yielded index (r.wrote data.length)))
  | .yielded index r => do
    let toStop ← Coro.get (·.rx.toStop)
    if toStop then endOfContents continued else nextChunk continued index r

/-- What comes of something that is raised where a receiver is suspended. -/
def interrupt (p : RecvPoint) : Raised → Coro Exn World Unit
  | .cancelled => pure ()
  | .exception e => match p with
    | .connecting | .reconnecting | .yielded _ _ => Coro.raise e
    | .length => handleException (lengthError e)
    | .header _ => handleException (headerError e)
    | _ => handleException e

/-- The item of the header that has arrived. -/
def header? (u : Umsgpack) (w : World) : RecvPoint → Option FileItem
  | .header n => match recvHeader u n w with
    | .done item _ => some item
    | _ => none
  | _ => none

/-- The handle is as it was. -/
def SameHandle (w w' : World) : Prop := w'.rx = w.rx

instance : Std.Refl SameHandle := ⟨fun _ => rfl⟩
instance : IsTrans World SameHandle := ⟨fun _ _ _ h h' => h'.trans h⟩

open Coro

theorem sameHandle_recvFunc (n : ℕ) : Moves SameHandle (recvFunc n) := .zoom fun _ => rfl

theorem sameHandle_onDisk {α : Type} (x : Coro FsError FileSystem α) : Moves SameHandle (onDisk x) :=
  .zoom fun _ => rfl

theorem sameHandle_current : Moves SameHandle current := by
  intro w
  unfold current
  split <;> rfl

theorem sameHandle_recvInt (width : ℕ) : Moves SameHandle (recvInt width) := by
  refine .bind (.tryCatch (sameHandle_recvFunc width) fun e => .ite (fun _ => .raise _)
    fun _ => .raise _) fun bytes => ?_
  split
  · exact .pure _
  · exact .raise _

theorem sameHandle_recvHeader (u : Umsgpack) (n : ℕ) : Moves SameHandle (recvHeader u n) :=
  .bind (.tryCatch (sameHandle_recvFunc n) fun _ => .raise _) fun _ => .bind (.get _) fun _ =>
    .ofExcept _

theorem sameHandle_setupTransfer (chunkSize : ℕ) : Moves SameHandle (setupTransfer chunkSize) :=
  .bind sameHandle_current fun _ => .bind (.get _) fun _ => .ite (fun _ => .raise _) fun _ =>
    .ite (fun _ => .raise _) fun _ => .bind (sameHandle_onDisk _) fun _ => .bind (.ofExcept _)
      fun _ => .pure _

/-- What is received is a part of what there is; where there is nothing, the connection ends. -/
theorem recvFunc_cases (n : ℕ) (w : World) :
    (∃ data s, recvFunc n w = .done data { w with source := s } ∧ w.source.pending ≠ [] ∧
      (data = [] → n = 0)) ∨
    w.source.pending = [] ∧
      ((w.source.ending = .closed ∨ n = 0) ∧ (∃ s, recvFunc n w = .done [] { w with source := s }) ∨
        w.source.ending = .reset ∧ recvFunc n w = .raised .connectionReset w ∨
        w.source.ending = .silent ∧ recvFunc n w = .blocked w) := by
  rcases Source.recv_cases w.source n with ⟨xs,hr,hne,_,_,hnil⟩ | ⟨hp,⟨he,hr⟩ | ⟨he,_,hr⟩ | ⟨he,_,hr⟩⟩
  · exact .inl ⟨xs,w.source.advance xs.length,by simp [recvFunc, sockRecv, hr],hne,hnil⟩
  · exact .inr ⟨hp,.inl ⟨he,w.source.advance 0,by simp [recvFunc, sockRecv, hr]⟩⟩
  · exact .inr ⟨hp,.inr (.inl ⟨he,by simp [recvFunc, sockRecv, hr]⟩)⟩
  · exact .inr ⟨hp,.inr (.inr ⟨he,by simp [recvFunc, sockRecv, hr]⟩)⟩

/-- What a handled part of a step comes to: it returns, waits, or raises, and then an incomplete transfer
has paused the handle. -/
inductive Handled {α : Type} (x : Coro Exn World α) (w : World) : Run Exn World α → Prop
  | done (a : α) (w' : World) (h : x w = .done a w') (hrx : w'.rx = w.rx) : Handled x w (.done a w')
  | paused (w' : World) (hrx : w'.rx = { w.rx with state := .paused }) :
      Handled x w (.raised .transferIncomplete w')
  | raised (e : Exn) (w' : World) (he : (Raised.exception e).pauses = false) (hrx : w'.rx = w.rx) :
      Handled x w (.raised e w')
  | blocked (w' : World) (h : x w = .blocked w') (hrx : w'.rx = w.rx) : Handled x w (.blocked w')

theorem handleException_paused {α : Type} {e : Exn} (he : (Raised.exception e).pauses = true)
    (w : World) : (handleException e : Coro Exn World α) w =
      .raised .transferIncomplete (w.setState .paused) := by
  have : e = .transferIncomplete ∨ e.isOSError := by simpa [Raised.pauses] using he
  simp [handleException, Transfers.handleException, this]

theorem handleException_raised {α : Type} {e : Exn} (he : (Raised.exception e).pauses = false)
    (w : World) : (handleException e : Coro Exn World α) w = .raised e w := by
  have : ¬ (e = .transferIncomplete ∨ e.isOSError) := by simpa [Raised.pauses] using he
  simp [handleException, Transfers.handleException, this]

theorem handled {α : Type} {x : Coro Exn World α} (hx : Moves SameHandle x) (w : World)
    (f : Exn → Exn) : Handled x w (tryCatch x (fun e => handleException (f e)) w) := by
  have hrx : (x w).state.rx = w.rx := hx w
  rw [tryCatch_apply]
  cases hr : x w with
  | done a w' =>
    rw [hr] at hrx
    exact .done a w' hr hrx
  | raised e w' =>
    rw [hr] at hrx
    rw [Run.handle_raised]
    cases he : (Raised.exception (f e)).pauses with
    | true =>
      rw [handleException_paused he]
      refine .paused _ ?_
      rw [← hrx]
      rfl
    | false =>
      rw [handleException_raised he]
      exact .raised _ _ he hrx
  | blocked w' =>
    rw [hr] at hrx
    exact .blocked w' hr hrx

/-- What is missing of a file. -/
def gap (item : FileItem) : ℤ := item.size.int?.getD 0 - item.seeked.int?.getD 0

section Steps
variable {w : World} {item : FileItem} (continued : Bool)

theorem nextFile_running (h : w.rx.toStop = false) :
    nextFile continued w = .done (some (if continued then .length else .tag)) w := by
  cases continued <;> simp [nextFile, h]

theorem current_apply (h : w.rx.currentFile = some item) : current w = .done item w := by
  simp [current, h]

theorem endOfContents_apply (h : w.rx.currentFile = some item) :
    endOfContents continued w =
      if 0 < gap item ∧ w.rx.toStop = false then .raised .transferIncomplete w
      else nextFile continued w := by
  have hgap : 0 < gap item ↔ item.seeked.int?.getD 0 < item.size.int?.getD 0 := by
    unfold gap
    omega
  simp only [endOfContents, bind_apply, current_apply h, Run.bind_done, get_apply,
    Coro.ite_apply, raise_apply, hgap, Bool.not_eq_true]

theorem receiveItem_unordered (hsize : item.size.atMostZero = none) :
    receiveItem continued item w = .raised .typeError (w.append item) := by
  simp [receiveItem, hsize]

theorem receiveItem_empty (hsize : item.size.atMostZero = some true) :
    receiveItem continued item w =
      (onDisk (FileSystem.touch item.path) (w.append item)).bind fun _ w' => nextFile continued w' := by
  simp [receiveItem, hsize]

/-- An item without a name is not received. -/
theorem receiveItem_unnamed (hsize : item.size.atMostZero = some false) (hp : item.path = []) :
    ∃ w', receiveItem continued item w = .raised .valueError w' ∧
      w'.rx.state = w.rx.state ∧ w'.fs = w.fs := by
  refine ⟨(w.append item).updateCurrent fun f =>
    { f with name := validName w.fs w.rx.downloadPath item.path.name },?_,rfl,rfl⟩
  simp only [receiveItem, hsize, bind_apply, modify_apply, Run.bind_done, validatename,
    current_apply (w := w.append item) rfl, get_apply, hp, Path.withName, if_true, raise_apply,
    Run.bind_raised]
  rfl

/-- The item under the name that it is received by. -/
def validated (w : World) (item : FileItem) : FileItem :=
  item.renamed (validName w.fs w.rx.downloadPath item.path.name)

/-- A file is opened under a new name. -/
theorem receiveItem_named (hsize : item.size.atMostZero = some false) (hp : item.path ≠ []) :
    receiveItem continued item w =
      (ofExcept (statusSetup item.seeked item.size) (w.append (validated w item))).bind fun _ w' =>
        (tryCatch (setupTransfer 0) handleException w').bind fun r w'' =>
          nextChunk continued w''.rx.earlier.length r w'' := by
  have hvalid := validatename_apply (w := w.append item) rfl hp
  simp only [receiveItem, hsize, bind_apply, modify_apply, Run.bind_done, hvalid]
  rfl

/-- A file that has been opened is open at its offset. -/
theorem setupTransfer_done {chunkSize : ℕ} {r : Reception} {w' : World}
    (h : setupTransfer chunkSize w = .done r w') :
    ∃ item, w.rx.currentFile = some item ∧
      onDisk (if item.seeked.isZero then FileSystem.create item.path (.file [])
        else FileSystem.openExisting item.path) w = .done r.location w' ∧
      seek item.seeked = .ok r.position ∧
      r.remainingBytes = item.size.int?.getD 0 - r.position ∧ 0 < r.chunkSize := by
  obtain ⟨item,w₁,hcurrent,hopen⟩ := Run.bind_eq_done h
  obtain ⟨hcur,rfl⟩ := current_done hcurrent
  dsimp only at hopen
  rw [bind_apply, get_apply, Run.bind_done, Coro.ite_apply] at hopen
  split at hopen
  · cases hopen
  · rw [Coro.ite_apply] at hopen
    split at hopen
    · cases hopen
    · obtain ⟨l,w₂,hdisk,hrest⟩ := Run.bind_eq_done hopen
      obtain ⟨position,w₃,hseek,hpure⟩ := Run.bind_eq_done hrest
      cases hs : seek item.seeked with
      | error e => rw [hs] at hseek; cases hseek
      | ok n =>
        rw [hs] at hseek
        cases hseek
        cases hpure
        refine ⟨item,hcur,hdisk,hs,rfl,?_⟩
        dsimp only
        split
        · exact calculateChunkSize_pos _
        next hc => exact Nat.pos_of_ne_zero hc

theorem seek_ok {v : Value} {n : ℕ} (h : seek v = .ok n) : v.int? = some (n:ℤ) := by
  unfold seek at h
  split at h
  · cases h
  next k hk =>
    split at h
    · cases h
    · split at h
      · cases h
      · cases h
        rw [hk]
        congr 1
        omega

end Steps

end Receiver.Task
end PeerConnect.Transfers
