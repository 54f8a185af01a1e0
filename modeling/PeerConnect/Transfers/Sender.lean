import PeerConnect.Transfers.FileItem
import PeerConnect.Wire.Packet
import PeerConnect.Library.Slices

/-! The sending side of a file transfer: `files.Sender` over its connection. -/
namespace PeerConnect.Transfers
open Library Wire

/-- A file to send. No file is larger than the largest offset in one. -/
structure LocalFile where
  name : FileName
  contents : Bytes
  seeked : ℕ := 0
  size_le : (contents.length : ℤ) ≤ maxOffset

theorem one_byte_fits : (([7] : Bytes).length : ℤ) ≤ maxOffset := by decide

/-- The name of the files of the counterexamples. -/
def nameA : FileName where
  chars := ['a']
  entry := by constructor <;> decide

def LocalFile.size (f : LocalFile) : ℕ := f.contents.length

theorem LocalFile.size_fits (f : LocalFile) : (f.size : ℤ) ≤ maxOffset := f.size_le

def LocalFile.setSeeked (n : ℕ) (f : LocalFile) : LocalFile := { f with seeked := n }

/-- `bytes(file_item)` -/
def LocalFile.toBytes (u : Umsgpack) (f : LocalFile) : Option Bytes :=
  u.dumps (FileItem.header f.name.chars (.int f.size) (.int f.seeked))

/-- A sender handle with what it has sent. Somebody else sets `to_stop`, at a time given by the number
of times it is still found unset (`none` for never), and the connection breaks after a number of
sends (`none` for never). -/
structure Sender where
  state : TransferState := .preparing
  fileList : List LocalFile
  currentFileIndex : ℕ := 0
  stopAfter : Option ℕ := none
  sends : Option ℕ := none
  incoming : Source UInt8 := ⟨[],.silent,Cut.whole,0⟩
  out : Bytes := []

namespace Sender

def setState (st : TransferState) (s : Sender) : Sender := { s with state := st }

def setSeeked (index n : ℕ) (s : Sender) : Sender :=
  { s with fileList := s.fileList.modify index (LocalFile.setSeeked n) }

def handleException {α : Type} (e : Exn) : Coro Exn Sender α :=
  Transfers.handleException setState e

def sendFunc (data : Bytes) : Coro Exn Sender Unit := fun s =>
  match s.sends with
  | some 0 => .raised .connectionReset s
  | some (n+1) => .done () { s with out := s.out ++ data, sends := some n }
  | none => .done () { s with out := s.out ++ data }

/-- Reading `self.to_stop`. -/
def toStop : Coro Exn Sender Bool := fun s =>
  match s.stopAfter with
  | none => .done false s
  | some 0 => .done true s
  | some (n+1) => .done false { s with stopAfter := some n }

/-- The frame of a file's header, if it can be packed. -/
def filePacket (u : Umsgpack) (f : LocalFile) : Except Exn Bytes :=
  match f.toBytes u with
  | none => .error .packException
  | some fileObject =>
    match packUInt 4 fileObject.length with
    | none => .error .structError
    | some length => .ok (length ++ fileObject)

def sendFileItem (u : Umsgpack) (f : LocalFile) : Coro Exn Sender Unit :=
  Coro.tryCatch
    (do
      sendFunc [1]
      let packet ← Coro.ofExcept (filePacket u f)
      sendFunc packet)
    handleException

/-- The loop of `send_actual_file` over its offsets, with the body of its consumer, which leaves it
when it finds `to_stop` set. -/
def chunkLoop (index : ℕ) (contents : Bytes) (chunkSize : ℕ) : List ℕ → Coro Exn Sender Unit
  | [] => pure ()
  | offset::offsets => do
    let chunk := slice contents offset (offset+chunkSize)
    sendFunc chunk
    Coro.modify (setSeeked index (offset+chunk.length))
    let stopped ← toStop
    if stopped then pure () else chunkLoop index contents chunkSize offsets

/-- `send_actual_file`. Mapping an empty file raises a `ValueError`. -/
def sendActualFile (index : ℕ) (f : LocalFile) : Coro Exn Sender Unit :=
  if f.contents = [] then Coro.raise .valueError
  else
    let chunkSize := calculateChunkSize f.size
    chunkLoop index f.contents chunkSize (steps f.seeked f.size chunkSize)

def sendOneFile (index : ℕ) (f : LocalFile) : Coro Exn Sender Unit :=
  Coro.tryCatch
    (do
      Coro.ofExcept (statusSetup (.int f.seeked) (.int f.size))
      sendActualFile index f)
    handleException

/-- The loop of `send_files` over the files from the current one on, with their indices. -/
def sendLoop (u : Umsgpack) : List (LocalFile × ℕ) → Coro Exn Sender Unit
  | [] => pure ()
  | (f,index)::rest => do
    let stopped ← toStop
    if stopped then pure ()
    else do
      Coro.modify fun s => { s with currentFileIndex := index }
      sendFileItem u f
      sendOneFile index f
      sendLoop u rest

def sendFiles (u : Umsgpack) : Coro Exn Sender Unit := do
  Coro.modify (setState .sending)
  let files ← Coro.get fun s => s.fileList.zipIdx.drop s.currentFileIndex
  sendLoop u files
  Coro.tryCatch (sendFunc [0]) handleException
  Coro.modify (setState .completed)

/-- `use.recv_int(self.recv_func, use.LONG_INT)` -/
def recvLongInt : Coro Exn Sender ℕ := do
  let bytedInt ← Coro.tryCatch
    (Coro.zoom Sender.incoming (fun i s => { s with incoming := i }) id (sockRecv 8))
    fun e => if e = .connectionReset then Coro.raise .valueError else Coro.raise e
  match unpackUInt 8 bytedInt with
  | some integer => pure integer
  | none => Coro.raise .valueError

def continueTransfer (u : Umsgpack) : Coro Exn Sender Unit := do
  let st ← Coro.get Sender.state
  let stopped ← toStop
  if st ≠ .paused ∨ stopped then Coro.raise .invalidStateError
  else do
    Coro.modify (setState .sending)
    let index ← Coro.get Sender.currentFileIndex
    let seeked ← Coro.tryCatch recvLongInt fun e =>
      if e = .valueError then do
        Coro.modify (setState .paused)
        Coro.raise .transferIncomplete
      else Coro.raise e
    Coro.modify (setSeeked index seeked)
    sendFiles u

end Sender
end PeerConnect.Transfers
