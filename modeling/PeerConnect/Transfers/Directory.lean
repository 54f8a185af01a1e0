import PeerConnect.Transfers.Receiver

/-! Directory transfers: the directory a handshake asks for, and `DirReceiver`, which receives into
it. -/
namespace PeerConnect.Transfers
open Library Wire

def dirCandidate (baseName : Name) : ℕ → Name := numbered baseName baseName "(".toList []

def isDir (fs : FileSystem) (p : Path) : Bool :=
  match fs.locate p with
  | .ok (l,true) => fs.isDir l
  | _ => false

/-- Nothing is made, and nothing returned, where the root path is no directory. -/
def renameDirectoryWithIncrement (rootPath : Path) (relativePath : List Char) :
    Coro FsError FileSystem (Option Path) := do
  let absPath := rootPath.join relativePath
  let fs ← Coro.get id
  if isDir fs rootPath then do
    let newName := freeName fs absPath.parent (dirCandidate absPath.name)
    let newPath := absPath.parent.join newName
    FileSystem.makeDirectories newPath.reverse true
    pure (some newPath)
  else pure none

/-- `Path(self.download_path, parent, item_name)` -/
def fullPath (downloadPath : Path) (parts : Value × Value) : Except Exn Path :=
  match parts with
  | (.str parent,.str itemName) => .ok ((downloadPath.join parent).join itemName)
  | _ => .error .typeError

namespace DirReceiver
open Receiver

def fileCode : Bytes := [1]
def pathCode : Bytes := [2]

def recvParts (u : Umsgpack) : Coro Exn World (Value × Value) := do
  let codeLen ← recvInt 4
  let data ← recvFunc codeLen
  match u.loads data with
  | none => Coro.raise .transferIncomplete
  | some v =>
    match v.unpack 2 with
    | .error e => Coro.raise e
    | .ok ⟨[parent,itemName],_⟩ => pure (parent,itemName)
    | .ok _ => Coro.raise .typeError

def recvFileItem (u : Umsgpack) : Coro Exn World FileItem := do
  let parts ← recvParts u
  let size ← Coro.tryCatch (recvInt 8) fun e =>
    if e = .valueError then Coro.raise .transferIncomplete else Coro.raise e
  let downloadPath ← Coro.get (·.rx.downloadPath)
  let path ← Coro.ofExcept (fullPath downloadPath parts)
  pure ⟨path.name,path,.int size,.int 0⟩

/-- The inherited `_recv_file_once`, with the overridden `_recv_file_item`. -/
def recvFileOnce (u : Umsgpack) : Coro Exn World Unit := do
  let item ← Coro.tryCatch (recvFileItem u) Receiver.handleException
  receiveItem item

def recvPath (u : Umsgpack) : Coro Exn World Unit := do
  let parts ← recvParts u
  let downloadPath ← Coro.get (·.rx.downloadPath)
  let path ← Coro.ofExcept (fullPath downloadPath parts)
  onDisk (FileSystem.makeDirectories path.reverse false)

/-- The body of the loop of `recv_files`. Any other code is passed over. -/
def step (u : Umsgpack) (code : Bytes) : Coro Exn World Unit :=
  if code = fileCode then do
    recvFileOnce u
    sendFunc code
  else if code = pathCode then recvPath u
  else pure ()

open Coro

theorem progress_recvParts (u : Umsgpack) : Moves Progress (recvParts u) := by
  refine .bind (progress_recvInt 4) fun n => .bind (progress_recvFunc n) fun data => ?_
  split
  · exact .raise _
  · split
    · exact .raise _
    · exact .pure _
    · exact .raise _

theorem progress_recvFileOnce (u : Umsgpack) : Moves Progress (recvFileOnce u) :=
  .bind (.tryCatch
    (.bind (progress_recvParts u) fun _ =>
      .bind (.tryCatch (progress_recvInt 8) fun _ => .ite (fun _ => .raise _) fun _ => .raise _)
        fun _ => .bind (.get _) fun _ => .bind (.ofExcept _) fun _ => .pure _)
    progress_handleException) progress_receiveItem

theorem progress_recvPath (u : Umsgpack) : Moves Progress (recvPath u) :=
  .bind (progress_recvParts u) fun _ => .bind (.get _) fun _ => .bind (.ofExcept _) fun _ =>
    progress_onDisk _

theorem progress_step (u : Umsgpack) (code : Bytes) : Moves Progress (step u code) :=
  .ite (fun _ => .bind (progress_recvFileOnce u) fun _ =>
      .modify fun _ => ⟨List.suffix_rfl,rfl,rfl,rfl,rfl,rfl,.inl rfl,le_rfl⟩)
    fun _ => .ite (fun _ => progress_recvPath u) fun _ => .pure _

/-- The loop of `recv_files`. -/
def recvLoop (u : Umsgpack) (w : World) : Run Exn World Unit :=
  match h : shouldProceed w with
  | .raised e w' => .raised e w'
  | .blocked w' => .blocked w'
  | .done code w' =>
    if hc : code = [] then .done () w'
    else
      match h' : step u code w' with
      | .raised e w'' => .raised e w''
      | .blocked w'' => .blocked w''
      | .done _ w'' =>
        have : w''.source.pending.length < w.source.pending.length := by
          have hp := progress_step u code w'
          rw [h'] at hp
          exact lt_of_le_of_lt hp.pending.length_le (shouldProceed_done h hc)
        recvLoop u w''
termination_by w.source.pending.length

def recvFiles (u : Umsgpack) : Coro Exn World Unit := do
  Coro.modify (World.setState .receiving)
  recvLoop u

end DirReceiver
end PeerConnect.Transfers
