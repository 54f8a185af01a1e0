import PeerConnect.Transfers.Sender
import PeerConnect.Library.RunningSums

/-! Files sent to many peers: the chunks a sender passes on, and a receiver that writes the chunks it
gets where their number says. -/
namespace PeerConnect.OneToMany
open Library Wire Transfers

def defaultGossipFanout : ℕ := 5
def maxDatagramRecvSize : ℕ := 1024*256

/-- `sys.getrecursionlimit()` -/
def recursionLimit : ℕ := 1000

structure OTMSession where
  originateId : String
  sessionId : String
  key : String
  fanout : ℕ
  linkWaitTimeout : ℕ
  adjacentPeers : List String
  fileCount : ℕ
  chunkSize : ℕ
  deriving DecidableEq, Repr

/-- What `OTMFilesRelay` is made of. -/
inductive RelayArgument
  | fileReceiver
  | session (session : OTMSession)
  | passiveEndpointAddr
  | activeEndpointAddr
  deriving DecidableEq, Repr

/-- The parameters of `OTMFilesRelay.__init__`, none of which has a default. -/
def relayParameters : List String :=
  ["file_receiver","session","passive_endpoint_addr","active_endpoint_addr"]

/-- A call by position: without an argument for each parameter it raises a `TypeError`. -/
def bindArguments {α : Type} (parameters : List String) (arguments : List α) :
    Except Exn (List (String × α)) :=
  if arguments.length = parameters.length then .ok (parameters.zip arguments) else .error .typeError

/-- The body of the packet that informs a peer of a session. -/
structure InformPacket where
  msgId : String
  sessionId : String
  key : String
  fanout : ℕ
  linkWaitTimeout : ℕ
  adjacentPeers : List String
  fileCount : ℕ
  chunkSize : ℕ
  deriving DecidableEq, Repr

structure FilesSender where
  peerId : String
  sessionId : String
  key : String
  timeout : ℕ
  files : List LocalFile

namespace FilesSender

/-- The file items start at their beginnings. -/
def fileItems (s : FilesSender) : List LocalFile := s.files.map (LocalFile.setSeeked 0)

def totalSize (s : FilesSender) : ℕ := (s.fileItems.map LocalFile.size).sum

def makeSession (s : FilesSender) : OTMSession where
  originateId := s.peerId
  sessionId := s.sessionId
  key := s.key
  fanout := defaultGossipFanout
  fileCount := s.fileItems.length
  adjacentPeers := []
  linkWaitTimeout := s.timeout
  chunkSize := calculateChunkSize s.totalSize

/-- `FilesSender.__init__`. `PalmTreeProtocol` makes its relay from the session and the two addresses. -/
def init (s : FilesSender) : Except Exn FilesSender := do
  let _ ← bindArguments relayParameters
    [RelayArgument.session s.makeSession,.passiveEndpointAddr,.activeEndpointAddr]
  pure s

def createInformPacket (s : FilesSender) : InformPacket where
  msgId := s.peerId
  sessionId := s.makeSession.sessionId
  key := s.makeSession.key
  fanout := s.makeSession.fanout
  linkWaitTimeout := s.makeSession.linkWaitTimeout
  adjacentPeers := s.makeSession.adjacentPeers
  fileCount := s.makeSession.fileCount
  chunkSize := maxDatagramRecvSize

/-- What `send_file` passes to the relay: the call is behind the loop, so that it only gets the chunk
that the loop has ended with. -/
def sendFile (chunkSize : ℕ) (f : LocalFile) : List Bytes :=
  ((steps f.seeked f.size chunkSize).foldl
    (fun _ offset => some (slice f.contents offset (offset+chunkSize))) none).toList

/-- The chunks of all files, in order. -/
def chunks (s : FilesSender) : List Bytes := s.fileItems.flatMap (sendFile s.makeSession.chunkSize)

/-- The name, size and offset of each file. -/
def fileMetadata (s : FilesSender) : List (Name × ℕ × ℕ) :=
  s.fileItems.map fun f => (f.name.chars,f.size,f.seeked)

end FilesSender

def newOtmRequestArrived (p : InformPacket) : OTMSession where
  originateId := p.msgId
  sessionId := p.sessionId
  key := p.key
  fanout := p.fanout
  linkWaitTimeout := p.linkWaitTimeout
  adjacentPeers := p.adjacentPeers
  fileCount := p.fileCount
  chunkSize := p.chunkSize

/-- A file item, with the bytes that have been written with its descriptor if `_file_descriptors` has one
for it. Each item is an object of its own, so that no two of them have one entry. -/
structure OTMItem where
  name : Name
  size : ℕ
  seeked : ℕ
  written : Option Bytes := none
  deriving DecidableEq, Repr

/-- What the file of an item has received. -/
def OTMItem.received (item : OTMItem) : Bytes := item.written.getD []

structure FilesReceiver where
  session : OTMSession
  fileItems : List OTMItem
  currentFileIndex : ℕ := 0
  fileSizesSummed : List ℕ
  chunkCounter : ℕ := 0
  deriving DecidableEq, Repr

namespace FilesReceiver

/-- The relay of a receiver gets all of its arguments. -/
def relay (session : OTMSession) : Except Exn (List (String × RelayArgument)) :=
  bindArguments relayParameters
    [.fileReceiver,.session session,.passiveEndpointAddr,.activeEndpointAddr]

/-- `_load_files_metadata`. The sums are kept in an array of 32-bit integers. -/
def loadFilesMetadata (session : OTMSession) (metadata : List (Name × ℕ × ℕ)) :
    Except Exn FilesReceiver :=
  if metadata = [] then .error .indexError
  else
    let sums := runningSums 0 (metadata.map fun m => m.2.1)
    if ∀ s ∈ sums, s < 2^32 then
      .ok ⟨session,metadata.map fun m => ⟨m.1,m.2.1,m.2.2,none⟩,0,sums,0⟩
    else .error .overflowError

/-- `with self._open_files()`, which is an asynchronous context manager: `with` finds no `__enter__`, and
no file is opened. -/
def openFiles (r : FilesReceiver) : Run Exn FilesReceiver Unit := .raised .typeError r

/-- The receiver with some of its files open, as `_open_files` is meant to open them all. -/
def withDescriptors (isOpen : List Bool) (r : FilesReceiver) : FilesReceiver :=
  { r with
    fileItems := r.fileItems.zipWith
      (fun item o => { item with written := if o then some [] else none }) isOpen }

/-- `writer(chunk)` and the count in the item. -/
def write (chunk : Bytes) (r : FilesReceiver) : FilesReceiver :=
  { r with fileItems := r.fileItems.modify r.currentFileIndex fun item =>
      { item with written := item.written.map (· ++ chunk), seeked := item.seeked+chunk.length } }

def nextFile (r : FilesReceiver) : FilesReceiver :=
  { r with currentFileIndex := r.currentFileIndex+1 }

/-- `_write_chunk`, with so many calls left to the recursion limit. -/
def writeChunk : ℕ → Bytes → FilesReceiver → Run Exn FilesReceiver Unit
  | 0,_,r => .raised .recursionError r
  | frames+1,chunk,r =>
    match r.fileItems[r.currentFileIndex]? with
    | none => .raised .indexError r
    | some item =>
      if item.written = none then .raised .keyError r
      else
        let chunkedChunk := slice chunk 0 (min (item.size-item.seeked) chunk.length)
        let r' := r.write chunkedChunk
        if 0 < chunk.length-chunkedChunk.length then
          if r'.nextFile.currentFileIndex = r'.fileItems.length then .done () r'.nextFile
          else writeChunk frames (slice chunk chunkedChunk.length chunk.length) r'.nextFile
        else .done () r'

def alignCorrespondingChunk (r : FilesReceiver) : FilesReceiver :=
  { r with
    currentFileIndex := bisectLeft r.fileSizesSummed (r.chunkCounter*r.session.chunkSize) }

/-- The chunks are aligned and written in order, each with its number. -/
def receiveChunks (frames : ℕ) : List Bytes → FilesReceiver → Run Exn FilesReceiver Unit
  | [],r => .done () r
  | chunk::chunks,r =>
    (r.alignCorrespondingChunk.writeChunk frames chunk).bind fun _ r' =>
      receiveChunks frames chunks { r' with chunkCounter := r'.chunkCounter+1 }

end FilesReceiver
end PeerConnect.OneToMany
