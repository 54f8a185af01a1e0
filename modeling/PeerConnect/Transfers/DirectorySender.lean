import PeerConnect.Transfers.Directory
import PeerConnect.Transfers.SenderRun

/-! Sending a directory: `DirSender`, which waits for an acknowledgement of each file. -/
namespace PeerConnect.Transfers
open Library Wire

/-- What `root_path.rglob('*')` lists, each with the path of its parent relative to the root. -/
inductive DirItem
  | directory (parent : List FileName) (name : FileName)
  | file (parent : List FileName) (f : LocalFile)

namespace DirItem

def parent : DirItem → List FileName
  | directory parent _ => parent
  | file parent _ => parent

def name : DirItem → FileName
  | directory _ name => name
  | file _ f => f.name

def parentPath (item : DirItem) : Path := item.parent.map FileName.chars

/-- `path.relative_to(self.root_path)` -/
def path (item : DirItem) : Path := item.parentPath ++ [item.name.chars]

/-- Where the item lies below its root. -/
def loc (item : DirItem) : Loc := item.path.reverse

def node : DirItem → Node
  | directory _ _ => .dir
  | file _ f => .file f.contents

end DirItem

/-- The text of a relative path. -/
def asPosix (p : Path) : List Char := if p = [] then dot else ['/'].intercalate p

namespace DirSender
open Sender

/-- `struct.pack` of one unsigned integer -/
def structPack (width n : ℕ) : Except Exn Bytes :=
  match packUInt width n with
  | some bs => .ok bs
  | none => .error .structError

/-- `self.recv_func(n)` -/
def recvFunc (n : ℕ) : Coro Exn Sender Bytes :=
  Coro.zoom Sender.incoming (fun i s => { s with incoming := i }) id (sockRecv n)

/-- The pair that names an item, its parent as text. -/
def codeParts (item : DirItem) : Value :=
  .array [.str (asPosix item.parentPath),
    .str (item.name.chars.map fun c => if c = '\\' then '_' else c)]

def sendCodeParts (u : Umsgpack) (code : Bytes) (item : DirItem) : Coro Exn Sender Unit :=
  match u.dumps (codeParts item) with
  | none => Coro.raise .packException
  | some dumpedCode =>
    Coro.tryCatch
      (do
        sendFunc code
        let length ← Coro.ofExcept (structPack 4 dumpedCode.length)
        sendFunc (length ++ dumpedCode))
      Sender.handleException

/-- The file item becomes the current file, the one file of the handle. -/
def sendFileItem (u : Umsgpack) (item : DirItem) (f : LocalFile) : Coro Exn Sender Unit := do
  sendCodeParts u DirReceiver.fileCode item
  let size ← Coro.ofExcept (structPack 8 f.size)
  sendFunc size
  Coro.modify fun s => { s with fileList := [f] }

def sendContents (f : LocalFile) : Coro Exn Sender Unit :=
  if 0 < f.size then sendOneFile 0 f else pure ()

/-- The body of the loop of `send_files`. -/
def sendItem (u : Umsgpack) : DirItem → Coro Exn Sender Unit
  | .directory parent name => sendCodeParts u DirReceiver.pathCode (.directory parent name)
  | .file parent f => do
    sendFileItem u (.file parent f) (f.setSeeked 0)
    sendContents (f.setSeeked 0)
    let ack ← recvFunc 1
    if ack = DirReceiver.fileCode then pure () else Coro.raise .assertionError

def sendLoop (u : Umsgpack) : List DirItem → Coro Exn Sender Unit
  | [] => pure ()
  | item::rest => do
    let stopped ← toStop
    if stopped then pure ()
    else do
      sendItem u item
      sendLoop u rest

def sendFiles (u : Umsgpack) (items : List DirItem) : Coro Exn Sender Unit := do
  sendLoop u items
  sendFunc [0]

/-- The name of an item can be packed, as that of every file can that has one in Unicode. -/
def Packable (u : Umsgpack) (item : DirItem) : Prop :=
  ∃ dumpedCode length, u.dumps (codeParts item) = some dumpedCode ∧
    packUInt 4 dumpedCode.length = some length

/-- The frame of an item's name. -/
def frame (u : Umsgpack) (item : DirItem) : Bytes :=
  let dumpedCode := (u.dumps (codeParts item)).getD []
  toNetworkOrder 4 dumpedCode.length ++ dumpedCode

/-- The bytes an item is sent as. -/
def record (u : Umsgpack) : DirItem → Bytes
  | .directory parent name => DirReceiver.pathCode ++ frame u (.directory parent name)
  | .file parent f =>
    DirReceiver.fileCode ++ (frame u (.file parent f) ++ (toNetworkOrder 8 f.size ++ f.contents))

def records (u : Umsgpack) (items : List DirItem) : Bytes := items.flatMap (record u)

variable {u : Umsgpack} {item : DirItem} {s : Sender}

/-- Nobody stops the sender, and its connection holds. -/
structure Undisturbed (s : Sender) : Prop where
  stopAfter : s.stopAfter = none
  sends : s.sends = none

theorem structPack_eq {width n : ℕ} {bs : Bytes} (h : packUInt width n = some bs) :
    structPack width n = .ok bs := by
  rw [structPack, h]

theorem packUInt_size (f : LocalFile) : packUInt 8 f.size = some (toNetworkOrder 8 f.size) := by
  have hmax : (f.size:ℤ) ≤ maxOffset := f.size_le
  rw [packUInt_eq_some]
  refine ⟨?_,rfl⟩
  unfold maxOffset at hmax
  omega

/-- A code and the frame behind it, once there is something to put into it. -/
theorem sendFramed_ok {dumpedCode length : Bytes} (hs : s.sends = none)
    (hl : packUInt 4 dumpedCode.length = some length) (code : Bytes) :
    Coro.tryCatch
      (do
        sendFunc code
        let length ← Coro.ofExcept (structPack 4 dumpedCode.length)
        sendFunc (length ++ dumpedCode))
      Sender.handleException s =
        .done () { s with out := s.out ++ (code ++ (length ++ dumpedCode)) } := by
  have hsend := sendFunc_apply (length ++ dumpedCode) { s with out := s.out ++ code } hs
  simp only [structPack_eq hl, Coro.tryCatch_apply, Coro.bind_apply, sendFunc_apply _ s hs,
    Run.bind_done, Coro.ofExcept_ok, hsend, Run.handle_done, List.append_assoc]

theorem sendCodeParts_ok (hs : s.sends = none) (hp : Packable u item) (code : Bytes) :
    sendCodeParts u code item s = .done () { s with out := s.out ++ (code ++ frame u item) } := by
  obtain ⟨dumpedCode,length,hd,hl⟩ := hp
  have hframe : frame u item = length ++ dumpedCode := by
    obtain ⟨_,rfl⟩ := packUInt_eq_some.mp hl
    simp [frame, hd]
  unfold sendCodeParts
  rw [hd, hframe]
  exact sendFramed_ok hs hl code

theorem recvFunc_incoming {n : ℕ} {data : Bytes} {s' : Sender} (h : recvFunc n s = .done data s') :
    ∃ i, s' = { s with incoming := i } := by
  simp only [recvFunc, Coro.zoom_apply] at h
  cases hr : sockRecv n s.incoming with
  | done _ i =>
    rw [hr] at h
    cases h
    exact ⟨i,rfl⟩
  | raised e i => rw [hr] at h; cases h
  | blocked i => rw [hr] at h; cases h

theorem sendFileItem_ok {f : LocalFile} (hs : s.sends = none) (hp : Packable u item) :
    sendFileItem u item f s = .done () { s with
      out := s.out ++ (DirReceiver.fileCode ++ frame u item) ++ toNetworkOrder 8 f.size,
      fileList := [f] } := by
  have hsend := sendFunc_apply (toNetworkOrder 8 f.size)
    { s with out := s.out ++ (DirReceiver.fileCode ++ frame u item) } hs
  simp only [sendFileItem, Coro.bind_apply, sendCodeParts_ok hs hp, Run.bind_done,
    structPack_eq (packUInt_size f), Coro.ofExcept_ok, hsend, Coro.modify_apply]

/-- The contents of a file that starts at its beginning, an empty one's too. -/
theorem sendContents_ok {f : LocalFile} (hf : f.seeked = 0) (h : Undisturbed s) :
    ∃ s', Undisturbed s' ∧ s'.out = s.out ++ f.contents ∧ s'.incoming = s.incoming ∧
      sendContents f s = .done () s' := by
  by_cases hc : f.contents = []
  · exact ⟨s,h,by simp [hc],rfl,by simp [sendContents, LocalFile.size, hc]⟩
  · have hpos : 0 < f.size := List.length_pos_iff.mpr hc
    have hrun := sendOneFile_contents f 0 s h.sends hf hc
    rw [h.stopAfter] at hrun
    refine ⟨s.afterChunks 0 0 f.contents (chunkCount f),⟨?_,h.sends⟩,rfl,rfl,?_⟩
    · simp [afterChunks, h.stopAfter]
    · rw [sendContents, if_pos hpos, hrun]
      rfl

/-- What sending a file leaves behind before its acknowledgement is awaited. -/
theorem sendItem_file {parent : List FileName} {f : LocalFile} (h : Undisturbed s)
    (hp : Packable u (.file parent f)) :
    ∃ s', Undisturbed s' ∧ s'.out = s.out ++ record u (.file parent f) ∧
      s'.incoming = s.incoming ∧
      sendItem u (.file parent f) s = (recvFunc 1 s').bind fun ack s'' =>
        if ack = DirReceiver.fileCode then .done () s'' else .raised .assertionError s'' := by
  have hitem := sendFileItem_ok (f := f.setSeeked 0) h.sends hp
  obtain ⟨s',h',hout,hin,hrun⟩ := sendContents_ok (f := f.setSeeked 0) rfl
    (s := { s with
      out := s.out ++ (DirReceiver.fileCode ++ frame u (.file parent f)) ++
        toNetworkOrder 8 (f.setSeeked 0).size
      fileList := [f.setSeeked 0] }) ⟨h.stopAfter,h.sends⟩
  refine ⟨s',h',?_,hin,?_⟩
  · rw [hout]
    simp [record, LocalFile.setSeeked, LocalFile.size]
  · simp only [sendItem, Coro.bind_apply, hitem, Run.bind_done, hrun, Coro.ite_apply,
      Coro.pure_apply, Coro.raise_apply]

theorem sendItem_directory {parent : List FileName} {name : FileName} (h : Undisturbed s)
    (hp : Packable u (.directory parent name)) :
    ∃ s', Undisturbed s' ∧ s'.out = s.out ++ record u (.directory parent name) ∧
      s'.incoming = s.incoming ∧ sendItem u (.directory parent name) s = .done () s' :=
  ⟨{ s with out := s.out ++ record u (.directory parent name) },⟨h.stopAfter,h.sends⟩,rfl,rfl,
    sendCodeParts_ok h.sends hp DirReceiver.pathCode⟩

/-- The items that are acknowledged. -/
def isFile : DirItem → Bool
  | .directory _ _ => false
  | .file _ _ => true

theorem sendLoop_cons (items : List DirItem) (h : Undisturbed s) :
    sendLoop u (item::items) s = (sendItem u item s).bind fun _ s' => sendLoop u items s' := by
  simp [sendLoop, toStop, h.stopAfter]

/-- A sender that comes to its end has written the records of all items, whatever it was
acknowledged. -/
theorem sendLoop_done {items : List DirItem} {s s' : Sender} (h : Undisturbed s)
    (hp : ∀ item ∈ items, Packable u item) (hrun : sendLoop u items s = .done () s') :
    Undisturbed s' ∧ s'.out = s.out ++ records u items := by
  induction items generalizing s with
  | nil =>
    cases hrun
    exact ⟨h,by simp [records]⟩
  | cons item items ih =>
    have hp' : ∀ item ∈ items, Packable u item := fun i hi => hp i (List.mem_cons_of_mem _ hi)
    rw [sendLoop_cons items h] at hrun
    obtain ⟨_,s₁,hitem,hrun⟩ := Run.bind_eq_done hrun
    have hone : Undisturbed s₁ ∧ s₁.out = s.out ++ record u item := by
      cases item with
      | directory parent name =>
        obtain ⟨s₂,h₂,hout,_,hdir⟩ := sendItem_directory h (hp _ List.mem_cons_self)
        rw [hdir] at hitem
        cases hitem
        exact ⟨h₂,hout⟩
      | file parent f =>
        obtain ⟨s₂,h₂,hout,_,hfile⟩ := sendItem_file h (hp _ List.mem_cons_self)
        rw [hfile] at hitem
        obtain ⟨ack,s₃,hack,hitem⟩ := Run.bind_eq_done hitem
        split at hitem
        · cases hitem
          obtain ⟨i,rfl⟩ := recvFunc_incoming hack
          exact ⟨⟨h₂.stopAfter,h₂.sends⟩,hout⟩
        · cases hitem
    obtain ⟨h',hout⟩ := ih hone.1 hp' hrun
    exact ⟨h',by rw [hout, hone.2]; simp [records]⟩

/-- With an acknowledgement for each file of the first items, the sender gets to the ones behind
them. -/
theorem sendLoop_append {pre : List DirItem} (items : List DirItem) {s : Sender} (h : Undisturbed s)
    (hp : ∀ item ∈ pre, Packable u item) {acks : Bytes}
    (hacks : s.incoming.pending = List.replicate (pre.countP isFile) 1 ++ acks) :
    ∃ s', Undisturbed s' ∧ s'.out = s.out ++ records u pre ∧ s'.incoming.pending = acks ∧
      s'.incoming.ending = s.incoming.ending ∧
      sendLoop u (pre ++ items) s = sendLoop u items s' := by
  induction pre generalizing s with
  | nil => exact ⟨s,h,by simp [records],hacks,rfl,rfl⟩
  | cons item pre ih =>
    have hp' : ∀ item ∈ pre, Packable u item := fun i hi => hp i (List.mem_cons_of_mem _ hi)
    rw [List.cons_append, sendLoop_cons _ h]
    cases item with
    | directory parent name =>
      obtain ⟨s₁,h₁,hout,hin,hdir⟩ := sendItem_directory h (hp _ List.mem_cons_self)
      obtain ⟨s',h',hout',hp₁,he,hrun⟩ := ih h₁ hp' (by rw [hin, hacks, List.countP_cons_of_neg (by simp [isFile])])
      exact ⟨s',h',by rw [hout', hout]; simp [records],hp₁,by rw [he, hin],by
        rw [hdir, Run.bind_done, hrun]⟩
    | file parent f =>
      obtain ⟨s₁,h₁,hout,hin,hfile⟩ := sendItem_file h (hp _ List.mem_cons_self)
      have hone : s₁.incoming.pending =
          1::(List.replicate (pre.countP isFile) 1 ++ acks) := by
        rw [hin, hacks, List.countP_cons_of_pos rfl, List.replicate_succ]
        rfl
      have hack : recvFunc 1 s₁ = .done [1] { s₁ with incoming := s₁.incoming.advance 1 } := by
        simp [recvFunc, sockRecv, Source.recv_one s₁.incoming 1 _ hone]
      obtain ⟨s',h',hout',hp₁,he,hrun⟩ := ih (s := { s₁ with incoming := s₁.incoming.advance 1 })
        ⟨h₁.stopAfter,h₁.sends⟩ hp' (by rw [Source.advance_pending, hone]; rfl)
      refine ⟨s',h',by rw [hout', hout]; simp [records],hp₁,by rw [he, ← hin]; rfl,?_⟩
      rw [hfile, hack, Run.bind_done, if_pos (by rfl), Run.bind_done, hrun]

/-- Without an acknowledgement the sender waits behind a file. -/
theorem sendLoop_waits {parent : List FileName} {f : LocalFile} {items : List DirItem} {s : Sender}
    (h : Undisturbed s) (hp : Packable u (.file parent f)) (hin : s.incoming.pending = [])
    (he : s.incoming.ending = .silent) :
    ∃ s', s'.out = s.out ++ record u (.file parent f) ∧
      sendLoop u (.file parent f::items) s = .blocked s' := by
  obtain ⟨s₁,_,hout,hin',hfile⟩ := sendItem_file h hp
  refine ⟨s₁,hout,?_⟩
  have hblocked : recvFunc 1 s₁ = .blocked s₁ := by
    simp [recvFunc, sockRecv, Source.recv_silent s₁.incoming Nat.one_ne_zero (hin' ▸ hin) (hin' ▸ he)]
  rw [sendLoop_cons _ h, hfile, hblocked]
  rfl

end DirSender
end PeerConnect.Transfers
