import PeerConnect.Transfers.FileItem
import PeerConnect.Wire.Packet

/-! The receiving side of a file transfer: `files.Receiver` over a connection and a file system. -/
namespace PeerConnect.Transfers
open Library Wire

/-- A receiver handle. The current file is the last of its file items, one object under two
names. -/
structure Receiver where
  state : TransferState := .preparing
  downloadPath : Path
  toStop : Bool := false
  connectionMade : Bool := true
  earlier : List FileItem := []
  currentFile : Option FileItem := none

def Receiver.fileItems (r : Receiver) : List FileItem := r.earlier ++ r.currentFile.toList

/-- A receiver with what it works on: the file system, what comes in over its connection, and what it
has sent back. -/
structure World where
  rx : Receiver
  fs : FileSystem
  source : Source UInt8
  sent : Bytes := []

namespace World

def setState (s : TransferState) (w : World) : World := { w with rx := { w.rx with state := s } }

/-- `self.file_items.append(self._current_file)` -/
def append (item : FileItem) (w : World) : World :=
  { w with rx := { w.rx with earlier := w.rx.fileItems, currentFile := some item } }

def updateCurrent (f : FileItem → FileItem) (w : World) : World :=
  { w with rx := { w.rx with currentFile := w.rx.currentFile.map f } }

@[simp] theorem setState_source (s : TransferState) (w : World) :
    (w.setState s).source = w.source := rfl
@[simp] theorem setState_fs (s : TransferState) (w : World) : (w.setState s).fs = w.fs := rfl
@[simp] theorem append_source (item : FileItem) (w : World) :
    (w.append item).source = w.source := rfl
@[simp] theorem append_fs (item : FileItem) (w : World) : (w.append item).fs = w.fs := rfl
@[simp] theorem updateCurrent_source (f : FileItem → FileItem) (w : World) :
    (w.updateCurrent f).source = w.source := rfl
@[simp] theorem updateCurrent_fs (f : FileItem → FileItem) (w : World) :
    (w.updateCurrent f).fs = w.fs := rfl

end World

namespace Receiver

def onDisk {α : Type} (x : Coro FsError FileSystem α) : Coro Exn World α :=
  Coro.zoom World.fs (fun fs w => { w with fs := fs }) Exn.ofFsError x

def recvFunc (n : ℕ) : Coro Exn World Bytes :=
  Coro.zoom World.source (fun s w => { w with source := s }) id (sockRecv n)

def sendFunc (data : Bytes) : Coro Exn World Unit :=
  Coro.modify fun w => { w with sent := w.sent ++ data }

/-- `use.recv_int` -/
def recvInt (width : ℕ) : Coro Exn World ℕ := do
  let bytedInt ← Coro.tryCatch (recvFunc width) fun e =>
    if e = .connectionReset then Coro.raise .valueError else Coro.raise e
  match unpackUInt width bytedInt with
  | some integer => pure integer
  | none => Coro.raise .valueError

def handleException {α : Type} (e : Exn) : Coro Exn World α :=
  Transfers.handleException World.setState e

/-- The tag byte, or nothing at the end of the transfer. -/
def shouldProceed : Coro Exn World Bytes := do
  let toStop ← Coro.get (·.rx.toStop)
  if toStop then pure [] else do
    let what ← Coro.tryCatch (recvFunc 1) handleException
    if what = [0] then pure [] else pure what

def recvFileItem (u : Umsgpack) : Coro Exn World FileItem := do
  let fileItemSize ← Coro.tryCatch (recvInt 4) fun e =>
    if e = .valueError then Coro.raise .transferIncomplete else Coro.raise e
  let rawFileItem ← Coro.tryCatch (recvFunc fileItemSize) fun e =>
    if e.isOSError then Coro.raise .transferIncomplete else Coro.raise e
  let downloadPath ← Coro.get (·.rx.downloadPath)
  Coro.ofExcept (FileItem.loadFrom u rawFileItem downloadPath)

/-- `self.current_file`, with the item that has just been appended at hand. -/
def current : Coro Exn World FileItem := fun w =>
  match w.rx.currentFile with
  | some item => .done item w
  | none => .raised (.other 0) w

/-- `validatename`: the name is set before the path, which has to have a name to replace. -/
def validatename : Coro Exn World Unit := do
  let item ← current
  let downloadPath ← Coro.get (·.rx.downloadPath)
  let fs ← Coro.get World.fs
  let newFileName := validName fs downloadPath item.path.name
  Coro.modify (World.updateCurrent fun f => { f with name := newFileName })
  match item.path.withName newFileName with
  | some path => Coro.modify (World.updateCurrent fun f => { f with path := path })
  | none => Coro.raise .valueError

/-- `fd.seek(seeked)` -/
def seek (seeked : Value) : Except Exn ℕ :=
  match seeked.int? with
  | none => .error .typeError
  | some n =>
    if maxOffset < n then .error .valueError
    else if n < 0 then .error .osError
    else .ok n.toNat

/-- `f_writer(data)`, and the count kept in the file item. -/
def write (l : Loc) (position : ℕ) (data : Bytes) (w : World) : World :=
  World.updateCurrent
    (fun f => { f with seeked := .int ((f.seeked.int?.getD 0)+data.length) })
    { w with fs := w.fs.writeAt l position data }

theorem recvFunc_done {n : ℕ} {data : Bytes} {w w' : World} (h : recvFunc n w = .done data w') :
    w' = { w with source := w.source.advance data.length } ∧
      w.source.pending = data ++ w.source.pending.drop data.length ∧ data.length ≤ n := by
  obtain ⟨s,hr,rfl⟩ := Coro.zoom_done h
  obtain ⟨rfl,hp,hl⟩ := sockRecv_done hr
  exact ⟨rfl,hp,hl⟩

theorem recvFunc_done_pending {n : ℕ} {data : Bytes} {w w' : World}
    (h : recvFunc n w = .done data w') :
    w'.source.pending.length + data.length = w.source.pending.length := by
  obtain ⟨rfl,hp,_⟩ := recvFunc_done h
  have := congrArg List.length hp
  rw [List.length_append] at this
  simp only [Source.advance_pending]
  omega

/-- The loop of `recv_file_contents` with the body of its consumer, which stops on demand. -/
def contentLoop (l : Loc) (chunkSize position : ℕ) (remainingBytes : ℤ) (w : World) :
    Run Exn World Unit :=
  if 0 < remainingBytes then
    match h : recvFunc (min chunkSize remainingBytes.toNat) w with
    | .raised e w' => .raised e w'
    | .blocked w' => .blocked w'
    | .done data w' =>
      if hd : data = [] then .done () w'
      else if w'.rx.toStop then .done () (write l position data w')
      else
        have : (write l position data w').source.pending.length < w.source.pending.length := by
          have hl := recvFunc_done_pending h
          have := List.length_pos_iff.mpr hd
          show w'.source.pending.length < _
          omega
        contentLoop l chunkSize (position+data.length) (remainingBytes-data.length)
          (write l position data w')
  else .done () w
termination_by w.source.pending.length

/-- One round of the loop. -/
theorem contentLoop_eq (l : Loc) (chunkSize position : ℕ) (remainingBytes : ℤ) (w : World) :
    contentLoop l chunkSize position remainingBytes w =
      if 0 < remainingBytes then
        (recvFunc (min chunkSize remainingBytes.toNat) w).bind fun data w' =>
          if data = [] then .done () w'
          else if w'.rx.toStop then .done () (write l position data w')
          else contentLoop l chunkSize (position+data.length) (remainingBytes-data.length)
            (write l position data w')
      else .done () w := by
  rw [contentLoop]
  split
  · split
    next h => rw [h]; rfl
    next h => rw [h]; rfl
    next h =>
      simp only [h, Run.bind_done, dite_eq_ite]
  · rfl

/-- `recv_file_contents` with its `_setup_transfer`. -/
def recvFileContents : Coro Exn World Unit := do
  let item ← current
  let found ← Coro.get fun w => w.fs.pathExists item.path
  if item.seeked.isPositive = none then Coro.raise .typeError
  else if item.seeked.isPositive = some true ∧ found = false then Coro.raise .fileNotFound
  else do
    let l ← onDisk (if item.seeked.isZero then FileSystem.create item.path (.file [])
      else FileSystem.openExisting item.path)
    let position ← Coro.ofExcept (seek item.seeked)
    let fileSize := item.size.int?.getD 0
    contentLoop l (calculateChunkSize fileSize) position (fileSize-position)

def receiveSingleFile : Coro Exn World Unit := do
  validatename
  let item ← current
  Coro.ofExcept (statusSetup item.seeked item.size)
  Coro.tryCatch recvFileContents handleException
  let item ← current
  let toStop ← Coro.get (·.rx.toStop)
  if item.seeked.int?.getD 0 < item.size.int?.getD 0 then
    if toStop then pure () else Coro.raise .transferIncomplete
  else pure ()

/-- `_recv_file_once`, once the header has been read. -/
def receiveItem (item : FileItem) : Coro Exn World Unit := do
  Coro.modify (World.append item)
  match item.size.atMostZero with
  | none => Coro.raise .typeError
  | some true => onDisk (FileSystem.touch item.path)
  | some false => receiveSingleFile

def recvFileOnce (u : Umsgpack) : Coro Exn World Unit := do
  let item ← Coro.tryCatch (recvFileItem u) handleException
  receiveItem item

/-- What no step of receiving a file changes, and how far it can get. -/
structure Progress (w w' : World) : Prop where
  pending : w'.source.pending <:+ w.source.pending
  ending : w'.source.ending = w.source.ending
  cut : w'.source.cut = w.source.cut
  downloadPath : w'.rx.downloadPath = w.rx.downloadPath
  toStop : w'.rx.toStop = w.rx.toStop
  connectionMade : w'.rx.connectionMade = w.rx.connectionMade
  state : w'.rx.state = w.rx.state ∨ w'.rx.state = .paused
  items : w.rx.fileItems.length ≤ w'.rx.fileItems.length

theorem Progress.refl (w : World) : Progress w w :=
  ⟨List.suffix_rfl,rfl,rfl,rfl,rfl,rfl,.inl rfl,le_rfl⟩

theorem Progress.trans {w w' w'' : World} (h : Progress w w') (h' : Progress w' w'') :
    Progress w w'' where
  pending := h'.pending.trans h.pending
  ending := h'.ending.trans h.ending
  cut := h'.cut.trans h.cut
  downloadPath := h'.downloadPath.trans h.downloadPath
  toStop := h'.toStop.trans h.toStop
  connectionMade := h'.connectionMade.trans h.connectionMade
  state := h'.state.elim (fun e => e ▸ h.state) .inr
  items := h.items.trans h'.items

instance : Std.Refl Progress := ⟨Progress.refl⟩
instance : IsTrans World Progress := ⟨fun _ _ _ => Progress.trans⟩

open Coro

theorem progress_recvFunc (n : ℕ) : Moves Progress (recvFunc n) := by
  refine Moves.zoom fun w => ?_
  have hs : ∃ k, (sockRecv n w.source).state = w.source ∨
      (sockRecv n w.source).state = w.source.advance k := by
    rcases Source.recv_cases w.source n with ⟨xs,hr,_⟩ | ⟨_,⟨_,hr⟩ | ⟨_,_,hr⟩ | ⟨_,_,hr⟩⟩
    · exact ⟨xs.length,.inr (by simp [sockRecv, hr])⟩
    · exact ⟨0,.inr (by simp [sockRecv, hr])⟩
    · exact ⟨0,.inl (by simp [sockRecv, hr])⟩
    · exact ⟨0,.inl (by simp [sockRecv, hr])⟩
  obtain ⟨k,hk | hk⟩ := hs
  · rw [hk]
    exact .refl w
  · rw [hk]
    exact ⟨List.drop_suffix _ _,rfl,rfl,rfl,rfl,rfl,.inl rfl,le_rfl⟩

theorem progress_onDisk {α : Type} (x : Coro FsError FileSystem α) : Moves Progress (onDisk x) :=
  Moves.zoom fun _ => ⟨List.suffix_rfl,rfl,rfl,rfl,rfl,rfl,.inl rfl,le_rfl⟩

theorem progress_handleException {α : Type} (e : Exn) :
    Moves Progress (handleException e : Coro Exn World α) :=
  .ite (fun _ => .bind (.modify fun _ => ⟨List.suffix_rfl,rfl,rfl,rfl,rfl,rfl,.inr rfl,le_rfl⟩)
    fun _ => .raise _) fun _ => .raise _

theorem updateCurrent_items (f : FileItem → FileItem) (w : World) :
    (w.updateCurrent f).rx.fileItems.length = w.rx.fileItems.length := by
  cases h : w.rx.currentFile <;> simp [World.updateCurrent, fileItems, h]

theorem append_items (item : FileItem) (w : World) :
    (w.append item).rx.fileItems = w.rx.fileItems ++ [item] := rfl

theorem progress_updateCurrent (f : FileItem → FileItem) :
    Moves Progress (Coro.modify (World.updateCurrent f) : Coro Exn World Unit) :=
  .modify fun w => ⟨List.suffix_rfl,rfl,rfl,rfl,rfl,rfl,.inl rfl,(updateCurrent_items f w).ge⟩

theorem progress_append (item : FileItem) :
    Moves Progress (Coro.modify (World.append item) : Coro Exn World Unit) :=
  .modify fun w => ⟨List.suffix_rfl,rfl,rfl,rfl,rfl,rfl,.inl rfl,by simp [append_items]⟩

theorem progress_current : Moves Progress current := by
  intro w
  unfold current
  split <;> exact .refl w

theorem progress_recvInt (width : ℕ) : Moves Progress (recvInt width) := by
  refine .bind (.tryCatch (progress_recvFunc width) fun e => .ite (fun _ => .raise _)
    fun _ => .raise _) fun bytes => ?_
  split
  · exact .pure _
  · exact .raise _

theorem progress_recvFileItem (u : Umsgpack) : Moves Progress (recvFileItem u) :=
  .bind (.tryCatch (progress_recvInt 4) fun _ => .ite (fun _ => .raise _) fun _ => .raise _)
    fun n => .bind (.tryCatch (progress_recvFunc n) fun _ => .ite (fun _ => .raise _)
      fun _ => .raise _) fun _ => .bind (.get _) fun _ => .ofExcept _

theorem progress_validatename : Moves Progress validatename := by
  refine .bind progress_current fun item => .bind (.get _) fun root => .bind (.get _) fun fs =>
    .bind (progress_updateCurrent _) fun _ => ?_
  split
  · exact progress_updateCurrent _
  · exact .raise _

theorem progress_write (l : Loc) (position : ℕ) (data : Bytes) (w : World) :
    Progress w (write l position data w) :=
  ⟨List.suffix_rfl,rfl,rfl,rfl,rfl,rfl,.inl rfl,(updateCurrent_items _ _).ge⟩

/-- Where reading and writing move along a relation, so does the loop. -/
theorem moves_contentLoop {R : World → World → Prop} [Std.Refl R] [IsTrans World R]
    (hrecv : ∀ n, Moves R (recvFunc n)) {l : Loc}
    (hwrite : ∀ position data w, R w (write l position data w)) (chunkSize position : ℕ)
    (remainingBytes : ℤ) : Moves R (contentLoop l chunkSize position remainingBytes) := by
  intro w
  fun_induction contentLoop l chunkSize position remainingBytes w with
  | case1 position remaining w hr e w' h =>
    have hp := hrecv (min chunkSize remaining.toNat) w
    rwa [h] at hp
  | case2 position remaining w hr w' h =>
    have hp := hrecv (min chunkSize remaining.toNat) w
    rwa [h] at hp
  | case3 position remaining w hr w' h =>
    have hp := hrecv (min chunkSize remaining.toNat) w
    rwa [h] at hp
  | case4 position remaining w hr data w' h hd ht =>
    have hp := hrecv (min chunkSize remaining.toNat) w
    rw [h] at hp
    exact IsTrans.trans _ _ _ hp (hwrite position data w')
  | case5 position remaining w hr data w' h hd ht _ ih =>
    have hp := hrecv (min chunkSize remaining.toNat) w
    rw [h] at hp
    exact IsTrans.trans _ _ _ (IsTrans.trans _ _ _ hp (hwrite position data w')) ih
  | case6 position remaining w hr => exact Std.Refl.refl w

theorem progress_contentLoop (l : Loc) (chunkSize position : ℕ) (remainingBytes : ℤ) :
    Moves Progress (contentLoop l chunkSize position remainingBytes) :=
  moves_contentLoop progress_recvFunc (progress_write l) chunkSize position remainingBytes

theorem progress_recvFileContents : Moves Progress recvFileContents := by
  refine .bind progress_current fun item => .bind (.get _) fun found => .ite (fun _ => .raise _)
    fun _ => .ite (fun _ => .raise _) fun _ => .bind (progress_onDisk _) fun l =>
      .bind (.ofExcept _) fun position => progress_contentLoop _ _ _ _

theorem progress_receiveSingleFile : Moves Progress receiveSingleFile :=
  .bind progress_validatename fun _ => .bind progress_current fun _ => .bind (.ofExcept _) fun _ =>
    .bind (.tryCatch progress_recvFileContents progress_handleException) fun _ =>
      .bind progress_current fun _ => .bind (.get _) fun _ =>
        .ite (fun _ => .ite (fun _ => .pure _) fun _ => .raise _) fun _ => .pure _

theorem progress_receiveItem (item : FileItem) : Moves Progress (receiveItem item) := by
  refine .bind (progress_append item) fun _ => ?_
  split
  · exact .raise _
  · exact progress_onDisk _
  · exact progress_receiveSingleFile

theorem progress_recvFileOnce (u : Umsgpack) : Moves Progress (recvFileOnce u) :=
  .bind (.tryCatch (progress_recvFileItem u) progress_handleException) progress_receiveItem

theorem handleException_ne_done {α : Type} (e : Exn) (w w' : World) (a : α) :
    handleException e w ≠ .done a w' := by
  unfold handleException Transfers.handleException
  split <;> simp

theorem recvInt_done {width n : ℕ} {w w' : World} (h : recvInt width w = .done n w') :
    ∃ bs, recvFunc width w = .done bs w' ∧ unpackUInt width bs = some n := by
  obtain ⟨bs,t,hr,h⟩ := Run.bind_eq_done h
  have hr := tryCatch_done hr fun e t => by split <;> simp
  cases hu : unpackUInt width bs with
  | none => simp [hu] at h
  | some m =>
    simp only [hu, pure_apply, Run.done.injEq] at h
    obtain ⟨rfl,rfl⟩ := h
    exact ⟨bs,hr,hu⟩

theorem recvFileItem_done {u : Umsgpack} {w w' : World} {item : FileItem}
    (h : recvFileItem u w = .done item w') :
    w'.source.pending.length < w.source.pending.length := by
  obtain ⟨n,t,hn,h⟩ := Run.bind_eq_done h
  have hn := tryCatch_done hn fun e t => by split <;> simp
  obtain ⟨bs,hbs,hu⟩ := recvInt_done hn
  have hl : bs.length = 4 := by
    by_contra hne
    rw [unpackUInt_eq_none.mpr hne] at hu
    cases hu
  have hp := recvFunc_done_pending hbs
  obtain ⟨raw,t',hraw,h⟩ := Run.bind_eq_done h
  have hraw := tryCatch_done hraw fun e t => by split <;> simp
  have hp' := recvFunc_done_pending hraw
  cases hi : FileItem.loadFrom u raw t'.rx.downloadPath with
  | error e => simp [hi] at h
  | ok item' =>
    simp only [bind_apply, get_apply, Run.bind_done, hi, ofExcept_ok, Run.done.injEq] at h
    obtain ⟨_,rfl⟩ := h
    omega

theorem recvFileOnce_done {u : Umsgpack} {w w' : World} (h : recvFileOnce u w = .done () w') :
    w'.source.pending.length < w.source.pending.length := by
  obtain ⟨item,t,hi,h⟩ := Run.bind_eq_done h
  have hi := recvFileItem_done (tryCatch_done hi fun e t => handleException_ne_done e t _ _)
  have hp := progress_receiveItem item t
  rw [show receiveItem item t = .done () w' from h] at hp
  have := hp.pending.length_le
  simp only [Run.state_done] at this
  omega

theorem shouldProceed_done {w w' : World} {what : Bytes} (h : shouldProceed w = .done what w')
    (hne : what ≠ []) : w'.source.pending.length < w.source.pending.length := by
  simp only [shouldProceed, bind_apply, get_apply, Run.bind_done] at h
  split at h
  · simp only [pure_apply, Run.done.injEq] at h
    exact absurd h.1.symm hne
  · obtain ⟨bs,t,hr,h⟩ := Run.bind_eq_done h
    have hp := recvFunc_done_pending (tryCatch_done hr fun e t => handleException_ne_done e t _ _)
    dsimp only at h
    split at h
    · simp only [pure_apply, Run.done.injEq] at h
      exact absurd h.1.symm hne
    · simp only [pure_apply, Run.done.injEq] at h
      obtain ⟨rfl,rfl⟩ := h
      have := List.length_pos_iff.mpr hne
      omega

/-- The loop of `recv_files`. -/
def recvLoop (u : Umsgpack) (w : World) : Run Exn World Unit :=
  match h : shouldProceed w with
  | .raised e w' => .raised e w'
  | .blocked w' => .blocked w'
  | .done what w' =>
    if hw : what = [] then .done () w'
    else
      match h' : recvFileOnce u w' with
      | .raised e w'' => .raised e w''
      | .blocked w'' => .blocked w''
      | .done _ w'' =>
        have : w''.source.pending.length < w.source.pending.length :=
          (recvFileOnce_done h').trans (shouldProceed_done h hw)
        recvLoop u w''
termination_by w.source.pending.length

/-- One round of the loop. -/
theorem recvLoop_eq (u : Umsgpack) (w : World) :
    recvLoop u w = (shouldProceed w).bind fun what w' =>
      if what = [] then .done () w' else (recvFileOnce u w').bind fun _ w'' => recvLoop u w'' := by
  rw [recvLoop]
  split
  next h => rw [h]; rfl
  next h => rw [h]; rfl
  next what w' h =>
    simp only [h, Run.bind_done]
    split
    · rfl
    · split
      next h' => rw [h']; rfl
      next h' => rw [h']; rfl
      next h' => simp only [h', Run.bind_done]

theorem progress_shouldProceed : Moves Progress shouldProceed :=
  .bind (.get _) fun _ => .ite (fun _ => .pure _) fun _ =>
    .bind (.tryCatch (progress_recvFunc 1) progress_handleException) fun _ =>
      .ite (fun _ => .pure _) fun _ => .pure _

theorem progress_recvLoop (u : Umsgpack) : Moves Progress (recvLoop u) := by
  intro w
  have hs := progress_shouldProceed
  have ho := progress_recvFileOnce u
  fun_induction recvLoop u w with
  | case1 w e w' h => have := hs w; rwa [h] at this
  | case2 w w' h => have := hs w; rwa [h] at this
  | case3 w w' h => have := hs w; rwa [h] at this
  | case4 w what w' h hw e w'' h' =>
    have hp := hs w
    have hq := ho w'
    rw [h] at hp
    rw [h'] at hq
    exact hp.trans hq
  | case5 w what w' h hw w'' h' =>
    have hp := hs w
    have hq := ho w'
    rw [h] at hp
    rw [h'] at hq
    exact hp.trans hq
  | case6 w what w' h hw _ w'' h' _ ih =>
    have hp := hs w
    have hq := ho w'
    rw [h] at hp
    rw [h'] at hq
    exact (hp.trans hq).trans ih

def awaitConnection : Coro Exn World Unit := fun w =>
  if w.rx.connectionMade then .done () w else .blocked w

def recvFiles (u : Umsgpack) : Coro Exn World Unit := do
  Coro.modify (World.setState .connecting)
  awaitConnection
  Coro.modify (World.setState .receiving)
  recvLoop u
  Coro.modify (World.setState .completed)

/-- The loop of `continue_transfer`. Its `self._should_proceed()` is not awaited: the coroutine object
is true whatever it would have returned, and no tag byte is read. -/
def continueLoop (u : Umsgpack) (w : World) : Run Exn World Unit :=
  match h : recvFileOnce u w with
  | .raised e w' => .raised e w'
  | .blocked w' => .blocked w'
  | .done _ w' =>
    have : w'.source.pending.length < w.source.pending.length := recvFileOnce_done h
    continueLoop u w'
termination_by w.source.pending.length

/-- `struct.pack('!Q', self.current_file.seeked)` -/
def packSeeked (seeked : Value) : Except Exn Bytes :=
  match seeked.int? with
  | some (.ofNat n) => match packUInt 8 n with
    | some bs => .ok bs
    | none => .error .structError
  | _ => .error .structError

def continueTransfer (u : Umsgpack) : Coro Exn World Unit := do
  let w ← Coro.get id
  if w.rx.state ≠ .paused ∨ w.rx.toStop then Coro.raise .invalidStateError
  else do
    Coro.modify (World.setState .receiving)
    awaitConnection
    Coro.tryCatch
      (do
        let item ← current
        let bytes ← Coro.ofExcept (packSeeked item.seeked)
        sendFunc bytes)
      handleException
    continueLoop u

end Receiver
end PeerConnect.Transfers
