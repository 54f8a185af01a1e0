import PeerConnect.Transfers.SenderRun
import PeerConnect.Transfers.Contents

/-! `send_actual_file` and `recv_file_contents` by themselves, for any sizes of their steps. -/
namespace PeerConnect.Transfers
open Library Wire FileSystem

namespace Sender

/-- `send_actual_file` with a chunk length; none is given as zero. -/
def sendActualFileBy (chunkLen index : ℕ) (f : LocalFile) : Coro Exn Sender Unit :=
  if f.contents = [] then Coro.raise .valueError
  else
    let chunkSize := if chunkLen = 0 then calculateChunkSize f.size else chunkLen
    chunkLoop index f.contents chunkSize (steps f.seeked f.size chunkSize)

theorem sendActualFileBy_zero (index : ℕ) (f : LocalFile) :
    sendActualFileBy 0 index f = sendActualFile index f := by
  simp [sendActualFileBy, sendActualFile]

/-- Whatever the chunk length, the file is sent from its offset on to its end. -/
theorem sendActualFileBy_sends {chunkLen : ℕ} (hc : 0 < chunkLen) {f : LocalFile}
    (hne : f.contents ≠ []) (hseek : f.seeked ≤ f.size) :
    ∃ s, sendActualFileBy chunkLen 0 f { fileList := [f] } = .done () s ∧
      s.out = f.contents.drop f.seeked ∧ s.fileList = [f.setSeeked f.size] := by
  rw [sendActualFileBy, if_neg hne]
  simp only [if_neg hc.ne']
  rcases hseek.lt_or_eq with hlt | heq
  · refine ⟨_,chunkLoop_steps 0 f.contents hc f.seeked _ rfl hlt,?_,?_⟩
    · simp [afterChunks, cutOff]
    · have : f.seeked + (f.contents.length - f.seeked) = f.size := Nat.add_sub_of_le hseek
      simp [afterChunks, setSeeked, cutOff, this]
  · refine ⟨{ fileList := [f] },?_,?_,?_⟩
    · rw [steps_of_le heq.ge]
      rfl
    · rw [heq, LocalFile.size, List.drop_length]
    · rw [← heq]
      rfl

end Sender

/-- A file that is open for the content phase. -/
structure Reception where
  location : Loc
  chunkSize : ℕ
  fileSize : ℤ
  position : ℕ
  remainingBytes : ℤ

/-- A world with the positions that `recv_file_contents` has yielded. -/
structure Observed where
  world : World
  yielded : List ℤ := []

namespace Receiver

/-- `_setup_transfer`; a chunk size of zero is none. -/
def setupTransfer (chunkSize : ℕ) : Coro Exn World Reception := do
  let item ← current
  let found ← Coro.get fun w => w.fs.pathExists item.path
  if item.seeked.isPositive = none then Coro.raise .typeError
  else if item.seeked.isPositive = some true ∧ found = false then Coro.raise .fileNotFound
  else do
    let fileSize := item.size.int?.getD 0
    let chunkSize := if chunkSize = 0 then calculateChunkSize fileSize else chunkSize
    let l ← onDisk (if item.seeked.isZero then FileSystem.create item.path (.file [])
      else FileSystem.openExisting item.path)
    let position ← Coro.ofExcept (seek item.seeked)
    pure ⟨l,chunkSize,fileSize,position,fileSize-position⟩

/-- The content phase of a receiver is that of its own chunk size. -/
theorem recvFileContents_eq (w : World) : recvFileContents w =
    (setupTransfer 0 w).bind fun r w' =>
      contentLoop r.location r.chunkSize r.position r.remainingBytes w' := by
  simp only [recvFileContents, setupTransfer, Coro.bind_apply]
  cases current w with
  | done item w' =>
    simp only [Run.bind_done, Coro.get_apply, Coro.ite_apply]
    split
    · rfl
    · split
      · rfl
      · simp only [Coro.bind_apply, if_true]
        cases onDisk _ w' with
        | done l w'' =>
          cases hs : seek item.seeked <;> rfl
        | raised e w'' => rfl
        | blocked w'' => rfl
  | raised e w' => rfl
  | blocked w' => rfl

/-- What has been received is not pending any more. -/
theorem write_pending_lt {n : ℕ} {w w' : World} {data : Bytes} (h : recvFunc n w = .done data w')
    (hd : data ≠ []) (l : Loc) (position : ℕ) :
    (write l position data w').source.pending.length < w.source.pending.length := by
  have hl := recvFunc_done_pending h
  have := List.length_pos_iff.mpr hd
  show w'.source.pending.length < _
  omega

/-- The loop of `recv_file_contents`, which yields after each write. -/
def readLoop (l : Loc) (chunkSize position : ℕ) (fileSize remainingBytes : ℤ) (o : Observed) :
    Run Exn Observed Unit :=
  if 0 < remainingBytes then
    match h : recvFunc (min chunkSize remainingBytes.toNat) o.world with
    | .raised e w' => .raised e { o with world := w' }
    | .blocked w' => .blocked { o with world := w' }
    | .done data w' =>
      if hd : data = [] then .done () { o with world := w' }
      else
        have := write_pending_lt h hd l position
        readLoop l chunkSize (position+data.length) fileSize (remainingBytes-data.length)
          ⟨write l position data w',o.yielded ++ [fileSize-(remainingBytes-data.length)]⟩
  else .done () o
termination_by o.world.source.pending.length

/-- One round of the loop. -/
theorem readLoop_eq (l : Loc) (chunkSize position : ℕ) (fileSize remainingBytes : ℤ) (o : Observed) :
    readLoop l chunkSize position fileSize remainingBytes o =
      if 0 < remainingBytes then
        ((recvFunc (min chunkSize remainingBytes.toNat) o.world).within
          (fun w => { o with world := w }) id).bind fun data o' =>
          if data = [] then .done () o'
          else readLoop l chunkSize (position+data.length) fileSize (remainingBytes-data.length)
            ⟨write l position data o'.world,o.yielded ++ [fileSize-(remainingBytes-data.length)]⟩
      else .done () o := by
  rw [readLoop]
  split
  · split
    next h => rw [h]; rfl
    next h => rw [h]; rfl
    next h => simp only [h, Run.within_done, Run.bind_done, dite_eq_ite]
  · rfl

/-- The loop yields positions in increasing order, and else is the loop of a receiver that is not told
to stop. -/
theorem readLoop_contentLoop (l : Loc) (chunkSize position : ℕ) (fileSize remainingBytes : ℤ)
    (o : Observed) (hstop : o.world.rx.toStop = false) :
    ∃ ys : List ℤ, (∀ y ∈ ys, fileSize-remainingBytes < y) ∧ ys.Pairwise (· < ·) ∧
      readLoop l chunkSize position fileSize remainingBytes o =
        (contentLoop l chunkSize position remainingBytes o.world).within
          (fun w => ⟨w,o.yielded ++ ys⟩) id := by
  obtain ⟨w,yielded⟩ := o
  fun_induction contentLoop l chunkSize position remainingBytes w generalizing yielded with
  | case1 position remaining w hr e w' h =>
    refine ⟨[],List.forall_mem_nil _,.nil,?_⟩
    rw [readLoop_eq, contentLoop_eq, if_pos hr, if_pos hr, h]
    simp
  | case2 position remaining w hr w' h =>
    refine ⟨[],List.forall_mem_nil _,.nil,?_⟩
    rw [readLoop_eq, contentLoop_eq, if_pos hr, if_pos hr, h]
    simp
  | case3 position remaining w hr w' h =>
    refine ⟨[],List.forall_mem_nil _,.nil,?_⟩
    rw [readLoop_eq, contentLoop_eq, if_pos hr, if_pos hr, h]
    simp
  | case4 position remaining w hr data w' h hd ht =>
    obtain ⟨rfl,_⟩ := recvFunc_done h
    rw [show w.rx.toStop = true from ht] at hstop
    cases hstop
  | case5 position remaining w hr data w' h hd ht _ ih =>
    have hlength := List.length_pos_iff.mpr hd
    obtain ⟨ys,hys,hsorted,heq⟩ := ih (yielded ++ [fileSize-(remaining-data.length)])
      (by simpa [write, World.updateCurrent] using ht)
    refine ⟨(fileSize-(remaining-data.length))::ys,?_,?_,?_⟩
    · intro y hy
      rcases List.mem_cons.mp hy with rfl | hy
      · omega
      · have := hys y hy
        omega
    · exact List.pairwise_cons.mpr ⟨hys,hsorted⟩
    · rw [readLoop_eq, contentLoop_eq, if_pos hr, if_pos hr, h]
      simp only [Run.within_done, Run.bind_done, if_neg hd, if_neg ht, heq]
      simp
  | case6 position remaining w hr =>
    refine ⟨[],List.forall_mem_nil _,.nil,?_⟩
    rw [readLoop_eq, contentLoop_eq, if_neg hr, if_neg hr]
    simp

def recvFileContentsBy (chunkSize : ℕ) : Coro Exn Observed Unit := fun o =>
  match setupTransfer chunkSize o.world with
  | .done r w => readLoop r.location r.chunkSize r.position r.fileSize r.remainingBytes { o with world := w }
  | .raised e w => .raised e { o with world := w }
  | .blocked w => .blocked { o with world := w }

/-- What is there of a file at its offset; one that nothing has been written of is not there. -/
def StartedOn (fs : FileSystem) (p : Path) (done : Bytes) : Prop :=
  if done = [] then ∃ l, fs.locate p = .ok (l,false) else fs.content p = some done

/-- What the content phase has left: the file, the offset in its item, and the rest of the stream. -/
structure Received (p : Path) (contents rest : Bytes) (o : Observed) : Prop where
  content : o.world.fs.content p = some contents
  seeked : o.world.rx.currentFile.map FileItem.seeked = some (.int contents.length)
  pending : o.world.source.pending = rest
  increasing : o.yielded.Pairwise (· < ·)

/-- Where directories stay, a path that leads to a file leads to what is put there. -/
theorem content_put {fs fs' fs'' : FileSystem} {p : Path} {l : Loc} {found : Bool} {bs : Bytes}
    (hloc : fs.locate p = .ok (l,found)) (hl : fs.lookup l ≠ some .dir)
    (hdirs : ∀ l, fs.lookup l = some .dir → fs'.lookup l = some .dir) (hl' : fs'.lookup l ≠ some .dir)
    (h : Put fs' fs'' l (.file bs)) : fs''.content p = some bs := by
  obtain ⟨q,c,d,rfl,hq,hc,hnul,rfl⟩ := locate_ends hloc hl
  have hq' : fs''.IsDirectory q d := hq.mono fun l hd => h.dirs hl' l (hdirs l hd)
  simp [FileSystem.content, locate_taken hq' hc hnul (by rw [h.here]; simp), h.here]

/-- The file is opened at its offset, and created for that if the offset is zero. -/
theorem setupTransfer_opens {w : World} {item : FileItem} {f : LocalFile} {chunkSize : ℕ}
    (hcur : w.rx.currentFile = some item) (hsize : item.size = .int f.size)
    (hseeked : item.seeked = .int f.seeked) (hne : f.contents ≠ []) (hle : f.seeked ≤ f.size)
    (hc : 0 < chunkSize) (hstart : StartedOn w.fs item.path (f.contents.take f.seeked)) :
    ∃ l fs, setupTransfer chunkSize w =
        .done ⟨l,chunkSize,f.size,f.seeked,f.size-f.seeked⟩ { w with fs := fs } ∧
      fs.lookup l = some (.file (f.contents.take f.seeked)) ∧
      ∀ fs' bs, Put fs fs' l (.file bs) → fs'.content item.path = some bs := by
  have hseek : seek (.int f.seeked) = .ok f.seeked := by
    have := f.size_le
    have : (f.seeked:ℤ) ≤ maxOffset := le_trans (by exact_mod_cast hle) this
    simp [seek, Value.int?, not_lt.mpr this]
  by_cases hz : f.seeked = 0
  · have hdone : f.contents.take f.seeked = [] := by rw [hz, List.take_zero]
    rw [StartedOn, if_pos hdone] at hstart
    obtain ⟨l,hloc⟩ := hstart
    have hnone : w.fs.lookup l = none := by
      obtain ⟨_,_,_,_,_,h⟩ := locate_false hloc
      exact h
    have hdir : w.fs.lookup l ≠ some .dir := by rw [hnone]; simp
    obtain ⟨q,c,d,hp,hq,hc',hnul,rfl⟩ := locate_ends hloc hdir
    obtain ⟨fs,hcreate,hput,_⟩ := create_entry hq hc' hnul (.file []) hnone
    rw [← hp] at hcreate
    have hopen : onDisk (create item.path (.file [])) w = .done (c::d) { w with fs := fs } := by
      simp [onDisk, hcreate]
    refine ⟨c::d,fs,?_,by rw [hdone]; exact hput.here,fun fs' bs hbs => ?_⟩
    · have hpos : Value.isPositive (.int (f.seeked:ℤ)) = some false := by simp [hz]; rfl
      have hzero : Value.isZero (.int (f.seeked:ℤ)) = true := by simp [hz]; rfl
      simp [setupTransfer, current, hcur, hseeked, hpos, hzero, hopen, hseek, hsize, Value.int?, hc.ne']
    · exact content_put hloc hdir (fun l hd => hput.dirs hdir l hd) (by rw [hput.here]; simp) hbs
  · have hdone : f.contents.take f.seeked ≠ [] := by
      simp [hz, hne]
    rw [StartedOn, if_neg hdone] at hstart
    obtain ⟨l,hloc,hfile⟩ := content_eq_some hstart
    have hdir : w.fs.lookup l ≠ some .dir := by rw [hfile]; simp
    have hopen : onDisk (openExisting item.path) w = .done l { w with fs := w.fs.note l } := by
      simp [onDisk, openExisting, hloc, hfile]
    refine ⟨l,w.fs.note l,?_,hfile,fun fs' bs hbs =>
      content_put hloc hdir (fun _ hd => hd) hdir ⟨hbs.here,hbs.elsewhere⟩⟩
    have hpos : Value.isPositive (.int (f.seeked:ℤ)) = some true := by
      simp [Value.isPositive]; omega
    have hzero : Value.isZero (.int (f.seeked:ℤ)) = false := by simp [Value.isZero, hz]
    have hexists : w.fs.pathExists item.path = true := by simp [pathExists, hloc]
    simp [setupTransfer, current, hcur, hseeked, hpos, hzero, hopen, hseek, hsize, Value.int?, hc.ne',
      hexists]

/-- What `recv_file_contents` is called on: an item, the disk, and a connection. -/
def called (item : FileItem) (fs : FileSystem) (source : Source UInt8) : Observed where
  world := { rx := { downloadPath := [], currentFile := some item }, fs := fs, source := source }

/-- The content phase, up to where the file or the stream ends. -/
theorem recvFileContentsBy_drains {item : FileItem} {fs : FileSystem} {f : LocalFile} {chunkSize : ℕ}
    (hsize : item.size = .int f.size) (hseeked : item.seeked = .int f.seeked)
    (hne : f.contents ≠ []) (hle : f.seeked ≤ f.size) (hc : 0 < chunkSize)
    (hstart : StartedOn fs item.path (f.contents.take f.seeked)) (source : Source UInt8) :
    ∃ l position w ys,
      Received item.path (f.contents.take f.seeked ++ source.pending.take (f.size-f.seeked))
        (source.pending.drop (f.size-f.seeked)) ⟨w,ys⟩ ∧
      w.source.ending = source.ending ∧
      recvFileContentsBy chunkSize (called item fs source) =
        (contentLoop l chunkSize position
          (f.size-f.seeked - min (f.size-f.seeked) source.pending.length : ℕ) w).within
            (fun w => ⟨w,ys⟩) id := by
  have hcur : (called item fs source).world.rx.currentFile = some item := rfl
  obtain ⟨l,fs',hsetup,hfile,hput⟩ := setupTransfer_opens hcur hsize hseeked hne hle hc hstart
  set w : World := { (called item fs source).world with fs := fs' } with hw
  have hlen : (f.contents.take f.seeked).length = f.seeked := List.length_take_of_le hle
  have hwriting : w.Writing l item (f.contents.take f.seeked) :=
    ⟨rfl,by rw [hseeked, hlen],hfile,rfl⟩
  obtain ⟨s,hs,hdrain⟩ := contentLoop_drain hc hwriting (f.size-f.seeked)
  have hpend : w.source = source := rfl
  rw [hpend] at hs hdrain
  rw [hlen] at hdrain
  set w' := w.wrote l item (f.contents.take f.seeked) (source.pending.take (f.size-f.seeked)) s
  have hafter := wrote_writing hwriting (source.pending.take (f.size-f.seeked)) s
  obtain ⟨ys,_,hsorted,hloop⟩ := readLoop_contentLoop l chunkSize f.seeked f.size
    ((f.size-f.seeked : ℕ) : ℤ) ⟨w,[]⟩ rfl
  have hwrote := (writeAt_put hfile (f.contents.take f.seeked).length
    (source.pending.take (f.size-f.seeked))).1
  rw [overwrite_end] at hwrote
  refine ⟨l,f.seeked + min (f.size-f.seeked) source.pending.length,w',ys,⟨hput _ _ hwrote,?_,?_,hsorted⟩,
    hs.ending,?_⟩
  · rw [hafter.current, Option.map_some, hafter.seeked]
  · rw [show w'.source.pending = s.pending from rfl, hs.pending]
    rcases Nat.le_total (f.size-f.seeked) source.pending.length with h | h
    · rw [min_eq_left h]
    · rw [min_eq_right h, List.drop_length, List.drop_eq_nil_of_le h]
  · rw [show (⟨w,[]⟩ : Observed).world = w from rfl, hdrain, Nat.cast_sub hle] at hloop
    simp only [recvFileContentsBy, hsetup]
    exact hloop

theorem received_drop (f : LocalFile) (rest : Bytes) :
    (f.contents.drop f.seeked ++ rest).take (f.size-f.seeked) = f.contents.drop f.seeked ∧
      (f.contents.drop f.seeked ++ rest).drop (f.size-f.seeked) = rest := by
  have hlen : (f.contents.drop f.seeked).length = f.size-f.seeked := List.length_drop
  exact ⟨List.take_left' hlen,List.drop_left' hlen⟩

/-- A stream that begins with what is missing of the file is read up to there. -/
theorem recvFileContentsBy_complete {item : FileItem} {fs : FileSystem} {f : LocalFile}
    {chunkSize : ℕ} (hsize : item.size = .int f.size) (hseeked : item.seeked = .int f.seeked)
    (hne : f.contents ≠ []) (hle : f.seeked ≤ f.size) (hc : 0 < chunkSize)
    (hstart : StartedOn fs item.path (f.contents.take f.seeked)) {source : Source UInt8}
    {rest : Bytes} (hpend : source.pending = f.contents.drop f.seeked ++ rest) :
    ∃ o, recvFileContentsBy chunkSize (called item fs source) = .done () o ∧
      Received item.path f.contents rest o := by
  obtain ⟨l,position,w,ys,hreceived,_,hrun⟩ :=
    recvFileContentsBy_drains hsize hseeked hne hle hc hstart source
  obtain ⟨htake,hdrop⟩ := received_drop f rest
  have hmin : min (f.size-f.seeked) source.pending.length = f.size-f.seeked := by
    have : (f.contents.drop f.seeked).length = f.size-f.seeked := List.length_drop
    rw [hpend, List.length_append]
    omega
  rw [hpend, htake, hdrop, List.take_append_drop] at hreceived
  rw [hmin, Nat.sub_self, contentLoop_eq, if_neg (by simp)] at hrun
  exact ⟨_,hrun,hreceived⟩

/-- Where the stream is used up and something is missing, the loop ends. -/
theorem contentLoop_over (l : Loc) {chunkSize : ℕ} (hc : 0 < chunkSize) (position : ℕ) {remaining : ℤ}
    (hr : 0 < remaining) {w : World} (hp : w.source.pending = []) :
    ∃ s : Source UInt8, s.pending = [] ∧
      (contentLoop l chunkSize position remaining w).state = { w with source := s } ∧
      (w.source.ending = .closed →
        contentLoop l chunkSize position remaining w = .done () { w with source := s }) := by
  rw [contentLoop_eq, if_pos hr]
  set n := min chunkSize remaining.toNat
  have hn : n ≠ 0 := by omega
  cases he : w.source.ending with
  | closed =>
    have h : recvFunc n w = .done [] { w with source := w.source.advance 0 } := by
      simp [recvFunc, sockRecv, Source.recv_closed _ n hp he]
    rw [h]
    exact ⟨w.source.advance 0,by simp [hp],rfl,fun _ => rfl⟩
  | reset =>
    have h : recvFunc n w = .raised .connectionReset w := by
      simp [recvFunc, sockRecv, Source.recv_reset _ hn hp he]
    rw [h]
    exact ⟨w.source,hp,rfl,fun h => by cases h⟩
  | silent =>
    have h : recvFunc n w = .blocked w := by
      simp [recvFunc, sockRecv, Source.recv_silent _ hn hp he]
    rw [h]
    exact ⟨w.source,hp,rfl,fun h => by cases h⟩

/-- A stream that ends too early is written as far as it goes. -/
theorem recvFileContentsBy_short {item : FileItem} {fs : FileSystem} {f : LocalFile}
    {chunkSize : ℕ} (hsize : item.size = .int f.size) (hseeked : item.seeked = .int f.seeked)
    (hne : f.contents ≠ []) (hle : f.seeked ≤ f.size) (hc : 0 < chunkSize)
    (hstart : StartedOn fs item.path (f.contents.take f.seeked)) {source : Source UInt8} {k : ℕ}
    (hk : k < f.size-f.seeked) (hpend : source.pending = (f.contents.drop f.seeked).take k) :
    Received item.path (f.contents.take (f.seeked+k)) []
        (recvFileContentsBy chunkSize (called item fs source)).state ∧
      (source.ending = .closed →
        ∃ o, recvFileContentsBy chunkSize (called item fs source) = .done () o) := by
  obtain ⟨l,position,w,ys,hreceived,hending,hrun⟩ :=
    recvFileContentsBy_drains hsize hseeked hne hle hc hstart source
  have hlen : source.pending.length = k := by
    rw [hpend, List.length_take, List.length_drop]
    exact min_eq_left hk.le
  have hall : source.pending.take (f.size-f.seeked) = source.pending :=
    List.take_of_length_le (by omega)
  have hnone : source.pending.drop (f.size-f.seeked) = [] := List.drop_eq_nil_of_le (by omega)
  rw [hall, hnone, hpend, ← List.take_add] at hreceived
  have hp : w.source.pending = [] := hreceived.pending
  obtain ⟨s,hs,hstate,hclosed⟩ := contentLoop_over l hc position
    (show (0:ℤ) < (f.size-f.seeked - min (f.size-f.seeked) source.pending.length : ℕ) by omega) hp
  have hshort : Received item.path (f.contents.take (f.seeked+k)) [] ⟨{ w with source := s },ys⟩ :=
    ⟨hreceived.content,hreceived.seeked,hs,hreceived.increasing⟩
  refine ⟨?_,fun he => ⟨⟨{ w with source := s },ys⟩,?_⟩⟩
  · rw [hrun, Run.state_within, hstate]
    exact hshort
  · rw [hrun, hclosed (hending.trans he)]
    rfl

/-- Where the rest of a file comes in, it becomes whole; of a stream that ends too early, all is kept.
A stream is cut anywhere, and ends in any way. -/
structure ReceivesContents (chunkSize : ℕ) (item : FileItem) (fs : FileSystem) (f : LocalFile) :
    Prop where
  complete : ∀ rest ending cut calls, ∃ o,
    recvFileContentsBy chunkSize
      (called item fs ⟨f.contents.drop f.seeked ++ rest,ending,cut,calls⟩) = .done () o ∧
    Received item.path f.contents rest o
  short : ∀ k < f.size-f.seeked, ∀ ending cut calls,
    Received item.path (f.contents.take (f.seeked+k)) []
      (recvFileContentsBy chunkSize
        (called item fs ⟨(f.contents.drop f.seeked).take k,ending,cut,calls⟩)).state
  closed : ∀ k < f.size-f.seeked, ∀ cut calls, ∃ o,
    recvFileContentsBy chunkSize
      (called item fs ⟨(f.contents.drop f.seeked).take k,.closed,cut,calls⟩) = .done () o

end Receiver

open Sender Receiver

/-- What is sent of a file from its offset on is what is missing where its first part is. -/
theorem content_phase (f : LocalFile) (hne : f.contents ≠ []) (hle : f.seeked ≤ f.size)
    {chunkLen chunkSize : ℕ} (hlen : 0 < chunkLen) (hc : 0 < chunkSize) {item : FileItem}
    {fs : FileSystem} (hsize : item.size = .int f.size) (hseeked : item.seeked = .int f.seeked)
    (hstart : StartedOn fs item.path (f.contents.take f.seeked)) :
    (∃ s, sendActualFileBy chunkLen 0 f { fileList := [f] } = .done () s ∧
      s.out = f.contents.drop f.seeked ∧ s.fileList = [f.setSeeked f.size]) ∧
    ReceivesContents chunkSize item fs f := by
  refine ⟨sendActualFileBy_sends hlen hne hle,fun rest ending cut calls => ?_,
    fun k hk ending cut calls => ?_,fun k hk cut calls => ?_⟩
  · exact recvFileContentsBy_complete hsize hseeked hne hle hc hstart rfl
  · exact (recvFileContentsBy_short hsize hseeked hne hle hc hstart hk rfl).1
  · exact (recvFileContentsBy_short hsize hseeked hne hle hc hstart hk rfl).2 rfl

def byteA : LocalFile where
  name := nameA
  contents := [7]
  size_le := one_byte_fits

def itemA : FileItem := ⟨['a'],[['a']],.int 1,.int 0⟩

/-- A file of five bytes, two of which are there already. -/
def partA : LocalFile where
  name := nameA
  contents := [7,8,9,10,11]
  seeked := 2
  size_le := by decide

def partItem : FileItem := ⟨['a'],[['a']],.int 5,.int 2⟩

def partThere : FileSystem :=
  FileSystem.bare.add ['a'] [] (.file [7,8]) FileSystem.bare.root_dir rfl

theorem content_phase_rest :
    (∃ s, sendActualFileBy 2 0 partA { fileList := [partA] } = .done () s ∧
      s.out = [9,10,11] ∧ s.fileList = [partA.setSeeked 5]) ∧
    ReceivesContents 2 partItem partThere partA := by
  have hstart : StartedOn partThere partItem.path (partA.contents.take partA.seeked) := by
    rw [StartedOn, if_neg (by decide)]
    rfl
  exact content_phase partA (by decide) (by decide) Nat.two_pos Nat.two_pos rfl rfl hstart

/-- An empty file in the place of the new one. -/
def emptyThere : FileSystem :=
  FileSystem.bare.add ['a'] [] (.file []) FileSystem.bare.root_dir rfl

/-- What is received into an empty file that is there already is refused. -/
theorem not_receivesContents_empty :
    emptyThere.content itemA.path = some (byteA.contents.take byteA.seeked) ∧
      ¬ ReceivesContents 1 itemA emptyThere byteA := by
  refine ⟨rfl,fun h => ?_⟩
  obtain ⟨o,hrun,_⟩ := h.complete [] .closed Cut.whole 0
  have hraised : recvFileContentsBy 1 (called itemA emptyThere
      ⟨byteA.contents.drop byteA.seeked ++ [],.closed,Cut.whole,0⟩) =
        .raised .fileExists (called itemA emptyThere ⟨[7],.closed,Cut.whole,0⟩) := rfl
  cases hraised.symm.trans hrun

end PeerConnect.Transfers
