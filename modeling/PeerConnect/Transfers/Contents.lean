import PeerConnect.Transfers.Receiver
import PeerConnect.Transfers.Names

/-! The content phase of one file, under every cut: what arrives is written behind what is there,
until the declared size is reached or the stream is used up. -/
namespace PeerConnect.Transfers
open Library Wire FileSystem

/-- The current file is open at a location and has been written so far. -/
structure World.Writing (w : World) (l : Loc) (item : FileItem) (done : Bytes) : Prop where
  current : w.rx.currentFile = some item
  seeked : item.seeked = .int done.length
  content : w.fs.lookup l = some (.file done)
  running : w.rx.toStop = false

/-- The world once more bytes have been written, with what is left of the source. -/
def World.wrote (l : Loc) (item : FileItem) (done more : Bytes) (s : Source UInt8) (w : World) :
    World :=
  { w with
    fs := w.fs.writeAt l done.length more
    source := s
    rx := { w.rx with currentFile := some { item with seeked := .int (done ++ more).length } } }

namespace Receiver

variable {w : World} {l : Loc} {item : FileItem} {done : Bytes}

theorem write_eq (h : w.Writing l item done) (more : Bytes) (s : Source UInt8) :
    write l done.length more { w with source := s } = w.wrote l item done more s := by
  simp [write, World.wrote, World.updateCurrent, h.current, h.seeked, Value.int?]

theorem wrote_writing (h : w.Writing l item done) (more : Bytes) (s : Source UInt8) :
    (w.wrote l item done more s).Writing l { item with seeked := .int (done ++ more).length }
      (done ++ more) where
  current := rfl
  seeked := rfl
  content := by
    have hput := (writeAt_put h.content done.length more).1.here
    rwa [overwrite_end] at hput
  running := h.running

theorem wrote_wrote (h : w.Writing l item done) (more rest : Bytes) (s s' : Source UInt8) :
    (w.wrote l item done more s).wrote l { item with seeked := .int (done ++ more).length }
      (done ++ more) rest s' = w.wrote l item done (more ++ rest) s' := by
  have hw := writeAt_writeAt h.content more rest
  simp only [World.wrote, List.length_append] at hw ⊢
  rw [hw]
  simp [Nat.add_assoc]

theorem wrote_nil (h : w.Writing l item done) : w.wrote l item done [] w.source = w := by
  have hs := h.seeked
  cases item
  simp only at hs
  subst hs
  have hc := h.current
  cases w with | mk rx fs source sent =>
  cases rx
  simp only at hc
  subst hc
  simp [World.wrote, writeAt_nil h.content]

/-- What is left of a source once its first elements have been read. -/
structure Behind (s s' : Source UInt8) (n : ℕ) : Prop where
  pending : s'.pending = s.pending.drop n
  ending : s'.ending = s.ending
  cut : s'.cut = s.cut

/-- The loop takes from the stream what is there, up to what remains of the file. -/
theorem contentLoop_drain {w : World} {item : FileItem} {done : Bytes} {chunkSize : ℕ}
    (hc : 0 < chunkSize) (h : w.Writing l item done) (remaining : ℕ) :
    ∃ s, Behind w.source s (min remaining w.source.pending.length) ∧
      contentLoop l chunkSize done.length remaining w =
        contentLoop l chunkSize (done.length + min remaining w.source.pending.length)
          (remaining - min remaining w.source.pending.length : ℕ)
          (w.wrote l item done (w.source.pending.take remaining) s) := by
  by_cases hstop : remaining = 0 ∨ w.source.pending = []
  · have htake : w.source.pending.take remaining = [] := by
      rcases hstop with h | h <;> simp [h]
    have hmin : min remaining w.source.pending.length = 0 := by
      rcases hstop with h | h <;> simp [h]
    refine ⟨w.source,⟨by rw [hmin, List.drop_zero],rfl,rfl⟩,?_⟩
    rw [htake, hmin, wrote_nil h]
    rfl
  · obtain ⟨hr,hp⟩ := not_or.mp hstop
    set k := w.source.grant (min chunkSize remaining) with hk
    have hk0 : 0 < k := w.source.grant_pos (by omega) hp
    have hkr : k ≤ remaining := (w.source.grant_le _).trans (min_le_right _ _)
    have hkl : k ≤ w.source.pending.length := w.source.grant_le_length _
    set xs := w.source.pending.take k with hxs
    have hxl : xs.length = k := by rw [hxs, List.length_take, min_eq_left hkl]
    have hne : xs ≠ [] := by
      rw [← List.length_pos_iff, hxl]
      exact hk0
    have hrecv : recvFunc (min chunkSize remaining) w =
        .done xs { w with source := w.source.advance k } := by
      simp [recvFunc, sockRecv, Source.recv_of_ne_nil w.source _ hp, ← hk, ← hxs]
    have hstep : contentLoop l chunkSize done.length remaining w =
        contentLoop l chunkSize (done ++ xs).length (remaining - k : ℕ)
          (w.wrote l item done xs (w.source.advance k)) := by
      rw [contentLoop_eq, if_pos (by omega), Int.toNat_natCast, hrecv, Run.bind_done, if_neg hne,
        write_eq h]
      simp only [h.running, hxl, List.length_append, Nat.cast_sub hkr]
      rfl
    obtain ⟨s,hs,ih⟩ := contentLoop_drain hc (wrote_writing h xs (w.source.advance k)) (remaining-k)
    have hpend : (w.wrote l item done xs (w.source.advance k)).source.pending =
        w.source.pending.drop k := rfl
    rw [hpend, List.length_drop] at hs ih
    have hmin : k + min (remaining-k) (w.source.pending.length-k) =
        min remaining w.source.pending.length := by omega
    refine ⟨s,⟨?_,hs.ending,hs.cut⟩,?_⟩
    · rw [hs.pending, hpend, List.drop_drop, hmin]
    · rw [hstep, ih, wrote_wrote h, List.length_append, hxl, Nat.add_assoc, hmin]
      have htake : xs ++ (w.source.pending.drop k).take (remaining-k) =
          w.source.pending.take remaining := by
        rw [hxs, ← List.take_add, Nat.add_sub_cancel' hkr]
      rw [htake, show remaining-k - min (remaining-k) (w.source.pending.length-k) =
        remaining - min remaining w.source.pending.length by omega]
termination_by w.source.pending.length
decreasing_by
  show (w.source.pending.drop k).length < _
  rw [List.length_drop]
  omega

/-- The item of a new file in the download directory. -/
def newItem (root : Path) (name : Name) (size : ℕ) (seeked : ℕ) : FileItem :=
  ⟨name,root ++ [name],.int size,.int seeked⟩

/-- What `_receive_single_file` does once the content phase has ended. -/
def finish (r : Run Exn World Unit) : Run Exn World Unit :=
  (r.handle fun e w => handleException e w).bind fun _ w =>
    (do
      let item ← current
      let toStop ← Coro.get (·.rx.toStop)
      if item.seeked.int?.getD 0 < item.size.int?.getD 0 then
        if toStop then pure () else Coro.raise .transferIncomplete
      else pure () : Coro Exn World Unit) w

/-- Whatever the content phase fails on, the file is not received. -/
theorem finish_raised (e : Exn) (w : World) : ∃ e' w', finish (.raised e w) = .raised e' w' := by
  by_cases he : e = .transferIncomplete ∨ e.isOSError = true
  · exact ⟨.transferIncomplete,w.setState .paused,by
      simp [finish, handleException, Transfers.handleException, he]⟩
  · exact ⟨e,w,by simp [finish, handleException, Transfers.handleException, he]⟩

/-- The world in which a new file has just been opened. -/
def opened (w : World) (fs : FileSystem) (item : FileItem) : World :=
  { w with fs := fs, rx := { w.rx with earlier := w.rx.fileItems, currentFile := some item } }

/-- `validatename` on a current file whose path has a name. -/
theorem validatename_apply {w : World} {item : FileItem} (hcur : w.rx.currentFile = some item)
    (hne : item.path ≠ []) :
    validatename w = .done () (w.updateCurrent fun f =>
      f.renamed (validName w.fs w.rx.downloadPath item.path.name)) := by
  have hwith : ∀ n, item.path.withName n = some (item.path.parent ++ [n]) := fun n => by
    rw [Path.withName, if_neg hne, Path.parent]
  simp [validatename, current, hcur, hwith, World.updateCurrent, FileItem.renamed]

/-- An item that is not empty, up to its content phase. -/
theorem receiveItem_single {w : World} {item : FileItem} (hne : item.path ≠ [])
    (hsize : item.size.atMostZero = some false) :
    receiveItem item w =
      (Coro.ofExcept (statusSetup item.seeked item.size) (opened w w.fs
        (item.renamed (validName w.fs w.rx.downloadPath item.path.name)))).bind
          fun _ w' => finish (recvFileContents w') := by
  have hvalid := validatename_apply (w := w.append item) rfl hne
  simp only [receiveItem, hsize, receiveSingleFile, Coro.bind_apply, Coro.modify_apply,
    Run.bind_done, hvalid]
  rfl

/-- An empty item is touched in its directory. -/
theorem receiveItem_touch {w : World} {p : Path} {dir : Loc} (hdir : w.fs.IsDirectory p dir)
    (item : FileItem) {name : Name} (hp : item.path = p ++ [name]) (hname : Entry name)
    (hsize : item.size.atMostZero = some true) :
    ∃ fs', fs'.lookup (name::dir) = some ((w.fs.lookup (name::dir)).getD (.file [])) ∧
      (∀ l, l ≠ name::dir → fs'.lookup l = w.fs.lookup l) ∧
      receiveItem item w = .done () { w.append item with fs := fs' } := by
  obtain ⟨fs',htouch,_,hhere,helse⟩ := touch_entry hdir hname.ne_dotdot hname.no_nul
  exact ⟨fs',hhere,helse,by simp [receiveItem, hsize, onDisk, hp, htouch]⟩

/-- Opening a new file for the content phase. -/
theorem recvFileContents_new {w : World} {fs : FileSystem} {item : FileItem} {l : Loc} {n : ℕ}
    (hcur : w.rx.currentFile = some item) (hsize : item.size = .int n)
    (hseeked : item.seeked = .int 0)
    (hcreate : create item.path (.file []) w.fs = .done l fs) :
    recvFileContents w = contentLoop l (calculateChunkSize n) 0 n { w with fs := fs } := by
  have hc : onDisk (create item.path (.file [])) w = .done l { w with fs := fs } := by
    simp [onDisk, hcreate]
  have hseek : seek (.int 0) = .ok 0 := by simp [seek, Value.int?, maxOffset]
  have hpos : Value.isPositive (.int 0) = some false := rfl
  have hzero : Value.isZero (.int 0) = true := rfl
  simp only [recvFileContents, Coro.bind_apply, current, hcur, Run.bind_done, Coro.get_apply, hseeked,
    hsize, hpos, hzero, Value.int?, Coro.ite_apply, hseek]
  simp only [hc, Run.bind_done, if_true, reduceCtorEq, if_false, Option.some.injEq,
    Bool.false_eq_true, false_and, Option.getD_some]
  show contentLoop l (calculateChunkSize n) 0 (n-(0:ℕ) : ℤ) { w with fs := fs } = _
  rw [Nat.cast_zero, sub_zero]

/-- A new file of a directory, under the name it has been given, up to its content phase. -/
theorem receiveItem_opens_at {w : World} {p : Path} {dir : Loc} (hdir : w.fs.IsDirectory p dir)
    {name new : Name} (hnew : validName w.fs w.rx.downloadPath name = new) (hentry : Entry new)
    (hfree : w.fs.lookup (new::dir) = none) {n : ℕ} (hn : 0 < n) (hmax : (n:ℤ) ≤ maxOffset) :
    ∃ fs, Put w.fs fs (new::dir) (.file []) ∧ fs.changed = (new::dir)::w.fs.changed ∧
      receiveItem (newItem p name n 0) w =
        finish (contentLoop (new::dir) (calculateChunkSize n) 0 n
          (opened w fs (newItem p new n 0))) := by
  obtain ⟨fs,hcreate,hput,hch⟩ := create_entry hdir hentry.ne_dotdot hentry.no_nul (.file []) hfree
  refine ⟨fs,hput,hch,?_⟩
  set item := newItem p name n 0
  have hsize : Value.atMostZero (.int n) = some false := by
    simpa [Value.atMostZero] using hn.ne'
  have hrenamed : item.renamed (validName w.fs w.rx.downloadPath item.path.name) =
      newItem p new n 0 := by
    simp [item, FileItem.renamed, newItem, Path.parent, Path.name, hnew]
  have hstatus : statusSetup item.seeked item.size = .ok () := statusSetup_int hmax 0
  rw [receiveItem_single (by simp [item, newItem]) hsize, hrenamed, hstatus, Coro.ofExcept_ok,
    Run.bind_done]
  exact congrArg finish (recvFileContents_new (w := opened w w.fs (newItem p new n 0)) (n := n) rfl
    rfl rfl hcreate)

/-- A new file of the download directory, up to its content phase. -/
theorem receiveItem_opens {w : World} {dir : Loc} (hdir : w.fs.IsDirectory w.rx.downloadPath dir)
    {name : Name} (hname : Entry name) {n : ℕ} (hn : 0 < n) (hmax : (n:ℤ) ≤ maxOffset) :
    ∃ new fs, Entry new ∧ w.fs.lookup (new::dir) = none ∧
      Put w.fs fs (new::dir) (.file []) ∧ fs.changed = (new::dir)::w.fs.changed ∧
      receiveItem (newItem w.rx.downloadPath name n 0) w =
        finish (contentLoop (new::dir) (calculateChunkSize n) 0 n
          (opened w fs (newItem w.rx.downloadPath new n 0))) := by
  obtain ⟨hentry,hfree⟩ := validName_free hdir ⟨hname.no_slash,hname.no_nul⟩ hname.ne_dot
  obtain ⟨fs,hput,hch,hrun⟩ := receiveItem_opens_at hdir rfl hentry hfree hn hmax
  exact ⟨_,fs,hentry,hfree,hput,hch,hrun⟩

/-- A new file of a directory whose contents are all there. -/
theorem receiveItem_contents {w : World} {p : Path} {dir : Loc} (hdir : w.fs.IsDirectory p dir)
    {name new : Name} (hnew : validName w.fs w.rx.downloadPath name = new) (hentry : Entry new)
    (hfree : w.fs.lookup (new::dir) = none) {contents rest : Bytes} (hne : contents ≠ [])
    (hmax : (contents.length:ℤ) ≤ maxOffset) (hstop : w.rx.toStop = false)
    (hpend : w.source.pending = contents ++ rest) :
    ∃ fs s, Put w.fs fs (new::dir) (.file contents) ∧ Behind w.source s contents.length ∧
      receiveItem (newItem p name contents.length 0) w = .done () { w with
        fs := fs, source := s
        rx := { w.rx with
          earlier := w.rx.fileItems
          currentFile := some (newItem p new contents.length contents.length) } } := by
  obtain ⟨fs,hput,_,hrun⟩ :=
    receiveItem_opens_at hdir hnew hentry hfree (List.length_pos_iff.mpr hne) hmax
  set item := newItem p new contents.length 0
  have hwriting : (opened w fs item).Writing (new::dir) item [] := ⟨rfl,rfl,hput.here,hstop⟩
  obtain ⟨s,hs,hloop⟩ :=
    contentLoop_drain (calculateChunkSize_pos contents.length) hwriting contents.length
  have hmin : min contents.length (opened w fs item).source.pending.length = contents.length := by
    show min contents.length w.source.pending.length = _
    rw [hpend, List.length_append]
    omega
  have htake : (opened w fs item).source.pending.take contents.length = contents := by
    show w.source.pending.take contents.length = _
    rw [hpend, List.take_left]
  rw [hmin] at hs
  rw [hmin, htake, Nat.sub_self, List.length_nil, Nat.zero_add] at hloop
  refine ⟨fs.writeAt (new::dir) 0 contents,s,⟨(wrote_writing hwriting contents s).content,
    fun l hl => ?_⟩,hs,?_⟩
  · rw [(writeAt_put hput.here 0 contents).1.elsewhere l hl, hput.elsewhere l hl]
  · rw [hrun, hloop, contentLoop_eq, if_neg (by simp)]
    simp [finish, current, World.wrote, item, newItem, Value.int?, opened]

/-- A new file has been made in the download directory and some of its contents received. -/
structure Took (w w' : World) (dir : Loc) (new : Name) (size : ℕ) (got : Bytes) : Prop where
  entry : Entry new
  fresh : w.fs.lookup (new::dir) = none
  put : Put w.fs w'.fs (new::dir) (.file got)
  items : w'.rx.fileItems = w.rx.fileItems ++ [newItem w.rx.downloadPath new size got.length]
  current : w'.rx.currentFile = some (newItem w.rx.downloadPath new size got.length)
  downloadPath : w'.rx.downloadPath = w.rx.downloadPath
  toStop : w'.rx.toStop = w.rx.toStop
  state : w'.rx.state = w.rx.state

variable {w : World} {dir : Loc} {name : Name} {n : ℕ}

/-- The content phase of a new file, up to where its contents or the stream end. -/
theorem receiveItem_took (hdir : w.fs.IsDirectory w.rx.downloadPath dir) (hname : Entry name)
    (hn : 0 < n) (hmax : (n:ℤ) ≤ maxOffset) (hstop : w.rx.toStop = false) :
    ∃ new w', Took w w' dir new n (w.source.pending.take n) ∧
      Behind w.source w'.source (min n w.source.pending.length) ∧
      receiveItem (newItem w.rx.downloadPath name n 0) w =
        finish (contentLoop (new::dir) (calculateChunkSize n) (min n w.source.pending.length)
          (n - min n w.source.pending.length : ℕ) w') := by
  obtain ⟨new,fs,hentry,hfresh,hput,_,hrun⟩ := receiveItem_opens hdir hname hn hmax
  set item := newItem w.rx.downloadPath new n 0
  have hwriting : (opened w fs item).Writing (new::dir) item [] := ⟨rfl,rfl,hput.here,hstop⟩
  obtain ⟨s,hs,hloop⟩ := contentLoop_drain (calculateChunkSize_pos n) hwriting n
  set got := w.source.pending.take n with hgot
  refine ⟨new,(opened w fs item).wrote (new::dir) item [] got s,?_,hs,?_⟩
  · refine ⟨hentry,hfresh,⟨?_,fun l' hl' => ?_⟩,rfl,rfl,rfl,rfl,rfl⟩
    · exact (wrote_writing hwriting got s).content
    · have h := (writeAt_put hput.here 0 got).1.elsewhere l' hl'
      exact h.trans (hput.elsewhere l' hl')
  · rw [hrun]
    have h := hloop
    rw [List.length_nil, Nat.zero_add] at h
    exact congrArg finish h

/-- Everything declared has arrived. -/
theorem receiveItem_complete (hdir : w.fs.IsDirectory w.rx.downloadPath dir) (hname : Entry name)
    (hn : 0 < n) (hmax : (n:ℤ) ≤ maxOffset) (hstop : w.rx.toStop = false)
    (hlen : n ≤ w.source.pending.length) :
    ∃ new w', Took w w' dir new n (w.source.pending.take n) ∧ Behind w.source w'.source n ∧
      receiveItem (newItem w.rx.downloadPath name n 0) w = .done () w' := by
  obtain ⟨new,w',ht,hs,hrun⟩ := receiveItem_took hdir hname hn hmax hstop
  refine ⟨new,w',ht,by rwa [min_eq_left hlen] at hs,?_⟩
  have hloop : contentLoop (new::dir) (calculateChunkSize n) (min n w.source.pending.length)
      (n - min n w.source.pending.length : ℕ) w' = .done () w' := by
    rw [contentLoop_eq, if_neg (by simp [min_eq_left hlen])]
  rw [hrun, hloop]
  have hgot : (w.source.pending.take n).length = n := by simp [hlen]
  simp [finish, current, ht.current, newItem, Value.int?, hgot]

/-- The stream ends before the contents do. -/
theorem receiveItem_closed (hdir : w.fs.IsDirectory w.rx.downloadPath dir) (hname : Entry name)
    (hmax : (n:ℤ) ≤ maxOffset) (hstop : w.rx.toStop = false)
    (hlen : w.source.pending.length < n) (he : w.source.ending = .closed) :
    ∃ new w', Took w w' dir new n w.source.pending ∧
      receiveItem (newItem w.rx.downloadPath name n 0) w = .raised .transferIncomplete w' := by
  obtain ⟨new,w',ht,hs,hrun⟩ := receiveItem_took hdir hname (by omega) hmax hstop
  rw [List.take_of_length_le hlen.le] at ht
  have hpend : w'.source.pending = [] := by rw [hs.pending, min_eq_right hlen.le, List.drop_length]
  have hend : w'.source.ending = .closed := hs.ending.trans he
  refine ⟨new,{ w' with source := w'.source.advance 0 },{ ht with },?_⟩
  · have hrecv : recvFunc (min (calculateChunkSize n) (n - min n w.source.pending.length)) w' =
        .done [] { w' with source := w'.source.advance 0 } := by
      simp [recvFunc, sockRecv, Source.recv_closed w'.source _ hpend hend]
    have hloop : contentLoop (new::dir) (calculateChunkSize n) (min n w.source.pending.length)
        (n - min n w.source.pending.length : ℕ) w' =
        .done () { w' with source := w'.source.advance 0 } := by
      rw [contentLoop_eq, if_pos (by omega), Int.toNat_natCast, hrecv]
      rfl
    rw [hrun, hloop]
    simp [finish, current, ht.current, newItem, Value.int?, hlen, ht.toStop, hstop]

/-- The connection breaks before the contents end. -/
theorem receiveItem_reset (hdir : w.fs.IsDirectory w.rx.downloadPath dir) (hname : Entry name)
    (hmax : (n:ℤ) ≤ maxOffset) (hstop : w.rx.toStop = false)
    (hlen : w.source.pending.length < n) (he : w.source.ending = .reset) :
    ∃ new w', Took w w' dir new n w.source.pending ∧
      receiveItem (newItem w.rx.downloadPath name n 0) w =
        .raised .transferIncomplete (w'.setState .paused) := by
  obtain ⟨new,w',ht,hs,hrun⟩ := receiveItem_took hdir hname (by omega) hmax hstop
  rw [List.take_of_length_le hlen.le] at ht
  have hpend : w'.source.pending = [] := by rw [hs.pending, min_eq_right hlen.le, List.drop_length]
  have hend : w'.source.ending = .reset := hs.ending.trans he
  refine ⟨new,w',ht,?_⟩
  have hrecv : recvFunc (min (calculateChunkSize n) (n - min n w.source.pending.length)) w' =
      .raised .connectionReset w' := by
    have hsome : min (calculateChunkSize n) (n - min n w.source.pending.length) ≠ 0 := by
      have := calculateChunkSize_pos n
      omega
    simp [recvFunc, sockRecv, Source.recv_reset w'.source hsome hpend hend]
  have hloop : contentLoop (new::dir) (calculateChunkSize n) (min n w.source.pending.length)
      (n - min n w.source.pending.length : ℕ) w' = .raised .connectionReset w' := by
    rw [contentLoop_eq, if_pos (by omega), Int.toNat_natCast, hrecv]
    rfl
  rw [hrun, hloop]
  simp [finish, handleException, Transfers.handleException, Exn.isOSError]

end Receiver
end PeerConnect.Transfers
