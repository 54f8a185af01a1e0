import PeerConnect.Transfers.Contents
import PeerConnect.Transfers.Segmentation
import PeerConnect.Transfers.SenderRun

/-! The receiver in step with the records a sender writes: tag, header, contents. -/
namespace PeerConnect.Transfers
open Library Wire FileSystem Receiver

/-- The item a file's header is read as in a download directory. -/
def LocalFile.item (f : LocalFile) (root : Path) : FileItem :=
  newItem root f.name.chars f.size f.seeked

theorem filePacket_ok {u : Umsgpack} {f : LocalFile} {packet : Bytes}
    (h : Sender.filePacket u f = .ok packet) :
    ∃ fileObject length, f.toBytes u = some fileObject ∧
      packUInt 4 fileObject.length = some length ∧ packet = length ++ fileObject := by
  unfold Sender.filePacket at h
  split at h
  · cases h
  next fileObject ho =>
    split at h
    · cases h
    next length hl =>
      cases h
      exact ⟨fileObject,length,ho,hl,rfl⟩

theorem loadFrom_toBytes {u : Umsgpack} {f : LocalFile} {fileObject : Bytes}
    (h : f.toBytes u = some fileObject) (root : Path) :
    FileItem.loadFrom u fileObject root = .ok (f.item root) := by
  rw [FileItem.loadFrom_header u (u.loads_dumps h), f.name.entry.join_eq]
  rfl

namespace Receiver

variable {u : Umsgpack} {w : World} {f : LocalFile} {packet rest : Bytes}

/-- A transport that does not cut hands out what was asked for if it is there. -/
theorem recvFunc_whole {w : World} (xs : Bytes) {rest : Bytes} (hc : w.source.cut = Cut.whole)
    (hp : w.source.pending = xs ++ rest) (hne : w.source.pending ≠ []) :
    recvFunc xs.length w = .done xs { w with source := w.source.advance xs.length } := by
  have hg : w.source.grant xs.length = xs.length := by
    rw [w.source.grant_whole hc, hp, List.length_append]
    omega
  simp [recvFunc, sockRecv, Source.recv_of_ne_nil w.source _ hne, hg, hp]

theorem recvInt_of_recv {width n : ℕ} {bs : Bytes} {w' : World} (h : recvFunc width w = .done bs w')
    (hn : packUInt width n = some bs) : recvInt width w = .done n w' := by
  simp only [recvInt, Coro.bind_apply, Coro.tryCatch_apply, h, Run.handle_done, Run.bind_done,
    unpackUInt_pack hn, Coro.pure_apply]

/-- Uncut, with something behind them, a length and as many bytes are read whole. -/
theorem recv_frame {raw length : Bytes} (hl : packUInt 4 raw.length = some length)
    (hc : w.source.cut = Cut.whole) (hpend : w.source.pending = length ++ (raw ++ rest))
    (hrest : rest ≠ []) :
    ∃ s, Behind w.source s (length ++ raw).length ∧
      recvInt 4 w = .done raw.length { w with source := w.source.advance 4 } ∧
      recvFunc raw.length { w with source := w.source.advance 4 } =
        .done raw { w with source := s } := by
  have hlen := packUInt_length hl
  have hr := recvFunc_whole length hc hpend (by simp [hpend, hrest])
  rw [hlen] at hr
  have hpend' : (w.source.advance 4).pending = raw ++ rest := by
    rw [Source.advance_pending, hpend, ← hlen, List.drop_left]
  have hne : (w.source.advance 4).pending ≠ [] := by rw [hpend']; simp [hrest]
  refine ⟨(w.source.advance 4).advance raw.length,⟨?_,rfl,rfl⟩,recvInt_of_recv hr hl,
    recvFunc_whole (w := { w with source := w.source.advance 4 }) raw hc hpend' hne⟩
  rw [Source.advance_pending, Source.advance_pending, List.drop_drop, List.length_append, hlen]

/-- The header, once its two reads have got all of it. -/
theorem recvFileItem_of_reads {fileObject : Bytes} {s s' : Source UInt8}
    (ho : f.toBytes u = some fileObject)
    (hr : recvInt 4 w = .done fileObject.length { w with source := s })
    (hr' : recvFunc fileObject.length { w with source := s } =
      .done fileObject { w with source := s' }) :
    recvFileItem u w = .done (f.item w.rx.downloadPath) { w with source := s' } := by
  simp only [recvFileItem, Coro.bind_apply, Coro.tryCatch_apply, hr, Run.handle_done,
    Run.bind_done, hr', Coro.get_apply, loadFrom_toBytes ho, Coro.ofExcept_ok]

/-- Uncut, with something behind it, a header is read whole. -/
theorem recvFileItem_whole (hp : Sender.filePacket u f = .ok packet)
    (hc : w.source.cut = Cut.whole) (hpend : w.source.pending = packet ++ rest) (hrest : rest ≠ []) :
    ∃ s, Behind w.source s packet.length ∧
      recvFileItem u w = .done (f.item w.rx.downloadPath) { w with source := s } := by
  obtain ⟨fileObject,length,ho,hl,rfl⟩ := filePacket_ok hp
  rw [List.append_assoc] at hpend
  obtain ⟨s,hs,hr,hr'⟩ := recv_frame hl hc hpend hrest
  exact ⟨s,hs,recvFileItem_of_reads ho hr hr'⟩

/-- Under any cut, a header is read whole or the transfer ends on it. -/
theorem recvFileItem_closed (hp : Sender.filePacket u f = .ok packet)
    (he : w.source.ending = .closed) (hpend : w.source.pending = packet ++ rest) :
    (∃ s, Behind w.source s packet.length ∧
      recvFileItem u w = .done (f.item w.rx.downloadPath) { w with source := s }) ∨
    ∃ e s, recvFileItem u w = .raised e { w with source := s } := by
  obtain ⟨fileObject,length,ho,hl,rfl⟩ := filePacket_ok hp
  have hlen := packUInt_length hl
  obtain ⟨data,hr⟩ := recvFunc_closed w 4 he
  obtain ⟨_,hdata,hdl⟩ := recvFunc_done hr
  by_cases h4 : data.length = 4
  · have hd : data = length := by
      rw [hpend, List.append_assoc] at hdata
      exact (List.append_inj hdata.symm (h4.trans hlen.symm)).1
    subst hd
    rw [hlen] at hr
    set s := w.source.advance 4
    have hpend' : s.pending = fileObject ++ rest := by
      rw [Source.advance_pending, hpend, List.append_assoc, ← hlen, List.drop_left]
    obtain ⟨part,hr'⟩ := recvFunc_closed { w with source := s } fileObject.length he
    obtain ⟨_,hpart,hpl⟩ := recvFunc_done hr'
    have hpart' : fileObject ++ rest = part ++ s.pending.drop part.length := hpend'.symm.trans hpart
    have hpre : part <+: fileObject :=
      List.prefix_of_prefix_length_le ⟨_,hpart'.symm⟩ (List.prefix_append _ _) hpl
    by_cases hfull : part = fileObject
    · subst hfull
      left
      refine ⟨s.advance part.length,⟨?_,rfl,rfl⟩,recvFileItem_of_reads ho (recvInt_of_recv hr hl) hr'⟩
      rw [Source.advance_pending, Source.advance_pending, List.drop_drop, List.length_append, hlen]
    · right
      refine ⟨.unpackException,s.advance part.length,?_⟩
      have hload : FileItem.loadFrom u part w.rx.downloadPath = .error .unpackException := by
        simp [FileItem.loadFrom, u.loads_truncated ho hpre hfull]
      simp only [recvFileItem, recvInt, Coro.bind_apply, Coro.tryCatch_apply, hr, Run.handle_done,
        Run.bind_done, unpackUInt_pack hl, Coro.pure_apply, hr', Coro.get_apply,
        hload, Coro.ofExcept_error]
  · right
    refine ⟨.transferIncomplete,w.source.advance data.length,?_⟩
    simp [recvFileItem, recvInt, hr, unpackUInt_eq_none.mpr h4]

/-- Behind a tag other than the end tag one file is received. -/
theorem recvLoop_tagged (hstop : w.rx.toStop = false) {tag : UInt8} {tail : Bytes} (ht : tag ≠ 0)
    (hpend : w.source.pending = tag::tail) :
    recvLoop u w = (recvFileOnce u { w with source := w.source.advance 1 }).bind
      fun _ w' => recvLoop u w' := by
  rw [recvLoop_eq, shouldProceed_tag w _ _ hstop hpend, if_neg ht, Run.bind_done, if_neg (by simp)]

/-- Once its header is read, the item of a record is received, and the receiver goes on behind it. -/
theorem recvLoop_item (hstop : w.rx.toStop = false) (hf : f.seeked = 0) {tail : Bytes}
    (hpend : w.source.pending = 1::tail) {s : Source UInt8}
    (hitem : recvFileItem u { w with source := w.source.advance 1 } =
      .done (f.item w.rx.downloadPath) { w with source := s }) :
    recvLoop u w =
      (receiveItem (newItem w.rx.downloadPath f.name.chars f.size 0) { w with source := s }).bind
        fun _ w' => recvLoop u w' := by
  have hi : f.item w.rx.downloadPath = newItem w.rx.downloadPath f.name.chars f.size 0 := by
    rw [LocalFile.item, hf]
  have honce : recvFileOnce u { w with source := w.source.advance 1 } =
      receiveItem (newItem w.rx.downloadPath f.name.chars f.size 0) { w with source := s } := by
    simp only [recvFileOnce, Coro.bind_apply, Coro.tryCatch_apply, hitem, Run.handle_done,
      Run.bind_done, hi]
  rw [recvLoop_tagged hstop (by decide) hpend, honce]

/-- A record whose contents are there in full is received, and the receiver goes on behind it. -/
theorem recvLoop_contents {dir : Loc} (hdir : w.fs.IsDirectory w.rx.downloadPath dir)
    (hstop : w.rx.toStop = false) (hne : f.contents ≠ []) {s : Source UInt8}
    (hrun : recvLoop u w =
      (receiveItem (newItem w.rx.downloadPath f.name.chars f.size 0) { w with source := s }).bind
        fun _ w' => recvLoop u w') (hlen : f.size ≤ s.pending.length) :
    ∃ new w', Took w w' dir new f.size (s.pending.take f.size) ∧ Behind s w'.source f.size ∧
      recvLoop u w = recvLoop u w' := by
  obtain ⟨new,w',ht,hs,hitem⟩ := receiveItem_complete (w := { w with source := s }) hdir
    f.name.entry (List.length_pos_iff.mpr hne) f.size_le hstop hlen
  refine ⟨new,w',{ ht with },hs,?_⟩
  rw [hrun]
  exact congrArg (Run.bind · fun _ w' => recvLoop u w') hitem

theorem advance_tag {tail : Bytes} (hpend : w.source.pending = 1::tail) :
    (w.source.advance 1).pending = tail := by
  rw [Source.advance_pending, hpend]
  rfl

/-- The header of a record is read whole if nothing is cut, something being behind it. -/
theorem recvLoop_header (hstop : w.rx.toStop = false) (hc : w.source.cut = Cut.whole)
    (hp : Sender.filePacket u f = .ok packet) (hf : f.seeked = 0)
    (hpend : w.source.pending = 1::packet ++ rest) (hrest : rest ≠ []) :
    ∃ s, s.pending = rest ∧ s.ending = w.source.ending ∧ s.cut = w.source.cut ∧
      recvLoop u w =
        (receiveItem (newItem w.rx.downloadPath f.name.chars f.size 0) { w with source := s }).bind
          fun _ w' => recvLoop u w' := by
  have hpend' : (w.source.advance 1).pending = packet ++ rest := advance_tag hpend
  obtain ⟨s,hb,hitem⟩ :=
    recvFileItem_whole (w := { w with source := w.source.advance 1 }) hp hc hpend' hrest
  exact ⟨s,by rw [hb.pending, hpend', List.drop_left],hb.ending,hb.cut,
    recvLoop_item hstop hf hpend hitem⟩

/-- A whole record, not cut. -/
theorem recvLoop_record_whole {dir : Loc} (hdir : w.fs.IsDirectory w.rx.downloadPath dir)
    (hstop : w.rx.toStop = false) (hc : w.source.cut = Cut.whole)
    (hp : Sender.filePacket u f = .ok packet) (hne : f.contents ≠ []) (hf : f.seeked = 0)
    (hpend : w.source.pending = 1::packet ++ rest) (hlen : f.size ≤ rest.length) :
    ∃ new w', Took w w' dir new f.size (rest.take f.size) ∧
      w'.source.pending = rest.drop f.size ∧ w'.source.ending = w.source.ending ∧
      w'.source.cut = w.source.cut ∧ recvLoop u w = recvLoop u w' := by
  have hrest : rest ≠ [] := by
    rintro rfl
    exact hne (List.length_eq_zero_iff.mp (Nat.le_zero.mp hlen))
  obtain ⟨s,rfl,hes,hcs,hrun⟩ := recvLoop_header hstop hc hp hf hpend hrest
  obtain ⟨new,w',ht,hs,hrun⟩ := recvLoop_contents hdir hstop hne hrun hlen
  exact ⟨new,w',ht,hs.pending,hs.ending.trans hes,hs.cut.trans hcs,hrun⟩

/-- A record whose contents end early, not cut: the file is left as far as it came. -/
theorem recvLoop_record_short {dir : Loc} (hdir : w.fs.IsDirectory w.rx.downloadPath dir)
    (hstop : w.rx.toStop = false) (hc : w.source.cut = Cut.whole) (he : w.source.ending = .closed)
    (hp : Sender.filePacket u f = .ok packet) (hf : f.seeked = 0)
    (hpend : w.source.pending = 1::packet ++ rest) (hrest : rest ≠ []) (hlen : rest.length < f.size) :
    ∃ new w', Took w w' dir new f.size rest ∧ recvLoop u w = .raised .transferIncomplete w' := by
  obtain ⟨s,rfl,hes,_,hrun⟩ := recvLoop_header hstop hc hp hf hpend hrest
  obtain ⟨new,w',ht,hitem⟩ := receiveItem_closed (w := { w with source := s }) hdir f.name.entry
    f.size_le hstop hlen (hes.trans he)
  refine ⟨new,w',{ ht with },?_⟩
  rw [hrun]
  exact congrArg (Run.bind · fun _ w' => recvLoop u w') hitem

/-- A record in whose contents the connection breaks, not cut: the handle is left paused, the file as
far as it came. -/
theorem recvLoop_record_reset {dir : Loc} (hdir : w.fs.IsDirectory w.rx.downloadPath dir)
    (hstop : w.rx.toStop = false) (hc : w.source.cut = Cut.whole) (he : w.source.ending = .reset)
    (hp : Sender.filePacket u f = .ok packet) (hf : f.seeked = 0)
    (hpend : w.source.pending = 1::packet ++ rest) (hrest : rest ≠ []) (hlen : rest.length < f.size) :
    ∃ new w', Took w w' dir new f.size rest ∧
      recvLoop u w = .raised .transferIncomplete (w'.setState .paused) := by
  obtain ⟨s,rfl,hes,_,hrun⟩ := recvLoop_header hstop hc hp hf hpend hrest
  obtain ⟨new,w',ht,hitem⟩ := receiveItem_reset (w := { w with source := s }) hdir f.name.entry
    f.size_le hstop hlen (hes.trans he)
  refine ⟨new,w',{ ht with },?_⟩
  rw [hrun]
  exact congrArg (Run.bind · fun _ w' => recvLoop u w') hitem

/-- An error that leaves files and items as they are. -/
def Fruitless (w : World) (r : Run Exn World Unit) : Prop :=
  ∃ e w', r = .raised e w' ∧ w'.fs = w.fs ∧ w'.rx.fileItems = w.rx.fileItems ∧
    w'.rx.downloadPath = w.rx.downloadPath

/-- An error on the header. -/
theorem recvLoop_fruitless (hstop : w.rx.toStop = false) {tag : UInt8} {tail : Bytes} (ht : tag ≠ 0)
    (hpend : w.source.pending = tag::tail)
    (h : ∃ e s, recvFileItem u { w with source := w.source.advance 1 } =
      .raised e { w with source := s }) : Fruitless w (recvLoop u w) := by
  obtain ⟨e,s,hitem⟩ := h
  have honce : recvFileOnce u { w with source := w.source.advance 1 } =
      ((handleException e : Coro Exn World FileItem) { w with source := s }).bind
        fun item w => receiveItem item w := by
    simp only [recvFileOnce, Coro.bind_apply, Coro.tryCatch_apply, hitem, Run.handle_raised]
  rw [recvLoop_tagged hstop ht hpend, honce]
  by_cases he : e = .transferIncomplete ∨ e.isOSError = true
  · refine ⟨.transferIncomplete,World.setState .paused { w with source := s },?_,rfl,rfl,rfl⟩
    simp [handleException, Transfers.handleException, he]
  · refine ⟨e,{ w with source := s },?_,rfl,rfl,rfl⟩
    simp [handleException, Transfers.handleException, he]

/-- A whole record under any cut: it is received, or the transfer ends on its header. -/
theorem recvLoop_record_closed {dir : Loc} (hdir : w.fs.IsDirectory w.rx.downloadPath dir)
    (hstop : w.rx.toStop = false) (he : w.source.ending = .closed)
    (hp : Sender.filePacket u f = .ok packet) (hne : f.contents ≠ []) (hf : f.seeked = 0)
    (hpend : w.source.pending = 1::packet ++ rest) (hlen : f.size ≤ rest.length) :
    (∃ new w', Took w w' dir new f.size (rest.take f.size) ∧
      w'.source.pending = rest.drop f.size ∧ w'.source.ending = .closed ∧
      recvLoop u w = recvLoop u w') ∨ Fruitless w (recvLoop u w) := by
  have hpend' : (w.source.advance 1).pending = packet ++ rest := advance_tag hpend
  rcases recvFileItem_closed (w := { w with source := w.source.advance 1 }) hp he hpend' with
    ⟨s,hb,hitem⟩ | h
  · have hspend : s.pending = rest := by rw [hb.pending, hpend', List.drop_left]
    obtain ⟨new,w',ht,hs,hrun⟩ := recvLoop_contents hdir hstop hne
      (recvLoop_item hstop hf hpend hitem) (by rw [hspend]; exact hlen)
    rw [hspend] at ht
    exact .inl ⟨new,w',ht,by rw [hs.pending, hspend],(hs.ending.trans hb.ending).trans he,hrun⟩
  · exact .inr (recvLoop_fruitless hstop (by decide) hpend h)

end Receiver
end PeerConnect.Transfers
