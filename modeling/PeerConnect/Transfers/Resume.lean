import PeerConnect.Transfers.EndToEnd

/-! A transfer that breaks in the middle of a file and is taken up again over a new connection. -/
namespace PeerConnect.Transfers
open Library Wire FileSystem Receiver

/-- The two handles once their connection has broken behind `k` bytes of a file's contents: some of
what the sender had written has come through, and both are left paused. -/
structure Broken (u : Umsgpack) (d : DownloadDirectory) (files : List LocalFile) (s : Sender)
    (w : World) : Prop where
  sender : ∃ n e, Sender.sendFiles u { Sender.init files none with sends := some n } = .raised e s
  receiver : ∃ stream e, stream <+: s.out ∧
    recvFiles u (World.start d.path d.fs stream .reset Cut.whole) = .raised e w
  sender_paused : s.state = .paused
  receiver_paused : w.rx.state = .paused
  inside : ∃ (i : ℕ) (f : LocalFile) (item : FileItem) (k : ℕ), files[i]? = some f ∧
    w.rx.fileItems[i]? = some item ∧ w.rx.currentFile = some item ∧ item.seeked = .int k ∧
    0 < k ∧ k < f.size ∧ w.fs.content item.path = some (f.contents.take k)

/-- A handle with the functions of a new connection. -/
def World.reconnect (stream : Bytes) (ending : Ending) (w : World) : World :=
  { w with source := ⟨stream,ending,Cut.whole,0⟩, sent := [] }

def Sender.reconnect (incoming : Bytes) (s : Sender) : Sender :=
  { s with incoming := ⟨incoming,.silent,Cut.whole,0⟩, sends := none, out := [] }

/-- What the receiver sends before it reads anything: how far it has got. -/
def hello (u : Umsgpack) (w : World) : Bytes :=
  (Receiver.continueTransfer u (w.reconnect [] .silent)).state.sent

/-- The sender's side of both continuing together: it gets what the receiver sends. -/
def resumeSender (u : Umsgpack) (s : Sender) (w : World) : Run Exn Sender Unit :=
  Sender.continueTransfer u (s.reconnect (hello u w))

/-- The receiver's side: it gets what the sender writes. -/
def resumeReceiver (u : Umsgpack) (ending : Ending) (s : Sender) (w : World) :
    Run Exn World Unit :=
  Receiver.continueTransfer u (w.reconnect (resumeSender u s w).state.out ending)

/-- Both sides complete the transfer, every file has been received, and there is no other new one. -/
def Resumes (u : Umsgpack) (d : DownloadDirectory) (files : List LocalFile) (ending : Ending)
    (s : Sender) (w : World) : Prop :=
  ∃ s' w', resumeSender u s w = .done () s' ∧ s'.state = .completed ∧
    resumeReceiver u ending s w = .done () w' ∧ w'.rx.state = .completed ∧
    (∀ f ∈ files, ∃ item ∈ w'.rx.fileItems, w'.fs.content item.path = some f.contents) ∧
    w'.fs.nodes.keys.card = d.fs.nodes.keys.card + files.length

namespace Receiver

/-- No tag ends the loop of `continue_transfer`, as none is read. -/
theorem continueLoop_ne_done (u : Umsgpack) (w w' : World) : continueLoop u w ≠ .done () w' := by
  fun_induction continueLoop u w with
  | case1 w e t h => intro h'; cases h'
  | case2 w t h => intro h'; cases h'
  | case3 w _ t h _ ih => exact ih

/-- A receiver that continues its transfer never comes to the end of it. -/
theorem continueTransfer_ne_done (u : Umsgpack) (w w' : World) :
    continueTransfer u w ≠ .done () w' := by
  intro h
  simp only [continueTransfer, Coro.bind_apply, Coro.get_apply, Run.bind_done, Coro.ite_apply] at h
  split at h
  · cases h
  · obtain ⟨_,_,_,h⟩ := Run.bind_eq_done h
    obtain ⟨_,_,_,h⟩ := Run.bind_eq_done h
    obtain ⟨_,t,_,h⟩ := Run.bind_eq_done h
    exact continueLoop_ne_done u t w' h

/-- A connection that breaks in the contents of a file leaves the files before it received and the
receiver paused at that place. -/
theorem recvFiles_breaks {u : Umsgpack} (d : DownloadDirectory) (before : List LocalFile)
    {f : LocalFile} {packet : Bytes} (hbefore : ∀ g ∈ before, Sendable u g)
    (hp : Sender.filePacket u (f.setSeeked 0) = .ok packet) {k : ℕ} (hk : 0 < k) (hkf : k < f.size) :
    ∃ w item, recvFiles u (World.start d.path d.fs
        ((Sender.transmit u none (before.map (LocalFile.setSeeked 0))).written ++
          (1::packet ++ f.contents.take k)) .reset Cut.whole) = .raised .transferIncomplete w ∧
      w.rx.state = .paused ∧ w.rx.fileItems[before.length]? = some item ∧
      w.rx.currentFile = some item ∧ item.seeked = .int k ∧
      w.fs.content item.path = some (f.contents.take k) := by
  obtain ⟨w₁,hrec,hpend,hloop⟩ := recvLoop_records u before
    ((World.start d.path d.fs ((Sender.transmit u none (before.map (LocalFile.setSeeked 0))).written ++
      (1::packet ++ f.contents.take k)) .reset Cut.whole).setState .receiving)
    (1::packet ++ f.contents.take k) d.isDirectory rfl rfl hbefore rfl
  have hlen : (f.contents.take k).length = k := by
    rw [List.length_take]
    exact min_eq_left hkf.le
  obtain ⟨new,w,ht,hrun⟩ := recvLoop_record_reset (f := f.setSeeked 0) hrec.isDirectory hrec.toStop
    hrec.cut hrec.ending hp rfl hpend (List.ne_nil_of_length_pos (hlen.symm ▸ hk))
    (hlen.symm ▸ hkf)
  obtain ⟨items,hitems,hall⟩ := hrec.items
  have hcount : w₁.rx.fileItems.length = before.length := by
    rw [hitems, hall.length_eq]
    rfl
  refine ⟨w.setState .paused,newItem w₁.rx.downloadPath new f.size (f.contents.take k).length,?_,
    rfl,?_,ht.current,?_,?_⟩
  · rw [recvFiles_eq _ _ rfl, hloop, hrun, Run.bind_raised]
  · show w.rx.fileItems[before.length]? = _
    rw [ht.items, ← hcount, List.getElem?_concat_length]
    rfl
  · show Value.int _ = _
    rw [hlen]
  · have hloc := locate_entry (ht.isDirectory hrec.isDirectory) ht.entry.ne_dotdot ht.entry.no_nul
    rw [ht.put.here, ht.downloadPath] at hloc
    show w.fs.content (w₁.rx.downloadPath ++ [new]) = _
    simp [FileSystem.content, hloc, ht.put.here]

end Receiver

/-- A broken transfer is never resumed to its end: the receiver does not await the check for another
file, so it takes the next tag for a part of a header and never sees the last. -/
theorem never_resumes (u : Umsgpack) (d : DownloadDirectory) (files : List LocalFile)
    (ending : Ending) (s : Sender) (w : World) : ¬ Resumes u d files ending s w := by
  rintro ⟨_,w',_,_,hrun,_⟩
  exact continueTransfer_ne_done u _ w' hrun

/-- A file of two bytes. -/
def twoA : LocalFile := ⟨nameA,[7,8],0,by decide⟩

def twoCodec : Umsgpack :=
  .single (FileItem.header ['a'] (.int 2) (.int 0)) [0x93,0xa1,0x61,2,0]
    (fun | .array [.str ['a'],.int 2,.int 0] => true | _ => false)
    (by intro w h; split at h <;> simp_all [FileItem.header])

/-- The sender of that file, once its end tag could not be sent. -/
theorem twoA_sender : ∃ s, Sender.sendFiles twoCodec { Sender.init [twoA] none with sends := some 3 } =
      .raised .transferIncomplete s ∧
    s.out = [1,0,0,0,5,0x93,0xa1,0x61,2,0,7,8] ∧ s.state = .paused := by
  refine ⟨_,rfl,rfl,rfl⟩

/-- The connection breaks behind the first byte of that file, and the transfer is not resumed. -/
theorem break_behind_first_byte_not_resumed :
    ¬ ∀ (u : Umsgpack) (d : DownloadDirectory) (files : List LocalFile) (ending : Ending)
      (s : Sender) (w : World), Broken u d files s w → Resumes u d files ending s w := by
  intro h
  obtain ⟨s,hsend,hout,hpaused⟩ := twoA_sender
  have hpacket : Sender.filePacket twoCodec (twoA.setSeeked 0) =
      .ok [0,0,0,5,0x93,0xa1,0x61,2,0] := rfl
  obtain ⟨w,item,hrecv,hw,hitem,hcur,hseek,hcont⟩ := recvFiles_breaks bareDirectory []
    (by simp) hpacket (k := 1) (by decide) (by decide)
  have hbroken : Broken twoCodec bareDirectory [twoA] s w :=
    ⟨⟨3,_,hsend⟩,⟨_,_,⟨[8],by rw [hout]; rfl⟩,hrecv⟩,hpaused,hw,0,twoA,item,1,rfl,hitem,hcur,hseek,
      by decide,by decide,hcont⟩
  obtain ⟨_,w',_,_,hrun,_⟩ := h twoCodec bareDirectory [twoA] .silent s w hbroken
  exact continueTransfer_ne_done twoCodec _ w' hrun

end PeerConnect.Transfers
