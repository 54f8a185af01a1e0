import PeerConnect.Transfers.Records

/-! A whole transfer over a connection that neither breaks nor cuts. -/
namespace PeerConnect.Transfers
open Library Wire FileSystem Receiver

/-- A directory to download into. -/
structure DownloadDirectory where
  fs : FileSystem
  path : Path
  loc : Loc
  isDirectory : fs.IsDirectory path loc

/-- A file can be sent: it is not empty, and its header can be packed. -/
def Sendable (u : Umsgpack) (f : LocalFile) : Prop :=
  f.contents ≠ [] ∧ ∃ packet, Sender.filePacket u (f.setSeeked 0) = .ok packet

/-- The item names a file of the directory whose contents are the sent file's. -/
def Holds (w : World) (dir : Loc) (f : LocalFile) (item : FileItem) : Prop :=
  ∃ new, Entry new ∧ item.path = w.rx.downloadPath ++ [new] ∧
    w.fs.lookup (new::dir) = some (.file f.contents)

/-- The sender and the receiver both complete the transfer, and the received items name files with
the contents of those sent, in order. -/
def Delivers (u : Umsgpack) (d : DownloadDirectory) (ending : Ending) (files : List LocalFile) :
    Prop :=
  ∃ s w, Sender.sendFiles u (Sender.init files none) = .done () s ∧ s.state = .completed ∧
    recvFiles u (World.start d.path d.fs s.out ending Cut.whole) = .done () w ∧
    w.rx.state = .completed ∧
    List.Forall₂ (fun f item => w.fs.content item.path = some f.contents) files w.rx.fileItems

/-- What is there stays as it is. -/
def Keeps (w w' : World) : Prop :=
  ∀ l, w.fs.lookup l ≠ none → w'.fs.lookup l = w.fs.lookup l

theorem Receiver.Took.keeps {w w' : World} {dir : Loc} {new : Name} {n : ℕ} {got : Bytes}
    (h : Took w w' dir new n got) : Keeps w w' :=
  fun l hl => h.put.elsewhere l (by rintro rfl; exact hl h.fresh)

theorem Receiver.Took.isDirectory {w w' : World} {dir : Loc} {new : Name} {n : ℕ} {got : Bytes}
    (h : Took w w' dir new n got) (hdir : w.fs.IsDirectory w.rx.downloadPath dir) :
    w'.fs.IsDirectory w'.rx.downloadPath dir := by
  rw [h.downloadPath]
  exact hdir.mono (h.put.dirs (by rw [h.fresh]; simp))

theorem Holds.keeps {w w' : World} {dir : Loc} {f : LocalFile} {item : FileItem}
    (h : Holds w dir f item) (hk : Keeps w w') (hd : w'.rx.downloadPath = w.rx.downloadPath) :
    Holds w' dir f item := by
  obtain ⟨new,hentry,hpath,hl⟩ := h
  exact ⟨new,hentry,by rw [hd]; exact hpath,by rw [hk _ (by rw [hl]; simp)]; exact hl⟩

theorem Holds.content {w : World} {dir : Loc} {f : LocalFile} {item : FileItem}
    (h : Holds w dir f item) (hdir : w.fs.IsDirectory w.rx.downloadPath dir) :
    w.fs.content item.path = some f.contents := by
  obtain ⟨new,hentry,hpath,hl⟩ := h
  simp [FileSystem.content, hpath, locate_entry hdir hentry.ne_dotdot hentry.no_nul, hl]

/-- A list of files has been received, on top of what was there. -/
structure Received (w w' : World) (dir : Loc) (files : List LocalFile) : Prop where
  keeps : Keeps w w'
  isDirectory : w'.fs.IsDirectory w'.rx.downloadPath dir
  downloadPath : w'.rx.downloadPath = w.rx.downloadPath
  toStop : w'.rx.toStop = w.rx.toStop
  ending : w'.source.ending = w.source.ending
  cut : w'.source.cut = w.source.cut
  items : ∃ items, w'.rx.fileItems = w.rx.fileItems ++ items ∧
    List.Forall₂ (Holds w' dir) files items

/-- One more file in front of the received ones. -/
theorem Received.cons {w w₁ w' : World} {dir : Loc} {f g : LocalFile} {files : List LocalFile}
    {new : Name} (h : Received w₁ w' dir files) (ht : Took w w₁ dir new g.size f.contents)
    (he : w₁.source.ending = w.source.ending) (hc : w₁.source.cut = w.source.cut) :
    Received w w' dir (f::files) where
  keeps := fun l hl => by rw [h.keeps l (by rw [ht.keeps l hl]; exact hl), ht.keeps l hl]
  isDirectory := h.isDirectory
  downloadPath := h.downloadPath.trans ht.downloadPath
  toStop := h.toStop.trans ht.toStop
  ending := h.ending.trans he
  cut := h.cut.trans hc
  items := by
    obtain ⟨items,hitems,hall⟩ := h.items
    refine ⟨newItem w.rx.downloadPath new g.size f.contents.length::items,?_,.cons ?_ hall⟩
    · rw [hitems, ht.items, List.append_assoc]
      rfl
    · refine Holds.keeps (w := w₁) ⟨new,ht.entry,?_,ht.put.here⟩ h.keeps h.downloadPath
      rw [ht.downloadPath]
      rfl

/-- All the records of a list of files, with whatever is behind them. -/
theorem recvLoop_records (u : Umsgpack) {dir : Loc} (files : List LocalFile) (w : World)
    (rest : Bytes) (hdir : w.fs.IsDirectory w.rx.downloadPath dir) (hstop : w.rx.toStop = false)
    (hc : w.source.cut = Cut.whole) (hsend : ∀ f ∈ files, Sendable u f)
    (hpend : w.source.pending =
      (Sender.transmit u none (files.map (LocalFile.setSeeked 0))).written ++ rest) :
    ∃ w', Received w w' dir files ∧ w'.source.pending = rest ∧ recvLoop u w = recvLoop u w' := by
  induction files generalizing w with
  | nil => exact ⟨w,⟨fun _ _ => rfl,hdir,rfl,rfl,rfl,rfl,[],by simp,.nil⟩,hpend,rfl⟩
  | cons f fs ih =>
    obtain ⟨hne,packet,hp⟩ := hsend f List.mem_cons_self
    set f₀ := f.setSeeked 0 with hf₀
    have hne₀ : f₀.contents ≠ [] := hne
    have hpend' : w.source.pending = 1::packet ++ (f.contents ++
        ((Sender.transmit u none (fs.map (LocalFile.setSeeked 0))).written ++ rest)) := by
      rw [hpend, List.map_cons, Sender.transmit_contents (by simp) hp hne₀ _ rfl]
      simp [cutOff]
      rfl
    obtain ⟨new,w₁,ht,hp₁,he₁,hc₁,hrun⟩ := recvLoop_record_whole (f := f₀) hdir hstop hc hp hne₀ rfl
      hpend' (by simp [LocalFile.size, hf₀, LocalFile.setSeeked])
    have hgot : ∀ tail : Bytes, (f.contents ++ tail).take f₀.size = f.contents := fun tail =>
      List.take_left
    have hleft : ∀ tail : Bytes, (f.contents ++ tail).drop f₀.size = tail := fun tail =>
      List.drop_left
    rw [hgot] at ht
    rw [hleft] at hp₁
    obtain ⟨w',hrec,hp',hrun'⟩ := ih w₁ (ht.isDirectory hdir) (ht.toStop.trans hstop) (hc₁.trans hc)
      (fun g hg => hsend g (List.mem_cons_of_mem _ hg)) hp₁
    exact ⟨w',hrec.cons ht he₁ hc₁,hp',hrun.trans hrun'⟩

theorem transmit_error_none (u : Umsgpack) (files : List LocalFile) :
    (Sender.transmit u none (files.map (LocalFile.setSeeked 0))).error = none ↔
      ∀ f ∈ files, Sendable u f := by
  induction files with
  | nil => simp
  | cons f fs ih =>
    have hnone : (none : Option ℕ) ≠ some 0 := by simp
    rw [List.map_cons, List.forall_mem_cons, ← ih]
    cases hp : Sender.filePacket u (f.setSeeked 0) with
    | error e =>
      rw [Sender.transmit_unpacked hnone hp]
      simp [Sendable, hp]
    | ok packet =>
      by_cases hc : f.contents = []
      · rw [Sender.transmit_empty hnone hp hc]
        simp [Sendable, hc]
      · rw [Sender.transmit_contents hnone hp hc _ rfl]
        simp [Sendable, hp, hc]

/-- A transfer delivers its files exactly if they can all be sent: an empty one ends it, as it cannot
be mapped. -/
theorem delivers_iff_sendable (u : Umsgpack) (d : DownloadDirectory) (ending : Ending)
    (files : List LocalFile) : Delivers u d ending files ↔ ∀ f ∈ files, Sendable u f := by
  rw [← transmit_error_none]
  obtain ⟨s,hrun,_,hout,hstate⟩ := Sender.sendFiles_transmit u files none
  constructor
  · rintro ⟨s',_,hsend,_⟩
    rw [hrun] at hsend
    cases he : (Sender.transmit u none (files.map (LocalFile.setSeeked 0))).error with
    | none => rfl
    | some e => rw [he] at hsend; cases hsend
  · intro he
    rw [he] at hrun
    rw [if_pos he] at hout hstate
    obtain ⟨w,hrec,hpend,hloop⟩ := recvLoop_records u files
      ((World.start d.path d.fs s.out ending Cut.whole).setState .receiving) [0] d.isDirectory rfl
      rfl ((transmit_error_none u files).mp he) hout
    obtain ⟨items,hitems,hall⟩ := hrec.items
    refine ⟨s,World.setState .completed { w with source := w.source.advance 1 },hrun,hstate,?_,rfl,?_⟩
    · rw [recvFiles_eq _ _ rfl, hloop, recvLoop_eq, shouldProceed_tag w _ _ hrec.toStop hpend]
      rfl
    · show List.Forall₂ _ files w.rx.fileItems
      rw [show w.rx.fileItems = items from hitems]
      exact hall.imp fun f item h => h.content hrec.isDirectory

/-- The root directory of a file system with nothing in it. -/
def bareDirectory : DownloadDirectory := ⟨.bare,[],[],⟨rfl,rfl⟩⟩

/-- An empty file. -/
def emptyA : LocalFile := ⟨nameA,[],0,by decide⟩

def emptyCodec : Umsgpack :=
  .single (FileItem.header ['a'] (.int 0) (.int 0)) [0x93,0xa1,0x61,0,0]
    (fun | .array [.str ['a'],.int 0,.int 0] => true | _ => false)
    (by intro w h; split at h <;> simp_all [FileItem.header])

/-- A single empty file is not delivered: the sender announces it and fails on mapping it. -/
theorem empty_file_not_delivered :
    ¬ ∀ (u : Umsgpack) (d : DownloadDirectory) (ending : Ending) (files : List LocalFile),
      Delivers u d ending files := by
  intro h
  obtain ⟨s,_,hsend,_⟩ := h emptyCodec bareDirectory .silent [emptyA]
  have hraise : ∃ s', Sender.sendFiles emptyCodec (Sender.init [emptyA] none) =
      .raised .valueError s' := ⟨_,rfl⟩
  obtain ⟨s',hraise⟩ := hraise
  rw [hraise] at hsend
  cases hsend

end PeerConnect.Transfers
