import PeerConnect.Transfers.EndToEnd

/-! A sender that is told to stop. Its end tag follows whatever contents it has written last, and the
contents are not framed. -/
namespace PeerConnect.Transfers
open Library Wire FileSystem Receiver

/-- A received item against the sender's file as far as it has been sent: a file of the full size has
the right contents, and no more bytes have been taken for contents than were sent as such. -/
structure Faithful (w : World) (f : LocalFile) (item : FileItem) : Prop where
  contents : ∀ bs, w.fs.content item.path = some bs → bs.length = f.size → bs = f.contents
  seeked : ∃ n : ℕ, item.seeked = .int n ∧ n ≤ f.seeked

/-- A sender is stopped after some number of checks, and all it has written is delivered, in whatever
pieces, before the connection is closed. Then every received item is faithful. -/
def CancelsCleanly (u : Umsgpack) (d : DownloadDirectory) (files : List LocalFile)
    (stop : Option ℕ) : Prop :=
  ∀ cut : Cut,
    let s := (Sender.sendFiles u (Sender.init files stop)).state
    let w := (recvFiles u (World.start d.path d.fs s.out .closed cut)).state
    ∀ (i : ℕ) f item, s.fileList[i]? = some f → w.rx.fileItems[i]? = some item → Faithful w f item

/-- The stop is first seen behind a chunk that is not its file's last, no file before having ended the
transfer. -/
def StopsMidFile (u : Umsgpack) : Option ℕ → List LocalFile → Prop
  | some (n+1),f::fs => Sendable u f ∧
    (n+1 < Sender.chunkCount f ∨ StopsMidFile u (some (n - Sender.chunkCount f)) fs)
  | _,_ => False

/-- Fewer chunks than the file has are less than the file. -/
theorem chunks_lt_iff (f : LocalFile) (n : ℕ) :
    n < Sender.chunkCount f ↔ n * calculateChunkSize f.size < f.size := by
  have hc := calculateChunkSize_pos f.size
  have hcount : Sender.chunkCount f =
      (f.size + calculateChunkSize f.size - 1)/calculateChunkSize f.size := by
    simp [Sender.chunkCount, steps]
  rw [hcount, Nat.lt_iff_add_one_le, Nat.le_div_iff_mul_le hc, Nat.add_mul, Nat.one_mul]
  omega

/-- A stop behind the last chunk of a file lets it be sent whole. -/
theorem cutOff_whole {f : LocalFile} {n : ℕ} (h : ¬ n+1 < Sender.chunkCount f) :
    cutOff (some n) (calculateChunkSize f.size) f.contents = f.contents :=
  List.take_of_length_le (not_lt.mp (mt (chunks_lt_iff f (n+1)).mpr h))

/-- Behind a file that can be sent, its tag and its chunks have been checked for a stop. -/
theorem stopsMidFile_cons {u : Umsgpack} {f : LocalFile} {fs : List LocalFile} {n : ℕ}
    (hsend : Sendable u f) :
    StopsMidFile u (some (n+1)) (f::fs) ↔ n+1 < Sender.chunkCount f ∨
      StopsMidFile u (some (n+1 - (1 + Sender.chunkCount f))) fs := by
  have hsub : n+1 - (1 + Sender.chunkCount f) = n - Sender.chunkCount f := by omega
  rw [hsub, StopsMidFile, and_iff_right hsend]

theorem not_stopsMidFile_none (u : Umsgpack) (files : List LocalFile) :
    ¬ StopsMidFile u none files := by
  cases files <;> exact id

/-- A received item of the download directory, as `Faithful`. -/
def FaithfulAt (w : World) (dir : Loc) (f : LocalFile) (item : FileItem) : Prop :=
  ∃ new, Entry new ∧ item.path = w.rx.downloadPath ++ [new] ∧ w.fs.lookup (new::dir) ≠ none ∧
    (∀ bs, w.fs.lookup (new::dir) = some (.file bs) → bs.length = f.size → bs = f.contents) ∧
    ∃ n : ℕ, item.seeked = .int n ∧ n ≤ f.seeked

theorem FaithfulAt.keeps {w w' : World} {dir : Loc} {f : LocalFile} {item : FileItem}
    (h : FaithfulAt w dir f item) (hk : Keeps w w')
    (hd : w'.rx.downloadPath = w.rx.downloadPath) : FaithfulAt w' dir f item := by
  obtain ⟨new,hentry,hpath,hl,hc,hs⟩ := h
  have hl' := hk _ hl
  exact ⟨new,hentry,by rw [hd]; exact hpath,by rw [hl']; exact hl,by rw [hl']; exact hc,hs⟩

theorem FaithfulAt.faithful {w : World} {dir : Loc} {f : LocalFile} {item : FileItem}
    (h : FaithfulAt w dir f item) (hdir : w.fs.IsDirectory w.rx.downloadPath dir) :
    Faithful w f item := by
  obtain ⟨new,hentry,hpath,hl,hc,hs⟩ := h
  refine ⟨fun bs hbs hlen => hc bs ?_ hlen,hs⟩
  have hlocate := locate_entry hdir hentry.ne_dotdot hentry.no_nul
  rw [hpath] at hbs
  cases hn : w.fs.lookup (new::dir) with
  | none => exact absurd hn hl
  | some node =>
    cases node with
    | dir => simp [FileSystem.content, hlocate, hn] at hbs
    | file bs' => simpa [FileSystem.content, hlocate, hn] using hbs

/-- The end of a run of the receiving loop: what it has added to the items is faithful, and what was
there is untouched. -/
structure CleanEnd (w w' : World) (dir : Loc) (files : List LocalFile) : Prop where
  keeps : Keeps w w'
  downloadPath : w'.rx.downloadPath = w.rx.downloadPath
  isDirectory : w'.fs.IsDirectory w'.rx.downloadPath dir
  items : ∃ items, w'.rx.fileItems = w.rx.fileItems ++ items ∧
    ∀ (i : ℕ) f item, files[i]? = some f → items[i]? = some item → FaithfulAt w' dir f item

/-- A run that changes nothing ends clean. -/
theorem CleanEnd.same {w w' : World} {dir : Loc} (files : List LocalFile)
    (hdir : w.fs.IsDirectory w.rx.downloadPath dir) (hfs : w'.fs = w.fs)
    (hitems : w'.rx.fileItems = w.rx.fileItems) (hd : w'.rx.downloadPath = w.rx.downloadPath) :
    CleanEnd w w' dir files where
  keeps := fun _ _ => by rw [hfs]
  downloadPath := hd
  isDirectory := by rw [hfs, hd]; exact hdir
  items := ⟨[],by rw [hitems, List.append_nil],fun i f item _ h => by simp at h⟩

theorem Receiver.Fruitless.cleanEnd {w : World} {dir : Loc} {r : Run Exn World Unit}
    (h : Fruitless w r) (files : List LocalFile)
    (hdir : w.fs.IsDirectory w.rx.downloadPath dir) : CleanEnd w r.state dir files := by
  obtain ⟨e,w',rfl,hfs,hitems,hd⟩ := h
  exact .same files hdir hfs hitems hd

/-- One more item in front of a clean end. -/
theorem CleanEnd.cons {w w₁ w' : World} {dir : Loc} {f : LocalFile} {item : FileItem}
    {files : List LocalFile} (h : CleanEnd w₁ w' dir files) (hk : Keeps w w₁)
    (hd : w₁.rx.downloadPath = w.rx.downloadPath)
    (hitems : w₁.rx.fileItems = w.rx.fileItems ++ [item]) (hf : FaithfulAt w₁ dir f item) :
    CleanEnd w w' dir (f::files) where
  keeps := fun l hl => by rw [h.keeps l (by rw [hk l hl]; exact hl), hk l hl]
  downloadPath := h.downloadPath.trans hd
  isDirectory := h.isDirectory
  items := by
    obtain ⟨items,hi,hall⟩ := h.items
    refine ⟨item::items,by rw [hi, hitems, List.append_assoc]; rfl,fun i g it hg hit => ?_⟩
    cases i with
    | zero =>
      simp only [List.getElem?_cons_zero, Option.some.injEq] at hg hit
      subst hg hit
      exact hf.keeps h.keeps h.downloadPath
    | succ i => exact hall i g it (by simpa using hg) (by simpa using hit)

/-- What a sender has put on the wire when it is done. -/
def wire (t : Sender.Transmission) : Bytes := t.written ++ (if t.error = none then [0] else [])

variable {u : Umsgpack} {w : World} {dir : Loc}

theorem wire_append (xs : Bytes) (file : LocalFile) (t : Sender.Transmission) :
    wire ⟨xs ++ t.written,file::t.files,t.error⟩ = xs ++ wire t :=
  List.append_assoc _ _ _

/-- At the end of a closed stream the loop ends. -/
theorem recvLoop_end (hstop : w.rx.toStop = false) (he : w.source.ending = .closed)
    (hpend : w.source.pending = []) :
    recvLoop u w = .done () { w with source := w.source.advance 0 } := by
  rw [recvLoop_eq, shouldProceed_closed w hstop hpend he]
  rfl

/-- A tag with nothing behind it. -/
theorem recvFileItem_end (he : w.source.ending = .closed) (hpend : w.source.pending = []) :
    ∃ e s, recvFileItem u w = .raised e { w with source := s } := by
  obtain ⟨data,hr⟩ := recvFunc_closed w 4 he
  have hd : data.length ≠ 4 := by
    have := congrArg List.length (recvFunc_done hr).2.1
    rw [hpend] at this
    simp only [List.length_nil, List.length_append] at this
    omega
  exact ⟨.transferIncomplete,w.source.advance data.length,by
    simp [recvFileItem, recvInt, hr, unpackUInt_eq_none.mpr hd]⟩

/-- The record of an empty file has no contents, and nothing follows it. -/
theorem recvLoop_empty_file {f : LocalFile} {packet : Bytes}
    (hdir : w.fs.IsDirectory w.rx.downloadPath dir) (hstop : w.rx.toStop = false)
    (he : w.source.ending = .closed) (hp : Sender.filePacket u f = .ok packet)
    (hempty : f.contents = []) (hf : f.seeked = 0) (hpend : w.source.pending = 1::packet)
    (rest : List LocalFile) : CleanEnd w (recvLoop u w).state dir (f::rest) := by
  have hpend' : (w.source.advance 1).pending = packet ++ [] := by
    rw [List.append_nil]
    exact advance_tag hpend
  rcases recvFileItem_closed (w := { w with source := w.source.advance 1 }) hp he hpend' with
    ⟨s,hb,hitem⟩ | h
  · set item := newItem w.rx.downloadPath f.name.chars 0 0 with hi
    have hfitem : f.item w.rx.downloadPath = item := by
      rw [LocalFile.item, hf, LocalFile.size, hempty]
      rfl
    have hz : item.size.atMostZero = some true := rfl
    obtain ⟨fs,hhere,helse,htouch⟩ := receiveItem_touch
      (w := { w with source := s }) hdir item rfl f.name.entry hz
    set w₁ : World := { w with
      fs := fs, source := s,
      rx := { w.rx with earlier := w.rx.fileItems, currentFile := some item } } with hw₁
    have honce : recvFileOnce u { w with source := w.source.advance 1 } = .done () w₁ := by
      simp only [recvFileOnce, Coro.bind_apply, Coro.tryCatch_apply, hitem, Run.handle_done,
        Run.bind_done, hfitem, htouch]
      rfl
    have hpend₁ : w₁.source.pending = [] := by
      rw [show w₁.source = s from rfl, hb.pending, hpend', List.append_nil, List.drop_length]
    have hend₁ : w₁.source.ending = .closed := hb.ending.trans he
    rw [recvLoop_eq, shouldProceed_tag w _ _ hstop hpend, if_neg (by decide), Run.bind_done,
      if_neg (by simp), honce, Run.bind_done, recvLoop_end (w := w₁) hstop hend₁ hpend₁]
    have hkeep : Keeps w w₁ := by
      intro l hl
      by_cases hc : l = f.name.chars::dir
      · subst hc
        obtain ⟨node,hn⟩ := Option.ne_none_iff_exists'.mp hl
        rw [hn] at hhere ⊢
        exact hhere
      · exact helse l hc
    have hdir₁ : w₁.fs.IsDirectory w₁.rx.downloadPath dir :=
      hdir.mono fun l hd => by rw [hkeep l (by rw [hd]; simp), hd]
    have hend : CleanEnd w₁ { w₁ with source := w₁.source.advance 0 } dir rest :=
      .same rest hdir₁ rfl rfl rfl
    refine CleanEnd.cons (f := f) hend hkeep rfl rfl ?_
    refine ⟨f.name.chars,f.name.entry,rfl,by rw [hhere]; simp,fun bs _ hlen => ?_,0,rfl,Nat.zero_le _⟩
    have : bs.length = 0 := hlen.trans (by rw [LocalFile.size, hempty]; rfl)
    rw [List.length_eq_zero_iff.mp this, hempty]
  · exact (recvLoop_fruitless hstop (by decide) hpend h).cleanEnd _ hdir

/-- Without a stop in the middle of a file, what is received is faithful under every cut. -/
theorem recvLoop_clean (u : Umsgpack) (files : List LocalFile) (stop : Option ℕ) (w : World)
    (hdir : w.fs.IsDirectory w.rx.downloadPath dir) (hstop : w.rx.toStop = false)
    (he : w.source.ending = .closed) (hmid : ¬ StopsMidFile u stop files)
    (hpend : w.source.pending = wire (Sender.transmit u stop (files.map (LocalFile.setSeeked 0)))) :
    CleanEnd w (recvLoop u w).state dir
      (Sender.transmit u stop (files.map (LocalFile.setSeeked 0))).files := by
  induction files generalizing stop w with
  | nil =>
    rw [recvLoop_eq, shouldProceed_tag w 0 [] hstop (by simpa [wire] using hpend)]
    exact .same _ hdir rfl rfl rfl
  | cons f fs ih =>
    set f₀ := f.setSeeked 0 with hf₀
    rw [List.map_cons] at hpend ⊢
    by_cases hs : stop = some 0
    · subst hs
      rw [recvLoop_eq, shouldProceed_tag w 0 [] hstop (by simpa [wire] using hpend)]
      exact .same _ hdir rfl rfl rfl
    cases hp : Sender.filePacket u f₀ with
    | error e =>
      rw [Sender.transmit_unpacked hs hp] at hpend ⊢
      exact (recvLoop_fruitless hstop (by decide) hpend
        (recvFileItem_end he (advance_tag hpend))).cleanEnd _ hdir
    | ok packet =>
      by_cases hc : f₀.contents = []
      · rw [Sender.transmit_empty hs hp hc] at hpend ⊢
        refine recvLoop_empty_file hdir hstop he hp hc rfl (hpend.trans ?_) _
        simp [wire]
      · -- the chunks sent are the whole file
        have hwhole : cutOff (stop.map (· - 1)) (calculateChunkSize f₀.size) f₀.contents =
              f.contents ∧ ¬ StopsMidFile u (stop.map (· - (1 + Sender.chunkCount f₀))) fs := by
          rcases stop with _ | _ | n
          · exact ⟨rfl,not_stopsMidFile_none u fs⟩
          · exact absurd rfl hs
          · have hsend : Sendable u f := ⟨hc,packet,hp⟩
            rw [stopsMidFile_cons hsend, not_or] at hmid
            exact ⟨cutOff_whole hmid.1,hmid.2⟩
        obtain ⟨hall,hmid'⟩ := hwhole
        rw [Sender.transmit_contents hs hp hc _ hall] at hpend ⊢
        set t := Sender.transmit u (stop.map (· - (1 + Sender.chunkCount f₀)))
          (fs.map (LocalFile.setSeeked 0))
        rw [wire_append, List.append_assoc] at hpend
        rcases recvLoop_record_closed hdir hstop he hp hc rfl hpend
          (by simp [LocalFile.size, hf₀, LocalFile.setSeeked]) with ⟨new,w₁,htook,hp₁,he₁,hrun⟩ | h
        · have hgot : (f.contents ++ wire t).take f₀.size = f.contents := List.take_left
          have hleft : (f.contents ++ wire t).drop f₀.size = wire t := List.drop_left
          rw [hgot] at htook
          rw [hleft] at hp₁
          rw [hrun]
          refine (ih _ w₁ (htook.isDirectory hdir) (htook.toStop.trans hstop) he₁ hmid' hp₁).cons
            htook.keeps htook.downloadPath htook.items ?_
          refine ⟨new,htook.entry,by rw [htook.downloadPath]; rfl,by rw [htook.put.here]; simp,
            fun bs hbs _ => ?_,f.contents.length,rfl,le_rfl⟩
          rw [htook.put.here] at hbs
          cases hbs
          rfl
        · exact h.cleanEnd _ hdir

/-- The end tag behind an unfinished file is taken for contents: that file gets one byte more than has
been sent of it. -/
theorem recvLoop_unfinished {f : LocalFile} {packet part : Bytes}
    (hdir : w.fs.IsDirectory w.rx.downloadPath dir) (hstop : w.rx.toStop = false)
    (hc : w.source.cut = Cut.whole) (he : w.source.ending = .closed)
    (hp : Sender.filePacket u f = .ok packet) (hne : f.contents ≠ []) (hf : f.seeked = 0)
    (hpend : w.source.pending = 1::packet ++ (part ++ [0])) (hpart : part.length < f.size) :
    ∃ item, (recvLoop u w).state.rx.fileItems = w.rx.fileItems ++ [item] ∧
      item.seeked = .int (part.length+1 : ℕ) := by
  have hlen : (part ++ [0]).length = part.length+1 := by simp
  by_cases hfull : part.length+1 = f.size
  · obtain ⟨new,w',ht,hp',he',_,hrun⟩ := recvLoop_record_whole hdir hstop hc hp hne hf hpend
      (by rw [hlen, hfull])
    rw [List.take_of_length_le (by rw [hlen, hfull])] at ht
    have hnil : w'.source.pending = [] := by
      rw [hp', List.drop_of_length_le (by rw [hlen, hfull])]
    rw [hrun, recvLoop_end (ht.toStop.trans hstop) (he'.trans he) hnil]
    exact ⟨_,ht.items,by rw [hlen]; rfl⟩
  · obtain ⟨new,w',ht,hrun⟩ := recvLoop_record_short hdir hstop hc he hp hf hpend (by simp)
      (by rw [hlen]; omega)
    rw [hrun]
    exact ⟨_,ht.items,by rw [hlen]; rfl⟩

/-- After a stop in the middle of a file, uncut, the receiver takes more of that file than has been
sent. -/
theorem recvLoop_mid (u : Umsgpack) (files : List LocalFile) (k : ℕ) (w : World)
    (hdir : w.fs.IsDirectory w.rx.downloadPath dir) (hstop : w.rx.toStop = false)
    (hc : w.source.cut = Cut.whole) (he : w.source.ending = .closed)
    (hmid : StopsMidFile u (some k) files)
    (hpend : w.source.pending =
      wire (Sender.transmit u (some k) (files.map (LocalFile.setSeeked 0)))) :
    ∃ (i : ℕ) (f : LocalFile) (item : FileItem) (n : ℕ),
      (Sender.transmit u (some k) (files.map (LocalFile.setSeeked 0))).files[i]? = some f ∧
      (recvLoop u w).state.rx.fileItems[w.rx.fileItems.length+i]? = some item ∧
      item.seeked = .int n ∧ f.seeked < n := by
  induction files generalizing k w with
  | nil => cases k <;> cases hmid
  | cons f fs ih =>
    cases k with
    | zero => cases hmid
    | succ n =>
      obtain ⟨hne,packet,hp⟩ := hmid.1
      rw [stopsMidFile_cons hmid.1] at hmid
      set f₀ := f.setSeeked 0 with hf₀
      have hne₀ : f₀.contents ≠ [] := hne
      set part := cutOff (some n) (calculateChunkSize f₀.size) f₀.contents with hpart
      have hcut : cutOff ((some (n+1)).map (· - 1)) (calculateChunkSize f₀.size) f₀.contents = part :=
        rfl
      rw [List.map_cons, Sender.transmit_contents (by simp) hp hne₀ _ hcut] at hpend ⊢
      rw [wire_append, List.append_assoc] at hpend
      by_cases hlt : n+1 < Sender.chunkCount f
      · have hshort : part.length < f₀.size :=
          (List.length_take_le _ _).trans_lt ((chunks_lt_iff f (n+1)).mp hlt)
        have hzero : n+1 - (1 + Sender.chunkCount f₀) = 0 := by
          have : Sender.chunkCount f₀ = Sender.chunkCount f := rfl
          omega
        rw [Option.map_some, hzero, Sender.transmit_stopped] at hpend
        obtain ⟨item,hitems,hseek⟩ := recvLoop_unfinished hdir hstop hc he hp hne₀ rfl hpend hshort
        refine ⟨0,_,item,part.length+1,rfl,?_,hseek,Nat.lt_succ_self _⟩
        rw [hitems]
        simp
      · have hall : part = f.contents := cutOff_whole hlt
        rw [hall] at hpend
        obtain ⟨new,w₁,htook,hp₁,he₁,hc₁,hrun⟩ := recvLoop_record_whole hdir hstop hc hp hne₀ rfl
          hpend (by simp [LocalFile.size, hf₀, LocalFile.setSeeked])
        have hleft : ∀ tail : Bytes, (f.contents ++ tail).drop f₀.size = tail := fun _ =>
          List.drop_left
        rw [hleft] at hp₁
        obtain ⟨i,g,item,m,hg,hitem,hseek,hlt'⟩ := ih _ w₁ (htook.isDirectory hdir)
          (htook.toStop.trans hstop) (hc₁.trans hc) (he₁.trans he) (hmid.resolve_left hlt) hp₁
        refine ⟨i+1,g,item,m,List.getElem?_cons_succ.trans hg,?_,hseek,hlt'⟩
        rw [hrun]
        rw [htook.items, List.length_append, List.length_singleton] at hitem
        rwa [show w.rx.fileItems.length+(i+1) = w.rx.fileItems.length+1+i by omega]

/-- Running `recv_files` is running its loop, as far as files and items go. -/
theorem recvFiles_loop (u : Umsgpack) (d : DownloadDirectory) (stream : Bytes) (cut : Cut) :
    (recvFiles u (World.start d.path d.fs stream .closed cut)).state.rx.fileItems =
      (recvLoop u ((World.start d.path d.fs stream .closed cut).setState
        .receiving)).state.rx.fileItems ∧
    (recvFiles u (World.start d.path d.fs stream .closed cut)).state.fs =
      (recvLoop u ((World.start d.path d.fs stream .closed cut).setState .receiving)).state.fs := by
  rw [recvFiles_eq _ _ rfl]
  cases recvLoop u ((World.start d.path d.fs stream .closed cut).setState .receiving) <;>
    exact ⟨rfl,rfl⟩

theorem sendFiles_state (u : Umsgpack) (files : List LocalFile) (stop : Option ℕ) :
    let t := Sender.transmit u stop (files.map (LocalFile.setSeeked 0))
    (Sender.sendFiles u (Sender.init files stop)).state.fileList = t.files ∧
      (Sender.sendFiles u (Sender.init files stop)).state.out = wire t := by
  intro t
  obtain ⟨s,hsend,hfiles,hout,_⟩ := Sender.sendFiles_transmit u files stop
  have hstate : (Sender.sendFiles u (Sender.init files stop)).state = s := by
    rw [hsend]
    cases t.error <;> rfl
  rw [hstate]
  exact ⟨hfiles,hout⟩

theorem not_cancelsCleanly (d : DownloadDirectory) {files : List LocalFile} {k : ℕ}
    (hmid : StopsMidFile u (some k) files) : ¬ CancelsCleanly u d files (some k) := by
  intro h
  obtain ⟨hfiles,hout⟩ := sendFiles_state u files (some k)
  have hw := h Cut.whole
  simp only [hout, hfiles] at hw
  obtain ⟨i,f,item,n,hf,hitem,hseek,hlt⟩ := recvLoop_mid u files k
    ((World.start d.path d.fs _ .closed Cut.whole).setState .receiving) d.isDirectory rfl rfl
    rfl hmid rfl
  obtain ⟨m,hm,hle⟩ := (hw i f item hf (by
    rw [(recvFiles_loop u d _ Cut.whole).1]
    rwa [show ((World.start d.path d.fs _ .closed Cut.whole).setState
      .receiving).rx.fileItems.length + i = i from Nat.zero_add i] at hitem)).seeked
  rw [hseek] at hm
  have : n = m := by simpa using hm
  omega

theorem cancelsCleanly_of_not_mid (d : DownloadDirectory) {files : List LocalFile}
    {stop : Option ℕ} (hmid : ¬ StopsMidFile u stop files) : CancelsCleanly u d files stop := by
  intro cut
  obtain ⟨hfiles,hout⟩ := sendFiles_state u files stop
  simp only [hout, hfiles]
  intro i f item hf hitem
  have hclean := recvLoop_clean u files stop
    ((World.start d.path d.fs (wire (Sender.transmit u stop (files.map (LocalFile.setSeeked 0))))
      .closed cut).setState .receiving) d.isDirectory rfl rfl hmid rfl
  obtain ⟨items,hitems,hall⟩ := hclean.items
  obtain ⟨hi,hfs⟩ := recvFiles_loop u d
    (wire (Sender.transmit u stop (files.map (LocalFile.setSeeked 0)))) cut
  replace hitem : items[i]? = some item := by
    rw [hi, hitems] at hitem
    exact hitem
  have hfaith := (hall i f item hf hitem).faithful hclean.isDirectory
  exact ⟨fun bs hbs => hfaith.contents bs (by rw [← hfs]; exact hbs),hfaith.seeked⟩

/-- A cancelled transfer leaves faithful files, however the transport cuts it, exactly if the stop does
not come in the middle of a file. -/
theorem cancelsCleanly_iff (u : Umsgpack) (d : DownloadDirectory) (files : List LocalFile)
    (stop : Option ℕ) : CancelsCleanly u d files stop ↔ ¬ StopsMidFile u stop files := by
  refine ⟨fun h hmid => ?_,cancelsCleanly_of_not_mid d⟩
  cases stop with
  | none => cases files <;> cases hmid
  | some k => exact not_cancelsCleanly d hmid h

/-- A file of one chunk and one byte, none of them zero. -/
def onesA : LocalFile := ⟨nameA,List.replicate 65537 1,0,by
  rw [List.length_replicate]
  decide⟩

def onesCodec : Umsgpack :=
  .single (FileItem.header ['a'] (.int 65537) (.int 0)) [0x93,0xa1,0x61,0xce,0,1,0,1,0]
    (fun | .array [.str ['a'],.int 65537,.int 0] => true | _ => false)
    (by intro w h; split at h <;> simp_all [FileItem.header])

/-- The same file but for a last byte that is zero. -/
def onesZero : LocalFile := ⟨nameA,List.replicate 65536 1 ++ [0],0,by
  rw [List.length_append, List.length_replicate]
  decide⟩

theorem onesZero_size : onesZero.size = 65537 := by
  rw [LocalFile.size, onesZero, List.length_append, List.length_replicate]
  rfl

theorem onesZero_packet : Sender.filePacket onesCodec onesZero =
    .ok [0,0,0,9,0x93,0xa1,0x61,0xce,0,1,0,1,0] := by
  have hb : onesZero.toBytes onesCodec = some [0x93,0xa1,0x61,0xce,0,1,0,1,0] := by
    rw [LocalFile.toBytes, onesZero_size]
    rfl
  rw [Sender.filePacket, hb]
  rfl

/-- What is sent of a file before the sender is stopped behind its first chunk. -/
theorem transmit_first_chunk {u : Umsgpack} {f : LocalFile} {packet sent : Bytes}
    (hp : Sender.filePacket u f = .ok packet) (hne : f.contents ≠ [])
    (hsent : f.contents.take (calculateChunkSize f.size) = sent) :
    Sender.transmit u (some 1) [f] = ⟨1::packet ++ sent,[f.setSeeked sent.length],none⟩ := by
  have hcut : cutOff ((some 1).map (· - 1)) (calculateChunkSize f.size) f.contents = sent := by
    simpa [cutOff] using hsent
  rw [Sender.transmit_contents (by simp) hp hne _ hcut, Sender.transmit_nil, List.append_nil]

/-- Stopped behind its first chunk, the one file is sent as the record of the other. -/
theorem onesA_transmit : Sender.transmit onesCodec (some 1) [onesA.setSeeked 0] =
    ⟨1::[0,0,0,9,0x93,0xa1,0x61,0xce,0,1,0,1,0] ++ List.replicate 65536 1,
      [onesA.setSeeked 65536],none⟩ := by
  have hsize : (onesA.setSeeked 0).size = 65537 := List.length_replicate
  have hpacket : Sender.filePacket onesCodec (onesA.setSeeked 0) =
      .ok [0,0,0,9,0x93,0xa1,0x61,0xce,0,1,0,1,0] := by
    rw [← onesZero_packet, Sender.filePacket, Sender.filePacket, LocalFile.toBytes, LocalFile.toBytes,
      hsize, onesZero_size]
    rfl
  have hne : (onesA.setSeeked 0).contents ≠ [] := List.ne_nil_of_length_eq_add_one hsize
  have hchunk : calculateChunkSize ((65537:ℕ):ℤ) = 65536 := by decide +kernel
  have hsent : (onesA.setSeeked 0).contents.take (calculateChunkSize (onesA.setSeeked 0).size) =
      List.replicate 65536 1 := by
    rw [hsize, hchunk]
    exact List.take_replicate
  rw [transmit_first_chunk hpacket hne hsent, List.length_replicate]
  rfl

theorem onesA_wire : wire (Sender.transmit onesCodec (some 1) [onesA.setSeeked 0]) =
    1::[0,0,0,9,0x93,0xa1,0x61,0xce,0,1,0,1,0] ++ (onesZero.contents ++ []) := by
  rw [onesA_transmit, wire, if_pos rfl, onesZero, List.append_nil, List.append_assoc]

/-- Stopped behind its first chunk, the file is received in its full size with a zero for its last
byte. -/
theorem cancel_behind_first_chunk_corrupts :
    ¬ CancelsCleanly onesCodec bareDirectory [onesA] (some 1) := by
  intro h
  obtain ⟨hfiles,hout⟩ := sendFiles_state onesCodec [onesA] (some 1)
  have hw := h Cut.whole
  simp only [hout, hfiles, List.map_cons, List.map_nil] at hw
  set w₀ := World.start bareDirectory.path bareDirectory.fs
    (wire (Sender.transmit onesCodec (some 1) [onesA.setSeeked 0])) .closed Cut.whole with hw₀
  have hne : onesZero.contents ≠ [] := List.ne_nil_of_length_eq_add_one onesZero_size
  have hlen : onesZero.size ≤ (onesZero.contents ++ ([] : Bytes)).length := by
    rw [List.append_nil]
    rfl
  obtain ⟨new,w',htook,hp,he,_,hrun⟩ := recvLoop_record_whole
    (w := w₀.setState .receiving) bareDirectory.isDirectory rfl rfl onesZero_packet hne rfl
    onesA_wire hlen
  rw [List.append_nil, show onesZero.contents.take onesZero.size = onesZero.contents from
    List.take_length] at htook
  rw [List.append_nil, show onesZero.contents.drop onesZero.size = [] from List.drop_length] at hp
  have hend : recvLoop onesCodec (w₀.setState .receiving) =
      .done () { w' with source := w'.source.advance 0 } := by
    rw [hrun, recvLoop_end htook.toStop he hp]
  obtain ⟨hitems,hfs⟩ := recvFiles_loop onesCodec bareDirectory
    (wire (Sender.transmit onesCodec (some 1) [onesA.setSeeked 0])) Cut.whole
  rw [← hw₀, hend] at hitems hfs
  have hitem : (recvFiles onesCodec w₀).state.rx.fileItems =
      [newItem [] new onesZero.size onesZero.contents.length] := hitems.trans htook.items
  have hcontent : (recvFiles onesCodec w₀).state.fs.content ([] ++ [new]) =
      some onesZero.contents := by
    have hh : Holds w' [] onesZero (newItem [] new onesZero.size onesZero.contents.length) :=
      ⟨new,htook.entry,by rw [htook.downloadPath]; rfl,htook.put.here⟩
    rw [hfs]
    exact hh.content (htook.isDirectory bareDirectory.isDirectory)
  have hsame := (hw 0 (onesA.setSeeked 65536) _ (by rw [onesA_transmit]; rfl)
    (by rw [hitem]; rfl)).contents onesZero.contents hcontent
    (onesZero_size.trans List.length_replicate.symm)
  have hlast : (0 : UInt8) ∈ List.replicate 65537 (1 : UInt8) := by
    rw [show List.replicate 65537 (1 : UInt8) = onesZero.contents from hsame.symm]
    exact List.mem_append_right _ (List.mem_singleton_self 0)
  exact absurd (List.eq_of_mem_replicate hlast) (by decide)

end PeerConnect.Transfers
