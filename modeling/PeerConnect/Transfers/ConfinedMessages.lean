import PeerConnect.Transfers.Traversal

/-! Exactly which messages of a peer are confined to the download directory. -/
namespace PeerConnect.Transfers
open Library Wire FileSystem Coro

variable {u : Umsgpack} {root : DownloadRoot} {w w' w'' : World} {raw rest : Bytes}

/-- A header that has been read is received as an item under its name. -/
theorem recvFileOnce_of_item {item : FileItem} (h : Receiver.recvFileItem u w = .done item w') :
    Receiver.recvFileOnce u w = Receiver.receiveItem item w' := by
  simp only [Receiver.recvFileOnce, bind_apply, tryCatch_apply, h, Run.handle_done, Run.bind_done]

theorem dirRecvFileItem_of_parts {parent name : List Char} {size : ℕ}
    (hparts : DirReceiver.recvParts u w = .done (.str parent,.str name) w')
    (hsize : Receiver.recvInt 8 w' = .done size w'') :
    DirReceiver.recvFileItem u w =
      .done (dirItem ((w''.rx.downloadPath.join parent).join name) size) w'' := by
  simp only [DirReceiver.recvFileItem, bind_apply, hparts, Run.bind_done, tryCatch_apply, hsize,
    Run.handle_done, get_apply, fullPath, ofExcept_ok, pure_apply]
  rfl

/-- A file of a directory transfer is received as an item, and acknowledged. -/
theorem step_file {item : FileItem} (h : DirReceiver.recvFileItem u w = .done item w') :
    DirReceiver.step u DirReceiver.fileCode w =
      (Receiver.receiveItem item w').bind fun _ => Receiver.sendFunc DirReceiver.fileCode := by
  simp only [DirReceiver.step, DirReceiver.recvFileOnce, if_true, bind_apply, tryCatch_apply, h,
    Run.handle_done, Run.bind_done]

theorem step_path {parent name : List Char}
    (hparts : DirReceiver.recvParts u w = .done (.str parent,.str name) w') :
    DirReceiver.step u DirReceiver.pathCode w = Receiver.onDisk (makeDirectories
      ((w'.rx.downloadPath.join parent).join name).reverse false) w' := by
  have hne : DirReceiver.pathCode ≠ DirReceiver.fileCode := by decide
  simp only [DirReceiver.step, if_neg hne, if_true, DirReceiver.recvPath, bind_apply, hparts,
    Run.bind_done, get_apply, fullPath, ofExcept_ok]

theorem onDisk_fs {α : Type} (x : Coro FsError FileSystem α) (w : World) :
    (Receiver.onDisk x w).state.fs = (x w.fs).state := by
  unfold Receiver.onDisk
  rw [zoom_apply]
  cases x w.fs <;> rfl

theorem acknowledged_fs (r : Run Exn World Unit) (data : Bytes) :
    (r.bind fun _ => Receiver.sendFunc data).state.fs = r.state.fs := by
  cases r <;> rfl

/-- The path `rename_directory_with_increment` makes. -/
def newPath (fs : FileSystem) (absPath : Path) : Path :=
  absPath.parent.join (freeName fs absPath.parent (dirCandidate absPath.name))

theorem rename_state {fs : FileSystem} (hroot : fs.IsDirectory root.path (resolve root.path))
    (dirName : List Char) :
    (renameDirectoryWithIncrement root.path dirName fs).state =
      (makeDirectories (newPath fs (root.path.join dirName)).reverse true fs).state := by
  have hdir : isDir fs root.path = true := by
    simp [isDir, hroot.locate, FileSystem.isDir, hroot.dir]
  simp only [renameDirectoryWithIncrement, bind_apply, get_apply, Run.bind_done, id_eq, hdir,
    if_true]
  unfold newPath
  cases makeDirectories _ true fs <;> rfl

theorem dirCandidate_candidates (base : Name) (hc : Clean base) (hd : base ≠ dot) :
    Candidates (dirCandidate base) :=
  numbered_candidates (List.append_nil base) hc hd (by decide)

/-- A path with nothing there is taken as it is. -/
theorem newPath_eq {fs : FileSystem} {p : Path} (hp : p.Proper) (hne : p ≠ [])
    (hfree : fs.pathExists p = false) : newPath fs p = p := by
  have hjoin : p.parent.join p.name = p := by
    rw [(hp _ (Path.name_mem hne)).join_eq, Path.parent_concat_name hne]
  have hfree' : fs.pathExists (p.parent.join (dirCandidate p.name 0)) = false := by
    show fs.pathExists (p.parent.join p.name) = false
    rw [hjoin, hfree]
  rw [newPath, freeName, firstFree_of_free hfree']
  exact hjoin

/-- The names tried for a directory do not change where it is put. -/
theorem newPath_cases {fs : FileSystem} {p : Path} (hp : p.Proper) (hn : p.hasNul = false) :
    newPath fs p = p.parent ∨ ∃ n, newPath fs p = p.parent ++ [n] := by
  by_cases hne : p = []
  · subst hne
    unfold newPath freeName
    cases firstFree _ _ _ 0 with
    | zero => exact .inl (by decide)
    | succ k =>
      have hcand := dirCandidate_candidates [] (by decide) (by decide)
      exact .inr ⟨_,(hcand.entry k).join_eq _⟩
  · have hmem := Path.name_mem hne
    have hcomp := hp _ hmem
    have hcand := dirCandidate_candidates _
      ⟨hcomp.no_slash,Path.not_mem_of_hasNul hn hmem⟩ hcomp.ne_dot
    unfold newPath freeName
    cases firstFree _ _ _ 0 with
    | zero => exact .inr ⟨_,hcomp.join_eq _⟩
    | succ k => exact .inr ⟨_,(hcand.entry k).join_eq _⟩

/-- What keeps the directory of a handshake inside keeps every name tried for it inside. -/
theorem newPath_makesInside {fs : FileSystem} {p : Path} (hp : p.Proper)
    (h : p.hasNul = true ∨ root.MakesInside p.parent ∧ root.Contains (resolve p.parent)) :
    root.MakesInside (newPath fs p) := by
  by_cases hn : p.hasNul = true
  · have hne : p ≠ [] := by
      rintro rfl
      cases hn
    rw [newPath_eq hp hne (by simp [pathExists, FileSystem.locate, hn])]
    exact .inl hn
  · obtain ⟨hmakes,hin⟩ := h.resolve_left hn
    rcases newPath_cases hp (by simpa using hn) with he | ⟨n,he⟩
    · rwa [he]
    · rw [he]
      rcases hmakes with hnul | hmakes
      · exact .inl (by rw [Path.hasNul_append, hnul, Bool.true_or])
      · refine .inr fun q hq => ?_
        rcases List.prefix_concat_iff.mp hq with rfl | hq
        · rw [resolve_concat]
          by_cases hdd : n = dotdot
          · rw [hdd, descend_dotdot]
            exact root.tail_comes (.inl hin)
          · rw [descend_of_ne _ hdd]
            exact .inl (hin.cons n)
        · exact hmakes q hq

/-- A message that stays is confined, over any stream and on any disk. -/
theorem confined_of_stays {m : Message} (h : m.Stays root) : m.Confined u root := by
  cases m with
  | fileHeader name size seeked =>
    rintro w w' item hw hitem rfl rfl rfl
    have hreads := Reads.of_done (reads_recvFileItem u) hitem
    have hpath := recvFileItem_path hitem
    rw [hw.downloadPath] at hpath
    rw [recvFileOnce_of_item hitem, World.Adds, ← hreads.fs]
    refine receiveItem_confined (hreads.receives hw) ?_ ?_
    · rw [hpath]
      exact root.proper.join _
    · have : item = ⟨item.name,root.path.join item.name,item.size,item.seeked⟩ := by
        rw [← hpath]
      rwa [this]
  | dirFile parent name size =>
    intro w w' w'' hw hparts hsize
    have hreads := (Reads.of_done (reads_recvParts u) hparts).trans
      (Reads.of_done (reads_recvInt 8) hsize)
    have hw'' := hreads.receives hw
    rw [step_file (dirRecvFileItem_of_parts hparts hsize), World.Adds, acknowledged_fs, ← hreads.fs,
      hw''.downloadPath]
    exact receiveItem_confined hw'' ((root.proper.join _).join _) h
  | dirPath parent name =>
    intro w w' hw hparts
    have hreads := Reads.of_done (reads_recvParts u) hparts
    have hw' := hreads.receives hw
    rw [step_path hparts, World.Adds, onDisk_fs, ← hreads.fs, hw'.downloadPath]
    exact makeDirectories_confined hw'.isDirectory (by rwa [List.reverse_reverse]) false
  | dirHandshake dirName =>
    intro fs hroot
    rw [rename_state hroot]
    refine makeDirectories_confined hroot ?_ true
    rw [List.reverse_reverse]
    exact newPath_makesInside (root.proper.join _) h

/-- A receiver to whose root some bytes come uncut. -/
def receiving (root : DownloadRoot) (fs : FileSystem) (bytes : Bytes) : World where
  rx := { downloadPath := root.path }
  fs := fs
  source := ⟨bytes,.closed,Cut.whole,0⟩

/-- A value of the package behind its length, and something behind both. -/
def framed (raw rest : Bytes) : Bytes := toNetworkOrder 4 raw.length ++ (raw ++ rest)

variable (root rest) in
theorem recv_framed (fs : FileSystem) (hlen : raw.length < 256^4) (hrest : rest ≠ []) :
    ∃ w₁ w₂, Receiver.recvInt 4 (receiving root fs (framed raw rest)) = .done raw.length w₁ ∧
      Receiver.recvFunc raw.length w₁ = .done raw w₂ ∧ w₂.source.pending = rest ∧
      w₂.source.cut = Cut.whole := by
  have hl : packUInt 4 raw.length = some (toNetworkOrder 4 raw.length) :=
    packUInt_eq_some.mpr ⟨hlen,rfl⟩
  obtain ⟨s,hs,h₁,h₂⟩ := Receiver.recv_frame (w := receiving root fs (framed raw rest)) hl rfl rfl
    hrest
  refine ⟨_,_,h₁,h₂,?_,hs.cut⟩
  show s.pending = rest
  rw [hs.pending]
  show (framed raw rest).drop _ = rest
  rw [framed, ← List.append_assoc, List.drop_left]

theorem recvFileItem_framed {name : List Char} {size seeked : Value} (fs : FileSystem)
    (hload : u.loads raw = some (FileItem.header name size seeked)) (hlen : raw.length < 256^4) :
    ∃ w', Receiver.recvFileItem u (receiving root fs (framed raw [0])) =
      .done ⟨name,root.path.join name,size,seeked⟩ w' := by
  obtain ⟨w₁,w₂,h₁,h₂,_⟩ := recv_framed root [0] fs hlen (by simp)
  have hrx : w₂.rx.downloadPath = root.path := by
    rw [((Reads.of_done (reads_recvInt 4) h₁).trans (Reads.of_done (reads_recvFunc _) h₂)).rx]
    rfl
  exact ⟨w₂,by simp only [Receiver.recvFileItem, bind_apply, tryCatch_apply, h₁, Run.handle_done,
    Run.bind_done, h₂, get_apply, hrx, FileItem.loadFrom_header u hload, ofExcept_ok]⟩

variable (rest) in
theorem recvParts_framed {parent name : List Char} (fs : FileSystem) (hrest : rest ≠ [])
    (hload : u.loads raw = some (.array [.str parent,.str name])) (hlen : raw.length < 256^4) :
    ∃ w', DirReceiver.recvParts u (receiving root fs (framed raw rest)) =
      .done (.str parent,.str name) w' ∧ w'.source.pending = rest ∧ w'.source.cut = Cut.whole := by
  obtain ⟨w₁,w₂,h₁,h₂,hs⟩ := recv_framed root rest fs hlen hrest
  refine ⟨w₂,?_,hs⟩
  simp only [DirReceiver.recvParts, bind_apply, h₁, Run.bind_done, h₂, hload]
  rfl

theorem confined_item {item : FileItem} (hp : item.path.Proper) (h : ∀ fs : FileSystem,
    fs.IsDirectory root.path (resolve root.path) → ∃ w : World, w.fs = fs ∧
      w.rx.downloadPath = root.path ∧ World.Adds root.Contains w (Receiver.receiveItem item w).state) :
    item.Stays root := by
  by_contra hstays
  obtain ⟨fs,l,hroot,hout,hreach⟩ := exists_escape hp hstays
  obtain ⟨w,hfs,hw,hadds⟩ := h fs hroot
  exact hout (hadds.property (hreach w hfs hw))

/-- Where a path leads astray, on some disk that is where its first missing directory would be. -/
theorem exists_astray {p : Path} (hn : p.hasNul = false) (h : ¬ root.MakesInside p) :
    ∃ (fs : FileSystem) (q : Path) (c : Name) (rest : Path), p = q ++ c::rest ∧
      fs.IsDirectory root.path (resolve root.path) ∧ fs.IsDirectory q (resolve q) ∧ c ≠ dotdot ∧
      fs.lookup (c::resolve q) = none ∧ ¬ root.Contains (c::resolve q) := by
  obtain ⟨q,c,rest,rfl,hq,hc,hout⟩ := root.exists_first fun hall => h (.inr hall)
  obtain ⟨fs,hroot,hdir,hnone⟩ := root.exists_unmade
    (Path.hasNul_of_prefix (List.prefix_append _ _) hn) hq hout
  exact ⟨fs,q,c,rest,rfl,hroot,hdir,hc,hnone,fun hin => hout (.inl hin)⟩

theorem confined_path {p : Path} (h : ∀ fs : FileSystem,
    fs.IsDirectory root.path (resolve root.path) →
      FileSystem.Adds root.Contains fs (makeDirectories p.reverse false fs).state) :
    root.MakesInside p := by
  by_cases hn : p.hasNul = true
  · exact .inl hn
  · replace hn : p.hasNul = false := by simpa using hn
    by_contra hmakes
    obtain ⟨fs,q,c,rest,rfl,hroot,hdir,hc,hnone,hout⟩ := exists_astray hn hmakes
    exact hout ((h fs hroot).property (makeDirectories_reaches rest hdir hc hnone hn false))

theorem confined_newPath {p : Path} (hp : p.Proper) (h : ∀ fs : FileSystem,
    fs.IsDirectory root.path (resolve root.path) →
      FileSystem.Adds root.Contains fs (makeDirectories (newPath fs p).reverse true fs).state) :
    p.hasNul = true ∨ root.MakesInside p.parent ∧ root.Contains (resolve p.parent) := by
  by_cases hn : p.hasNul = true
  · exact .inl hn
  · replace hn : p.hasNul = false := by simpa using hn
    have hparent : p.parent.hasNul = false := Path.hasNul_of_prefix (List.dropLast_prefix _) hn
    refine .inr ⟨?_,?_⟩
    · -- nothing is there to get in the way of the first name
      by_contra hmakes
      obtain ⟨fs,q,c,rest,he,hroot,hdir,hc,hnone,hout⟩ := exists_astray hparent hmakes
      have hne : p ≠ [] := by
        rintro rfl
        simp [Path.parent] at he
      have hsplit : p = q ++ c::rest ++ [p.name] := by rw [← he, Path.parent_concat_name hne]
      have hfree : fs.pathExists p = false := by
        rw [hsplit] at hn ⊢
        rw [pathExists, locate_missing rest _ hdir hc hnone hn]
      have hadds := h fs hroot
      rw [newPath_eq hp hne hfree, hsplit, List.append_assoc, List.cons_append] at hadds
      refine hout (hadds.property (makeDirectories_reaches _ hdir hc hnone ?_ true))
      rwa [hsplit, List.append_assoc, List.cons_append] at hn
    · by_contra hout
      obtain ⟨fs,hsc⟩ := exists_scaffold (stops root.path ++ stops p.parent)
      have hroot := hsc.isDirectory root.noNul fun l => List.mem_append_left _
      have hdir := hsc.isDirectory hparent fun l => List.mem_append_right _
      have hcand : Candidates (dirCandidate p.name) := by
        by_cases hne : p = []
        · subst hne
          exact dirCandidate_candidates _ (by decide) (by decide)
        · have hmem := Path.name_mem hne
          exact dirCandidate_candidates _
            ⟨(hp _ hmem).no_slash,Path.not_mem_of_hasNul hn hmem⟩ (hp _ hmem).ne_dot
      obtain ⟨hentry,hnone⟩ := freeName_free hdir hcand
      have hadds := h fs hroot
      rw [newPath, hentry.join_eq] at hadds
      have hnul : Path.hasNul (p.parent ++ [freeName fs p.parent (dirCandidate p.name)]) = false := by
        rw [Path.hasNul_append, hparent]
        simpa [Path.hasNul] using hentry.no_nul
      have hin := hadds.property
        (makeDirectories_reaches [] hdir hentry.ne_dotdot hnone hnul true)
      rcases inside_cons_iff.mp hin with he | hin
      · have := hroot.dir
        rw [he, hnone] at this
        cases this
      · exact hout hin

/-- Only a message that stays is confined on every disk. -/
theorem stays_of_confined {m : Message} (hs : m.Sendable u) (h : m.Confined u root) :
    m.Stays root := by
  cases m with
  | fileHeader name size seeked =>
    obtain ⟨raw,hload,hlen⟩ := hs
    refine confined_item (root.proper.join name) fun fs hroot => ?_
    obtain ⟨w',hitem⟩ := recvFileItem_framed fs hload hlen
    have hreads := Reads.of_done (reads_recvFileItem u) hitem
    refine ⟨w',hreads.fs,by rw [hreads.rx]; rfl,?_⟩
    have hadds := h _ _ _ ⟨rfl,hroot⟩ hitem rfl rfl rfl
    rwa [recvFileOnce_of_item hitem, World.Adds, ← hreads.fs] at hadds
  | dirFile parent name size =>
    obtain ⟨raw,hload,hlen⟩ := hs
    refine confined_item ((root.proper.join parent).join name) fun fs hroot => ?_
    have hpack : packUInt 8 size.toNat = some (toNetworkOrder 8 size.toNat) :=
      packUInt_eq_some.mpr ⟨size.toNat_lt,rfl⟩
    obtain ⟨w',hparts,hpend,hcut⟩ := recvParts_framed
      (toNetworkOrder 8 size.toNat ++ [0]) fs (by simp) hload hlen
    have hr := Receiver.recvFunc_whole (w := w') (toNetworkOrder 8 size.toNat) hcut hpend
      (by simp [hpend])
    rw [toNetworkOrder_length] at hr
    obtain ⟨w'',hsize⟩ : ∃ w'', Receiver.recvInt 8 w' = .done size.toNat w'' :=
      ⟨_,Receiver.recvInt_of_recv hr hpack⟩
    have hreads := (Reads.of_done (reads_recvParts u) hparts).trans
      (Reads.of_done (reads_recvInt 8) hsize)
    have hpath : w''.rx.downloadPath = root.path := by rw [hreads.rx]; rfl
    refine ⟨w'',hreads.fs,hpath,?_⟩
    have hadds := h _ _ _ ⟨rfl,hroot⟩ hparts hsize
    rwa [step_file (dirRecvFileItem_of_parts hparts hsize), World.Adds, acknowledged_fs,
      ← hreads.fs, hpath] at hadds
  | dirPath parent name =>
    obtain ⟨raw,hload,hlen⟩ := hs
    refine confined_path fun fs hroot => ?_
    obtain ⟨w',hparts,_⟩ := recvParts_framed [0] fs (by simp) hload hlen
    have hreads := Reads.of_done (reads_recvParts u) hparts
    have hadds := h _ _ ⟨rfl,hroot⟩ hparts
    rwa [step_path hparts, World.Adds, onDisk_fs, hreads.fs, hreads.rx] at hadds
  | dirHandshake dirName =>
    refine confined_newPath (root.proper.join dirName) fun fs hroot => ?_
    have hadds := h fs hroot
    rwa [rename_state hroot] at hadds

/-- Exactly the messages that stay are confined to the download directory. -/
theorem confined_iff_stays (u : Umsgpack) (root : DownloadRoot) (m : Message) (hs : m.Sendable u) :
    m.Confined u root ↔ m.Stays root :=
  ⟨stays_of_confined hs,confined_of_stays⟩

/-- The header of an empty file named `../e`, and its encoding. -/
def upwards : Message := .fileHeader "../e".toList (.int 0) (.int 0)

def upwardsBytes : Bytes := [0x93,0xa4,0x2e,0x2e,0x2f,0x65,0,0]

def upwardsCodec : Umsgpack :=
  Umsgpack.single (FileItem.header "../e".toList (.int 0) (.int 0)) upwardsBytes (fun _ => false)
    (by simp)

def downloads : DownloadRoot where
  path := ["d".toList]
  proper := by
    intro c hc
    obtain rfl := List.mem_singleton.mp hc
    exact ⟨by decide,by decide,by decide⟩
  noNul := by decide

theorem upwards_sendable : upwards.Sendable upwardsCodec :=
  ⟨upwardsBytes,by simp [upwardsCodec, Umsgpack.single],by decide⟩

theorem upwards_confined_iff : upwards.Sendable upwardsCodec ∧
    (upwards.Confined upwardsCodec downloads ↔ upwards.Stays downloads) :=
  ⟨upwards_sendable,confined_iff_stays upwardsCodec downloads upwards upwards_sendable⟩

/-- The parent directory is written to. -/
theorem upwards_escapes : upwards.Sendable upwardsCodec ∧
    ¬ upwards.Confined upwardsCodec downloads := by
  refine ⟨upwards_sendable,fun h => ?_⟩
  have hs : upwards.Stays downloads := stays_of_confined upwards_sendable h
  have hnul : ¬ (downloads.path.join "../e".toList).hasNul = true := by decide
  have hin : ¬ Inside (resolve downloads.path) (resolve (downloads.path.join "../e".toList)) := by
    decide
  exact hs.elim hnul hin

end PeerConnect.Transfers
