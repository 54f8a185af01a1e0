import PeerConnect.Transfers.DirectorySender
import PeerConnect.Transfers.EndToEnd

/-! The receiver of a directory in step with the records its sender writes: where the place of an item
is free, and where it is taken. -/
namespace PeerConnect.Transfers
open Library Wire FileSystem Receiver

theorem splitOn_asPosix {p : Path} (hp : ∀ c ∈ p, Entry c) (hne : p ≠ []) :
    (asPosix p).splitOn '/' = p := by
  rw [asPosix, if_neg hne, List.splitOn_intercalate '/' (fun c hc => (hp c hc).no_slash) hne]

theorem components_asPosix {p : Path} (hp : ∀ c ∈ p, Entry c) : components (asPosix p) = p := by
  by_cases hne : p = []
  · subst hne
    decide
  · rw [components, splitOn_asPosix hp hne, List.filter_eq_self]
    intro c hc
    simp [(hp c hc).ne_nil, (hp c hc).ne_dot]

theorem isAbsolute_asPosix {p : Path} (hp : ∀ c ∈ p, Entry c) : isAbsolute (asPosix p) = false := by
  by_cases hne : p = []
  · subst hne
    decide
  · -- an absolute text would start with an empty component
    by_contra h
    have h : (asPosix p).head? = some '/' := by simpa [isAbsolute] using h
    obtain ⟨rest,hrest⟩ : ∃ rest, asPosix p = '/'::rest := by
      cases ht : asPosix p with
      | nil => rw [ht] at h; cases h
      | cons c rest =>
        rw [ht] at h
        cases h
        exact ⟨rest,rfl⟩
    have hs := splitOn_asPosix hp hne
    rw [hrest, List.splitOn_cons_eq_if_modifyHead] at hs
    simp only [beq_self_eq_true, if_true] at hs
    exact (hp [] (hs ▸ List.mem_cons_self)).ne_nil rfl

/-- The text of a relative path, joined to a root, leads below it. -/
theorem join_asPosix (root : Path) {p : Path} (hp : ∀ c ∈ p, Entry c) :
    root.join (asPosix p) = root ++ p := by
  rw [Path.join, isAbsolute_asPosix hp, components_asPosix hp]
  rfl

theorem DirItem.parent_entry (item : DirItem) : ∀ c ∈ item.parentPath, Entry c := by
  intro c hc
  obtain ⟨name,_,rfl⟩ := List.mem_map.mp hc
  exact name.entry

/-- A directory below a directory. -/
theorem isDirectory_below {fs : FileSystem} {p : Path} {l : Loc} (h : fs.IsDirectory p l) {q : Path}
    (hq : ∀ c ∈ q, Entry c) (hd : fs.lookup (q.reverse ++ l) = some .dir) :
    fs.IsDirectory (p ++ q) (q.reverse ++ l) := by
  induction q using List.reverseRecOn with
  | nil => simpa using h
  | append_singleton q c ih =>
    rw [List.reverse_append, List.reverse_singleton, List.singleton_append, List.cons_append] at hd ⊢
    have hup := ih (fun c hc => hq c (List.mem_append_left _ hc)) (fs.lookup_tail_dir hd)
    have hc := hq c (by simp)
    rw [← List.append_assoc]
    exact ⟨by rw [locate_entry hup hc.ne_dotdot hc.no_nul, hd]; rfl,hd⟩

namespace DirReceiver

/-- One round of the loop. -/
theorem recvLoop_eq (u : Umsgpack) (w : World) :
    recvLoop u w = (shouldProceed w).bind fun code w' =>
      if code = [] then .done () w' else (step u code w').bind fun _ w'' => recvLoop u w'' := by
  rw [recvLoop]
  split
  next h => rw [h]; rfl
  next h => rw [h]; rfl
  next code w' h =>
    simp only [h, Run.bind_done]
    split
    · rfl
    · split
      next h' => rw [h']; rfl
      next h' => rw [h']; rfl
      next h' => simp only [h', Run.bind_done]

/-- A receiver between two records, with its root directory there, nothing to stop it and some of an
uncut stream left, behind which nothing comes for now. -/
structure Between (w : World) (d : DownloadDirectory) (left : Bytes) : Prop where
  downloadPath : w.rx.downloadPath = d.path
  isDirectory : w.fs.IsDirectory d.path d.loc
  toStop : w.rx.toStop = false
  pending : w.source.pending = left
  ending : w.source.ending = .silent
  cut : w.source.cut = Cut.whole

theorem Between.behind {w : World} {d : DownloadDirectory} {left : Bytes} (h : Between w d left)
    {s : Source UInt8} {n : ℕ} (hs : Behind w.source s n) :
    Between { w with source := s } d (left.drop n) :=
  ⟨h.downloadPath,h.isDirectory,h.toStop,by rw [hs.pending, h.pending],hs.ending.trans h.ending,
    hs.cut.trans h.cut⟩

variable {u : Umsgpack} {w : World} {d : DownloadDirectory} {item : DirItem} {rest : Bytes}

/-- A pair behind its length is read whole. -/
theorem recvParts_framed_pair {w : World} {dumped length rest : Bytes} {parent name : Value}
    (hd : u.loads dumped = some (.array [parent,name])) (hl : packUInt 4 dumped.length = some length)
    (hc : w.source.cut = Cut.whole) (hpend : w.source.pending = length ++ (dumped ++ rest))
    (hrest : rest ≠ []) :
    ∃ s, Behind w.source s (length ++ dumped).length ∧
      recvParts u w = .done (parent,name) { w with source := s } := by
  obtain ⟨s,hs,hr,hr'⟩ := recv_frame hl hc hpend hrest
  refine ⟨s,hs,?_⟩
  simp only [recvParts, Coro.bind_apply, hr, Run.bind_done, hr', hd, Value.unpack, Value.elements]
  rfl

/-- The names of an item are read whole. -/
theorem recvParts_frame (hp : DirSender.Packable u item) (hbs : '\\' ∉ item.name.chars)
    (h : Between w d (DirSender.frame u item ++ rest)) (hrest : rest ≠ []) :
    ∃ s, Between { w with source := s } d rest ∧
      recvParts u w = .done (.str (asPosix item.parentPath),.str item.name.chars)
        { w with source := s } := by
  obtain ⟨dumped,length,hd,hl⟩ := hp
  have hframe : DirSender.frame u item = length ++ dumped := by
    obtain ⟨_,rfl⟩ := packUInt_eq_some.mp hl
    simp [DirSender.frame, hd]
  have hname : item.name.chars.map (fun c => if c = '\\' then '_' else c) = item.name.chars := by
    rw [List.map_congr_left fun c hc => if_neg (by rintro rfl; exact hbs hc), List.map_id']
  have hload := u.loads_dumps hd
  rw [DirSender.codeParts, hname] at hload
  have hpend := h.pending
  rw [hframe, List.append_assoc] at hpend
  obtain ⟨s,hs,hr⟩ := recvParts_framed_pair hload hl h.cut hpend hrest
  refine ⟨s,?_,hr⟩
  have hb := h.behind hs
  rwa [hframe, List.drop_left] at hb

/-- Behind the tag of a record. -/
theorem between_tag (code : UInt8) (h : Between w d (code::rest)) :
    Between { w with source := w.source.advance 1 } d rest :=
  h.behind (n := 1) ⟨rfl,rfl,rfl⟩

theorem recvLoop_tagged {code : UInt8} (hc : code ≠ 0) (h : Between w d (code::rest)) :
    recvLoop u w = (step u [code] { w with source := w.source.advance 1 }).bind
      fun _ w' => recvLoop u w' := by
  rw [recvLoop_eq, shouldProceed_tag w _ _ h.toStop h.pending, if_neg hc, Run.bind_done,
    if_neg (by simp)]

theorem fullPath_item (d : DownloadDirectory) (item : DirItem) :
    fullPath d.path (.str (asPosix item.parentPath),.str item.name.chars) =
      .ok (d.path ++ item.path) := by
  rw [fullPath, join_asPosix _ item.parent_entry, item.name.entry.join_eq, List.append_assoc]
  rfl

theorem path_eq (d : DownloadDirectory) (item : DirItem) :
    d.path ++ item.path = d.path ++ item.parentPath ++ [item.name.chars] :=
  (List.append_assoc _ _ _).symm

/-- The place in the file system of the directory an item is in. -/
def parentLoc (d : DownloadDirectory) (item : DirItem) : Loc := item.parentPath.reverse ++ d.loc

theorem loc_eq (d : DownloadDirectory) (item : DirItem) :
    item.loc ++ d.loc = item.name.chars::parentLoc d item := by
  simp [DirItem.loc, DirItem.path, parentLoc]

/-- A directory's record, once its names are read. -/
theorem recvLoop_directory {parent : List FileName} {name : FileName}
    (hp : DirSender.Packable u (.directory parent name)) (hbs : '\\' ∉ name.chars)
    (h : Between w d (DirSender.record u (.directory parent name) ++ rest)) (hrest : rest ≠ []) :
    ∃ w', Between w' d rest ∧ w'.fs = w.fs ∧ w'.sent = w.sent ∧
      recvLoop u w = (onDisk (makeDirectories
        (d.path ++ (DirItem.directory parent name).path).reverse false) w').bind
          fun _ w'' => recvLoop u w'' := by
  obtain ⟨s,hs,hparts⟩ := recvParts_frame hp hbs (between_tag _ h) hrest
  refine ⟨_,hs,rfl,rfl,?_⟩
  have hstep : step u [2] { w with source := w.source.advance 1 } = onDisk (makeDirectories
      (d.path ++ (DirItem.directory parent name).path).reverse false) { w with source := s } := by
    have hne : ¬ ([2] : Bytes) = fileCode := by decide
    have heq : ([2] : Bytes) = pathCode := rfl
    have hroot : w.rx.downloadPath = d.path := h.downloadPath
    have hfull := fullPath_item d (.directory parent name)
    simp only [step, Coro.ite_apply, if_neg hne, if_pos heq, recvPath, Coro.bind_apply, hparts,
      Run.bind_done, Coro.get_apply, hroot, hfull, Coro.ofExcept_ok]
  rw [recvLoop_tagged (by decide) h, hstep]

theorem size_ne_nil (f : LocalFile) (xs : Bytes) : toNetworkOrder 8 f.size ++ xs ≠ [] := by
  rw [← List.length_pos_iff, List.length_append, toNetworkOrder_length]
  omega

/-- A file's record, once its header is read: the file is received and acknowledged. -/
theorem recvLoop_file {parent : List FileName} {f : LocalFile}
    (hp : DirSender.Packable u (.file parent f)) (hbs : '\\' ∉ f.name.chars)
    (h : Between w d (DirSender.record u (.file parent f) ++ rest)) :
    ∃ w', Between w' d (f.contents ++ rest) ∧ w'.fs = w.fs ∧ w'.sent = w.sent ∧
      recvLoop u w = (receiveItem (newItem (d.path ++ (DirItem.file parent f).parentPath)
        f.name.chars f.size 0) w').bind fun _ w'' =>
          recvLoop u { w'' with sent := w''.sent ++ fileCode } := by
  have htag : Between { w with source := w.source.advance 1 } d
      (DirSender.frame u (.file parent f) ++
        (toNetworkOrder 8 f.size ++ (f.contents ++ rest))) := by
    refine between_tag 1 ?_
    simpa [DirSender.record, fileCode] using h
  obtain ⟨s,hs,hparts⟩ := recvParts_frame hp hbs htag (size_ne_nil f _)
  have hr := recvFunc_whole (w := { w with source := s }) (toNetworkOrder 8 f.size) hs.cut hs.pending
    (by rw [hs.pending]; exact size_ne_nil f _)
  rw [toNetworkOrder_length] at hr
  have hsize := recvInt_of_recv hr (DirSender.packUInt_size f)
  set w' : World := { w with source := s.advance 8 } with hw'
  have hready : Between w' d (f.contents ++ rest) := by
    have hb := hs.behind (s := s.advance 8) (n := 8) ⟨rfl,rfl,rfl⟩
    rwa [List.drop_left' (toNetworkOrder_length 8 f.size)] at hb
  refine ⟨w',hready,rfl,rfl,?_⟩
  have hitem : recvFileItem u { w with source := w.source.advance 1 } =
      .done (newItem (d.path ++ (DirItem.file parent f).parentPath) f.name.chars f.size 0) w' := by
    have hpath : (d.path ++ (DirItem.file parent f).path).name = f.name.chars := by
      simp [Path.name, DirItem.path, DirItem.name]
    have hroot : w'.rx.downloadPath = d.path := hready.downloadPath
    have hfull := fullPath_item d (.file parent f)
    simp only [recvFileItem, Coro.bind_apply, hparts, Run.bind_done, Coro.tryCatch_apply, hsize,
      Run.handle_done, Coro.get_apply, hroot, hfull, Coro.ofExcept_ok, Coro.pure_apply, hpath]
    simp [newItem, DirItem.path, DirItem.name]
  have hstep : step u [1] { w with source := w.source.advance 1 } =
      (receiveItem (newItem (d.path ++ (DirItem.file parent f).parentPath) f.name.chars f.size 0)
        w').bind fun _ w'' => .done () { w'' with sent := w''.sent ++ fileCode } := by
    have heq : ([1] : Bytes) = fileCode := rfl
    simp only [step, Coro.ite_apply, if_pos heq, recvFileOnce, Coro.bind_apply, Coro.tryCatch_apply,
      hitem, Run.handle_done, Run.bind_done]
    rfl
  rw [recvLoop_tagged (by decide : (1 : UInt8) ≠ 0) (by simpa [DirSender.record, fileCode] using h), hstep]
  cases receiveItem _ w' <;> rfl

/-- The name an item is given in its directory. -/
def target (d : DownloadDirectory) (w : World) : DirItem → Name
  | .directory _ name => name.chars
  | .file _ f => if f.contents = [] then f.name.chars else validName w.fs d.path f.name.chars

/-- The acknowledgement of an item. -/
def ack : DirItem → Bytes
  | .directory _ _ => []
  | .file _ _ => fileCode

theorem target_entry (d : DownloadDirectory) (hd : w.fs.IsDirectory d.path d.loc)
    (item : DirItem) : Entry (target d w item) := by
  cases item with
  | directory parent name => exact name.entry
  | file parent f =>
    have hname := f.name.entry
    by_cases hc : f.contents = []
    · simpa only [target, if_pos hc] using hname
    · simpa only [target, if_neg hc] using
        (validName_free hd ⟨hname.no_slash,hname.no_nul⟩ hname.ne_dot).1

/-- A directory is made where its place is free. -/
theorem recvLoop_makes {parent : List FileName} {name : FileName}
    (hp : DirSender.Packable u (.directory parent name)) (hbs : '\\' ∉ name.chars)
    (h : Between w d (DirSender.record u (.directory parent name) ++ rest)) (hrest : rest ≠ [])
    {dir : Loc} (hdir : w.fs.IsDirectory (d.path ++ (DirItem.directory parent name).parentPath) dir)
    (hfree : w.fs.lookup (name.chars::dir) = none) :
    ∃ w', Between w' d rest ∧ w'.sent = w.sent ∧ Put w.fs w'.fs (name.chars::dir) .dir ∧
      recvLoop u w = recvLoop u w' := by
  obtain ⟨w₁,h₁,hfs,hsent,hrun⟩ := recvLoop_directory hp hbs h hrest
  obtain ⟨fs',hcreate,hput,_⟩ :=
    create_entry hdir name.entry.ne_dotdot name.entry.no_nul .dir hfree
  have hmake : onDisk (makeDirectories (d.path ++ (DirItem.directory parent name).path).reverse
      false) w₁ = .done () { w₁ with fs := fs' } := by
    have h : makeDirectories (d.path ++ (DirItem.directory parent name).parentPath ++
        [(DirItem.directory parent name).name.chars]).reverse false w.fs = _ :=
      makeDirectories_entry hcreate false
    rw [onDisk, Coro.zoom_apply, hfs, path_eq, h]
    rfl
  have hroot : fs'.IsDirectory d.path d.loc :=
    h.isDirectory.mono (hput.dirs (by rw [hfree]; simp))
  refine ⟨{ w₁ with fs := fs' },
    ⟨h₁.downloadPath,hroot,h₁.toStop,h₁.pending,h₁.ending,h₁.cut⟩,hsent,hput,?_⟩
  rw [hrun, hmake, Run.bind_done]

/-- An empty file is touched, whatever is in its place. -/
theorem recvLoop_touches {parent : List FileName} {f : LocalFile}
    (hp : DirSender.Packable u (.file parent f)) (hbs : '\\' ∉ f.name.chars)
    (h : Between w d (DirSender.record u (.file parent f) ++ rest)) (hc : f.contents = [])
    {dir : Loc} (hdir : w.fs.IsDirectory (d.path ++ (DirItem.file parent f).parentPath) dir) :
    ∃ w', Between w' d rest ∧ w'.sent = w.sent ++ fileCode ∧
      w'.fs.lookup (f.name.chars::dir) =
        some ((w.fs.lookup (f.name.chars::dir)).getD (.file [])) ∧
      (∀ l, l ≠ f.name.chars::dir → w'.fs.lookup l = w.fs.lookup l) ∧
      recvLoop u w = recvLoop u w' := by
  obtain ⟨w₁,h₁,hfs,hsent,hrun⟩ := recvLoop_file hp hbs h
  rw [← hfs] at hdir
  obtain ⟨fs',hhere,helse,hitem⟩ := receiveItem_touch hdir
    (newItem (d.path ++ (DirItem.file parent f).parentPath) f.name.chars f.size 0) rfl f.name.entry
    (by simp [newItem, LocalFile.size, hc, Value.atMostZero])
  rw [hfs] at hhere
  have helse : ∀ l, l ≠ f.name.chars::dir → fs'.lookup l = w.fs.lookup l := fun l hl => by
    rw [helse l hl, hfs]
  have hroot : fs'.IsDirectory d.path d.loc := h.isDirectory.mono fun l hl => by
    by_cases he : l = f.name.chars::dir
    · subst he
      rw [hhere, hl]
      rfl
    · rw [helse l he, hl]
  rw [hc, List.nil_append] at h₁
  refine ⟨{ w₁.append (newItem (d.path ++ (DirItem.file parent f).parentPath) f.name.chars f.size 0)
    with fs := fs', sent := w₁.sent ++ fileCode },
    ⟨h₁.downloadPath,hroot,h₁.toStop,h₁.pending,h₁.ending,h₁.cut⟩,by rw [← hsent],hhere,helse,?_⟩
  rw [hrun, hitem]
  rfl

/-- A file with contents is written under a name that is free in the root, where this is free in its
directory too. -/
theorem recvLoop_writes {parent : List FileName} {f : LocalFile}
    (hp : DirSender.Packable u (.file parent f)) (hbs : '\\' ∉ f.name.chars)
    (h : Between w d (DirSender.record u (.file parent f) ++ rest)) (hc : f.contents ≠ [])
    {dir : Loc} (hdir : w.fs.IsDirectory (d.path ++ (DirItem.file parent f).parentPath) dir)
    (hentry : Entry (validName w.fs d.path f.name.chars))
    (hfree : w.fs.lookup (validName w.fs d.path f.name.chars::dir) = none) :
    ∃ w', Between w' d rest ∧ w'.sent = w.sent ++ fileCode ∧
      Put w.fs w'.fs (validName w.fs d.path f.name.chars::dir) (.file f.contents) ∧
      recvLoop u w = recvLoop u w' := by
  obtain ⟨w₁,h₁,hfs,hsent,hrun⟩ := recvLoop_file hp hbs h
  rw [← hfs] at hdir
  obtain ⟨fs',s,hput,hs,hitem⟩ := receiveItem_contents hdir
    (by rw [h₁.downloadPath, hfs]) hentry (by rw [hfs]; exact hfree) hc f.size_le h₁.toStop
    h₁.pending
  rw [hfs] at hput
  have hroot : fs'.IsDirectory d.path d.loc :=
    h.isDirectory.mono (hput.dirs (by rw [hfree]; simp))
  have hb := h₁.behind hs
  rw [List.drop_left] at hb
  refine ⟨{ w₁ with
    fs := fs', source := s, sent := w₁.sent ++ fileCode
    rx := { w₁.rx with
      earlier := w₁.rx.fileItems
      currentFile := some (newItem (d.path ++ (DirItem.file parent f).parentPath)
        (validName w.fs d.path f.name.chars) f.size f.size) } },
    ⟨h₁.downloadPath,hroot,h₁.toStop,hb.pending,hb.ending,hb.cut⟩,by rw [← hsent],hput,?_⟩
  rw [hrun]
  exact congrArg (Run.bind · fun _ w'' => recvLoop u { w'' with sent := w''.sent ++ fileCode }) hitem

/-- An item whose place is free is put there. -/
theorem recvLoop_free (hp : DirSender.Packable u item) (hbs : '\\' ∉ item.name.chars)
    (h : Between w d (DirSender.record u item ++ rest)) (hrest : item.node = .dir → rest ≠ [])
    (hdir : w.fs.IsDirectory (d.path ++ item.parentPath) (parentLoc d item))
    (hfree : w.fs.lookup (target d w item::parentLoc d item) = none) :
    ∃ w', Between w' d rest ∧ w'.sent = w.sent ++ ack item ∧
      Put w.fs w'.fs (target d w item::parentLoc d item) item.node ∧
      recvLoop u w = recvLoop u w' := by
  cases item with
  | directory parent name =>
    obtain ⟨w',h',hsent,hput,hrun⟩ := recvLoop_makes hp hbs h (hrest rfl) hdir hfree
    exact ⟨w',h',by rw [hsent, ack, List.append_nil],hput,hrun⟩
  | file parent f =>
    by_cases hc : f.contents = []
    · have htarget : target d w (.file parent f) = f.name.chars := if_pos hc
      obtain ⟨w',h',hsent,hhere,helse,hrun⟩ := recvLoop_touches hp hbs h hc hdir
      rw [htarget] at hfree ⊢
      refine ⟨w',h',hsent,⟨?_,helse⟩,hrun⟩
      rw [hhere, hfree, DirItem.node, hc]
      rfl
    · have htarget : target d w (.file parent f) = validName w.fs d.path f.name.chars := if_neg hc
      have hentry := target_entry d h.isDirectory (.file parent f)
      rw [htarget] at hentry hfree ⊢
      exact recvLoop_writes hp hbs h hc hdir hentry hfree

/-- A file that would have to be written in place of something else is not received. -/
theorem receiveItem_taken {p : Path} {dir : Loc} {name new : Name} {n : ℕ} (hn : 0 < n)
    (hmax : (n:ℤ) ≤ maxOffset) (hdir : w.fs.IsDirectory p dir)
    (hnew : validName w.fs w.rx.downloadPath name = new) (hentry : Entry new)
    (htaken : w.fs.lookup (new::dir) ≠ none) :
    ∃ e w', receiveItem (newItem p name n 0) w = .raised e w' := by
  have hsize : (newItem p name n 0).size.atMostZero = some false := by
    simpa [newItem, Value.atMostZero] using hn.ne'
  have hrenamed : (newItem p name n 0).renamed
      (validName w.fs w.rx.downloadPath (newItem p name n 0).path.name) = newItem p new n 0 := by
    simp [FileItem.renamed, newItem, Path.parent, Path.name, hnew]
  have hstatus : statusSetup (newItem p name n 0).seeked (newItem p name n 0).size = .ok () :=
    statusSetup_int hmax 0
  rw [receiveItem_single (by simp [newItem]) hsize, hrenamed, hstatus, Coro.ofExcept_ok,
    Run.bind_done]
  have hcreate := create_existing (locate_taken hdir hentry.ne_dotdot hentry.no_nul htaken) (.file [])
  have hraise : recvFileContents (opened w w.fs (newItem p new n 0)) =
      .raised .fileExists (opened w w.fs (newItem p new n 0)) := by
    simp [recvFileContents, current, opened, newItem, Value.isPositive, Value.isZero, onDisk, hcreate,
      Exn.ofFsError]
  rw [hraise]
  exact finish_raised _ _

/-- An item whose place is taken ends the transfer, unless it is an empty file. -/
theorem recvLoop_taken (hp : DirSender.Packable u item) (hbs : '\\' ∉ item.name.chars)
    (h : Between w d (DirSender.record u item ++ rest)) (hrest : item.node = .dir → rest ≠ [])
    (hdir : w.fs.IsDirectory (d.path ++ item.parentPath) (parentLoc d item))
    (htaken : w.fs.lookup (target d w item::parentLoc d item) ≠ none) :
    (∃ e w', recvLoop u w = .raised e w') ∨
      item.node = .file [] ∧ ∃ w', Between w' d rest ∧ (∀ l, w'.fs.lookup l = w.fs.lookup l) ∧
        recvLoop u w = recvLoop u w' := by
  have hentry := target_entry d h.isDirectory item
  cases item with
  | directory parent name =>
    left
    obtain ⟨w₁,h₁,hfs,_,hrun⟩ := recvLoop_directory hp hbs h (hrest rfl)
    have hmake : makeDirectories (d.path ++ (DirItem.directory parent name).parentPath ++
        [(DirItem.directory parent name).name.chars]).reverse false w.fs = .raised .exists w.fs :=
      makeDirectories_existing
        (create_existing (locate_taken hdir hentry.ne_dotdot hentry.no_nul htaken) .dir)
    rw [hrun, onDisk, Coro.zoom_apply, hfs, path_eq, hmake]
    exact ⟨_,_,rfl⟩
  | file parent f =>
    by_cases hc : f.contents = []
    · right
      have htarget : target d w (.file parent f) = f.name.chars := if_pos hc
      obtain ⟨w',h',_,hhere,helse,hrun⟩ := recvLoop_touches hp hbs h hc hdir
      refine ⟨by rw [DirItem.node, hc],w',h',fun l => ?_,hrun⟩
      by_cases hl : l = f.name.chars::parentLoc d (.file parent f)
      · subst hl
        rw [htarget] at htaken
        obtain ⟨node,hnode⟩ := Option.ne_none_iff_exists'.mp htaken
        rw [hhere, hnode]
        rfl
      · exact helse l hl
    · left
      have htarget : target d w (.file parent f) = validName w.fs d.path f.name.chars := if_neg hc
      rw [htarget] at hentry htaken
      obtain ⟨w₁,h₁,hfs,_,hrun⟩ := recvLoop_file hp hbs h
      rw [← hfs] at hdir
      obtain ⟨e,w₂,hraise⟩ := receiveItem_taken
        (List.length_pos_iff.mpr hc) f.size_le hdir (by rw [h₁.downloadPath, hfs]) hentry
        (by rw [hfs]; exact htaken)
      exact ⟨e,w₂,by rw [hrun]; exact congrArg (Run.bind · fun _ w'' =>
        recvLoop u { w'' with sent := w''.sent ++ fileCode }) hraise⟩

end DirReceiver
end PeerConnect.Transfers
