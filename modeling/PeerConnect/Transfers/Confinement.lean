import PeerConnect.Transfers.Directory
import PeerConnect.Transfers.Touched
import PeerConnect.Transfers.Records

/-! Confinement: what a peer can send that names something on the receiver's disk, and when all that
comes of it lies in the download directory. -/
namespace PeerConnect.Transfers
open Library Wire FileSystem Coro

/-- A download directory, as its path is read from text. -/
structure DownloadRoot where
  path : Path
  proper : path.Proper
  noNul : path.hasNul = false

/-- A file header, a file or a directory of a directory transfer, and its handshake. -/
inductive Message
  | fileHeader (name : List Char) (size seeked : Value)
  | dirFile (parent name : List Char) (size : UInt64)
  | dirPath (parent name : List Char)
  | dirHandshake (dirName : List Char)

namespace DownloadRoot

def Contains (root : DownloadRoot) (l : Loc) : Prop := Inside (resolve root.path) l

/-- The receiver's download path is the root, and the root is there. -/
structure Receives (root : DownloadRoot) (w : World) : Prop where
  downloadPath : w.rx.downloadPath = root.path
  isDirectory : w.fs.IsDirectory root.path (resolve root.path)

/-- A place on the way to the root, which is there because the root is. -/
def OnTheWay (root : DownloadRoot) (l : Loc) : Prop := ∃ q, q <+: root.path ∧ l <:+ resolve q

/-- All that `mkdir` with `parents` may have to make for a path lies inside. -/
def MakesInside (root : DownloadRoot) (p : Path) : Prop :=
  p.hasNul = true ∨ ∀ q, q <+: p → root.Contains (resolve q) ∨ root.OnTheWay (resolve q)

theorem OnTheWay.dir {root : DownloadRoot} {fs : FileSystem} {l : Loc} (h : root.OnTheWay l)
    (hroot : fs.IsDirectory root.path (resolve root.path)) : fs.lookup l = some .dir := by
  obtain ⟨q,hq,hl⟩ := h
  have hd := hroot.prefix_dir hq
  by_cases he : l = resolve q
  · rwa [he]
  · exact fs.lookup_suffix_dir hl he hd

end DownloadRoot

/-- An item is touched inside, or opened in a directory inside, or nothing comes of it. -/
def FileItem.Stays (root : DownloadRoot) (item : FileItem) : Prop :=
  item.path.hasNul = true ∨
    match item.size.atMostZero with
    | none => True
    | some true => root.Contains (resolve item.path)
    | some false => statusSetup item.seeked item.size ≠ .ok () ∨ item.path = [] ∨
        root.Contains (resolve item.path.parent)

/-- The item of a file in a directory transfer. -/
def dirItem (p : Path) (size : ℕ) : FileItem := ⟨p.name,p,.int size,.int 0⟩

namespace Message

/-- The package can send the value behind a length of four bytes. -/
def Encodes (u : Umsgpack) (v : Value) : Prop := ∃ raw, u.loads raw = some v ∧ raw.length < 256^4

def Sendable (u : Umsgpack) : Message → Prop
  | fileHeader name size seeked => Encodes u (FileItem.header name size seeked)
  | dirFile parent name _ => Encodes u (.array [.str parent,.str name])
  | dirPath parent name => Encodes u (.array [.str parent,.str name])
  | dirHandshake _ => True

/-- Whenever the receiver reads the message, in whatever state and over whatever stream, each place
it creates, opens or touches on account of it lies in its download directory. -/
def Confined (u : Umsgpack) (root : DownloadRoot) : Message → Prop
  | fileHeader name size seeked => ∀ w w' item, root.Receives w →
      Receiver.recvFileItem u w = .done item w' → item.name = name → item.size = size →
      item.seeked = seeked → World.Adds root.Contains w (Receiver.recvFileOnce u w).state
  | dirFile parent name size => ∀ w w' w'', root.Receives w →
      DirReceiver.recvParts u w = .done (.str parent,.str name) w' →
      Receiver.recvInt 8 w' = .done size.toNat w'' →
      World.Adds root.Contains w (DirReceiver.step u DirReceiver.fileCode w).state
  | dirPath parent name => ∀ w w', root.Receives w →
      DirReceiver.recvParts u w = .done (.str parent,.str name) w' →
      World.Adds root.Contains w (DirReceiver.step u DirReceiver.pathCode w).state
  | dirHandshake dirName => ∀ fs, fs.IsDirectory root.path (resolve root.path) →
      FileSystem.Adds root.Contains fs (renameDirectoryWithIncrement root.path dirName fs).state

/-- What keeps a message inside, read off its names alone. -/
def Stays (root : DownloadRoot) : Message → Prop
  | fileHeader name size seeked => FileItem.Stays root ⟨name,root.path.join name,size,seeked⟩
  | dirFile parent name size =>
    (dirItem ((root.path.join parent).join name) size.toNat).Stays root
  | dirPath parent name => root.MakesInside ((root.path.join parent).join name)
  | dirHandshake dirName => (root.path.join dirName).hasNul = true ∨
      root.MakesInside (root.path.join dirName).parent ∧
        root.Contains (resolve (root.path.join dirName).parent)

end Message

/-- What reading alone leaves as it is. -/
structure Reads (w w' : World) : Prop where
  fs : w'.fs = w.fs
  rx : w'.rx = w.rx

instance : Std.Refl Reads := ⟨fun _ => ⟨rfl,rfl⟩⟩
theorem Reads.trans {w w' w'' : World} (h : Reads w w') (h' : Reads w' w'') : Reads w w'' :=
  ⟨h'.fs.trans h.fs,h'.rx.trans h.rx⟩

instance : IsTrans World Reads := ⟨fun _ _ _ => Reads.trans⟩

theorem Reads.receives {root : DownloadRoot} {w w' : World} (h : Reads w w')
    (hw : root.Receives w) : root.Receives w' :=
  ⟨by rw [h.rx]; exact hw.downloadPath,by rw [h.fs]; exact hw.isDirectory⟩

theorem reads_recvFunc (n : ℕ) : Moves Reads (Receiver.recvFunc n) := .zoom fun _ => ⟨rfl,rfl⟩

theorem reads_recvInt (width : ℕ) : Moves Reads (Receiver.recvInt width) := by
  refine .bind (.tryCatch (reads_recvFunc width) fun e => .ite (fun _ => .raise _)
    fun _ => .raise _) fun bytes => ?_
  split
  · exact .pure _
  · exact .raise _

theorem reads_recvFileItem (u : Umsgpack) : Moves Reads (Receiver.recvFileItem u) :=
  .bind (.tryCatch (reads_recvInt 4) fun _ => .ite (fun _ => .raise _) fun _ => .raise _)
    fun n => .bind (.tryCatch (reads_recvFunc n) fun _ => .ite (fun _ => .raise _)
      fun _ => .raise _) fun _ => .bind (.get _) fun _ => .ofExcept _

theorem reads_recvParts (u : Umsgpack) : Moves Reads (DirReceiver.recvParts u) := by
  refine .bind (reads_recvInt 4) fun n => .bind (reads_recvFunc n) fun data => ?_
  split
  · exact .raise _
  · split
    · exact .raise _
    · exact .pure _
    · exact .raise _

theorem Reads.of_done {α : Type} {x : Coro Exn World α} (hx : Moves Reads x) {w w' : World} {a : α}
    (h : x w = .done a w') : Reads w w' := by
  have := hx w
  rwa [h] at this

/-- The path of an item that has been read is its name, joined to the download path. -/
theorem recvFileItem_path {u : Umsgpack} {w w' : World} {item : FileItem}
    (h : Receiver.recvFileItem u w = .done item w') :
    item.path = w.rx.downloadPath.join item.name := by
  obtain ⟨n,t,hn,h⟩ := Run.bind_eq_done h
  have hn := tryCatch_done hn fun e t => by split <;> simp
  obtain ⟨raw,t',hraw,h⟩ := Run.bind_eq_done h
  have hraw := tryCatch_done hraw fun e t => by split <;> simp
  have hrx : t'.rx = w.rx :=
    (Reads.of_done (reads_recvFunc n) hraw).rx.trans (Reads.of_done (reads_recvInt 4) hn).rx
  cases hi : FileItem.loadFrom u raw t'.rx.downloadPath with
  | error e => simp [hi] at h
  | ok item' =>
    simp only [bind_apply, get_apply, Run.bind_done, hi, ofExcept_ok, Run.done.injEq] at h
    obtain ⟨rfl,_⟩ := h
    rw [FileItem.loadFrom_path hi, hrx]

/-- A path with a null character keeps one when its last component is renamed. -/
theorem renamed_hasNul (fs : FileSystem) (root : Path) {item : FileItem} (hp : item.path.Proper)
    (hn : item.path.hasNul = true) :
    (item.renamed (validName fs root item.path.name)).path.hasNul = true := by
  rcases List.eq_nil_or_concat item.path with he | ⟨q,c,he⟩
  · rw [he] at hn
    cases hn
  · rw [List.concat_eq_append] at he
    have hc : Component c := hp c (by rw [he]; simp)
    have hname : item.path.name = c := by simp [he, Path.name]
    have hparent : item.path.parent = q := by simp [he, Path.parent]
    simp only [FileItem.renamed, hname, hparent]
    simp only [he, Path.hasNul, List.any_append, Bool.or_eq_true] at hn ⊢
    refine hn.imp_right fun hnul => ?_
    -- no such path is there, so that the first name is kept
    have hfree : fs.pathExists (root.join c) = false := by
      have : Path.hasNul (root.join c) = true := by
        rw [hc.join_eq]
        simp only [Path.hasNul, List.any_append, Bool.or_eq_true]
        exact .inr hnul
      simp [pathExists, FileSystem.locate, this]
    have hkept : validName fs root c = c := by
      rw [validName, freeName, firstFree_of_free hfree]
      rfl
    rwa [hkept]

/-- An item that stays is received inside. -/
theorem receiveItem_confined {root : DownloadRoot} {w : World} {item : FileItem}
    (hw : root.Receives w) (hp : item.path.Proper) (h : item.Stays root) :
    World.Adds root.Contains w (Receiver.receiveItem item w).state := by
  refine (Receiver.receiveItem_adds w item).mono fun l hl => ?_
  unfold Receiver.Touches at hl
  unfold FileItem.Stays at h
  cases hs : item.size.atMostZero with
  | none => simp only [hs] at hl
  | some b =>
    cases b with
    | true =>
      simp only [hs] at hl h
      rw [hl.2]
      exact h.resolve_left (by simp [hl.1])
    | false =>
      simp only [hs, hw.downloadPath] at hl h
      obtain ⟨hstatus,hne,hl⟩ := hl
      have hnul : item.path.hasNul = false := by
        by_contra hn
        have := renamed_hasNul w.fs root.path hp (by simpa using hn)
        rw [hl.1] at this
        cases this
      have hmem := Path.name_mem hne
      obtain ⟨hentry,_⟩ := validName_free hw.isDirectory
        ⟨(hp _ hmem).no_slash,Path.not_mem_of_hasNul hnul hmem⟩ (hp _ hmem).ne_dot
      have hin : root.Contains (resolve item.path.parent) := by
        rcases h with h | h | h | h
        · rw [hnul] at h; cases h
        · exact absurd hstatus h
        · exact absurd h hne
        · exact h
      rw [Receiver.renamed_leadsTo hentry.ne_dotdot hl]
      exact hin.cons _

/-- Where all that may have to be made lies inside, that is what is made. -/
theorem makeDirectories_confined {root : DownloadRoot} {fs : FileSystem}
    (hroot : fs.IsDirectory root.path (resolve root.path)) {up : Path}
    (h : root.MakesInside up.reverse) (existOk : Bool) :
    FileSystem.Adds root.Contains fs (makeDirectories up existOk fs).state := by
  rcases h with hn | h
  · rw [makeDirectories_nul hn]
    exact .refl fs
  · refine (makeDirectories_grows up existOk fs).adds.mono fun l ⟨hnone,hl⟩ => ?_
    obtain ⟨q,hq,rfl⟩ := hl.resolve
    refine (h q hq).resolve_right fun hway => ?_
    rw [hway.dir hroot] at hnone
    cases hnone

end PeerConnect.Transfers
