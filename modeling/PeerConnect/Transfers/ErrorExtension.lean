import PeerConnect.Library.Rename
import PeerConnect.Transfers.FileItem

/-! The extension that marks the file of an item as erroneous, and taking it away again. -/
namespace PeerConnect.Transfers
open Library Wire

def ofRenameError : FileSystem.RenameError → Exn
  | .fs e => Exn.ofFsError e
  | .refused => .osError

/-- A file item with the extension that its file has had before. -/
structure MarkedItem extends FileItem where
  originalExt : Option Name := none

/-- An item, and the files. -/
structure ItemState where
  item : MarkedItem
  fs : FileSystem

namespace ItemState

def rename (newPath : Path) : Coro Exn ItemState Unit := fun s =>
  Coro.zoom ItemState.fs (fun fs s => { s with fs := fs }) ofRenameError
    (FileSystem.rename s.item.path newPath) s

def withSuffix (ext : Name) : Coro Exn ItemState Path := do
  let path ← Coro.get fun s => s.item.path
  match path.withSuffix ext with
  | some newPath => pure newPath
  | none => Coro.raise .valueError

def setName (name : Name) : Coro Exn ItemState Unit :=
  Coro.modify fun s => { s with item.name := name }

/-- The path is the one that the item has had before. -/
def addErrorExt (errorExt : Name) : Coro Exn ItemState Unit := do
  Coro.modify fun s => { s with item.originalExt := some (suffix s.item.path.name) }
  let newPath ← withSuffix errorExt
  rename newPath
  let path ← Coro.get fun s => s.item.path
  setName path.name

def removeErrorExt : Coro Exn ItemState Unit := do
  let originalExt ← Coro.get fun s => s.item.originalExt
  match originalExt with
  | none => Coro.raise .valueError
  | some ext => do
    let originalPath ← withSuffix ext
    let found ← Coro.get fun s => s.fs.pathExists originalPath
    if found then Coro.raise .fileExists
    else do
      rename originalPath
      setName originalPath.name

/-- The item names a file, and there is nothing under the name with the other extension. -/
structure Markable (errorExt : Name) (bs : Bytes) (s : ItemState) : Prop where
  file : s.fs.content s.item.path = some bs
  free : ∃ newPath l, s.item.path.withSuffix errorExt = some newPath ∧ s.fs.locate newPath = .ok (l,false)

/-- The extension is added, and the item names the renamed file. -/
def NamesRenamed (errorExt : Name) (bs : Bytes) (s : ItemState) : Prop :=
  ∃ s', addErrorExt errorExt s = .done () s' ∧ s.item.path.withSuffix errorExt = some s'.item.path ∧
    s'.fs.content s'.item.path = some bs

/-- The extension is added and taken away, and all is as before. -/
def Restores (errorExt : Name) (s : ItemState) : Prop :=
  ∃ s' s'', addErrorExt errorExt s = .done () s' ∧ removeErrorExt s' = .done () s'' ∧
    s''.item.path = s.item.path ∧ s''.item.name = s.item.name ∧ ∀ l, s''.fs.lookup l = s.fs.lookup l

section Runs
variable {errorExt : Name} {bs : Bytes} {s : ItemState}

/-- The file goes to the new name, and the path of the item leads nowhere. -/
theorem addErrorExt_done (h : Markable errorExt bs s) : ∃ s' newPath src dst,
    addErrorExt errorExt s = .done () s' ∧ s'.item.path = s.item.path ∧
      s.item.path.withSuffix errorExt = some newPath ∧ s.fs.locate newPath = .ok (dst,false) ∧
      FileSystem.Moved s.fs s'.fs src dst (.file bs) ∧ s'.fs.locate s'.item.path = .ok (src,false) := by
  obtain ⟨src,hsrc,hfile⟩ := FileSystem.content_eq_some h.file
  obtain ⟨newPath,dst,hnew,hfree⟩ := h.free
  obtain ⟨fs',hrename,hmoved⟩ := FileSystem.rename_file hsrc hfile hfree
  obtain ⟨_,_,_,_,_,hdst⟩ := FileSystem.locate_false hfree
  let item := { s.item with originalExt := some (suffix s.item.path.name), name := s.item.path.name }
  refine ⟨⟨item,fs'⟩,newPath,src,dst,?_,rfl,hnew,hfree,hmoved,hmoved.locate_src hfile hdst hsrc⟩
  simp only [addErrorExt, withSuffix, rename, setName, Coro.bind_apply, Coro.modify_apply, Run.bind_done,
    Coro.get_apply, hnew, Coro.pure_apply, Coro.zoom_apply, hrename, Run.within_done, item]

/-- There is nothing to rename where the path leads. -/
theorem removeErrorExt_raises {l : Loc} (h : s.fs.locate s.item.path = .ok (l,false)) :
    ∃ e s', removeErrorExt s = .raised e s' := by
  unfold removeErrorExt
  cases hext : s.item.originalExt with
  | none =>
    refine ⟨.valueError,s,?_⟩
    simp only [Coro.bind_apply, Coro.get_apply, Run.bind_done, hext, Coro.raise_apply]
  | some ext =>
    cases hpath : s.item.path.withSuffix ext with
    | none =>
      refine ⟨.valueError,s,?_⟩
      simp only [Coro.bind_apply, Coro.get_apply, Run.bind_done, hext, withSuffix, hpath, Coro.raise_apply,
        Run.bind_raised]
    | some originalPath =>
      cases hfound : s.fs.pathExists originalPath with
      | true =>
        refine ⟨.fileExists,s,?_⟩
        simp only [Coro.bind_apply, Coro.get_apply, Run.bind_done, hext, withSuffix, hpath, Coro.pure_apply,
          hfound, if_true, Coro.raise_apply]
      | false =>
        obtain ⟨e,hrename⟩ := FileSystem.rename_missing h originalPath
        refine ⟨ofRenameError e,s,?_⟩
        simp only [Coro.bind_apply, Coro.get_apply, Run.bind_done, hext, withSuffix, hpath, Coro.pure_apply,
          hfound, Bool.false_eq_true, if_false, rename, Coro.zoom_apply, hrename, Run.within_raised,
          Run.bind_raised]

theorem not_namesRenamed (h : Markable errorExt bs s) : ¬ NamesRenamed errorExt bs s := by
  rintro ⟨s₁,hrun,-,hcontent⟩
  obtain ⟨s',_,_,_,hadd,-,-,-,-,hlost⟩ := addErrorExt_done h
  rw [hadd] at hrun
  cases hrun
  obtain ⟨l,hl,-⟩ := FileSystem.content_eq_some hcontent
  rw [hlost] at hl
  cases hl

theorem not_restores (h : Markable errorExt bs s) : ¬ Restores errorExt s := by
  rintro ⟨s₁,s₂,hrun,hremove,-⟩
  obtain ⟨s',_,_,_,hadd,-,-,-,-,hlost⟩ := addErrorExt_done h
  rw [hadd] at hrun
  cases hrun
  obtain ⟨e,s₃,hraises⟩ := removeErrorExt_raises hlost
  rw [hraises] at hremove
  cases hremove

/-- Whatever the file and the extension are, the path of the item stays behind when the file is renamed,
and the old name does not come back. -/
theorem error_ext_never_round_trips (errorExt : Name) (bs : Bytes) (s : ItemState)
    (h : Markable errorExt bs s) : ¬ NamesRenamed errorExt bs s ∧ ¬ Restores errorExt s :=
  ⟨not_namesRenamed h,not_restores h⟩

end Runs

def dotError : Name := ".error".toList
def dTxt : Name := "d.txt".toList

/-- A file in the root. -/
def marked : ItemState where
  item := { name := dTxt, path := [dTxt], size := .int 1, seeked := .int 1 }
  fs := FileSystem.bare.add dTxt [] (.file [1]) FileSystem.bare.root_dir
    (Finmap.lookup_eq_none.mpr fun h => by cases (Finmap.mem_singleton _ _ _).mp h)

theorem markable_marked : Markable dotError [1] marked where
  file := by decide
  free := ⟨["d.error".toList],["d.error".toList],by decide⟩

theorem error_ext_not_round_trip_d : ¬ NamesRenamed dotError [1] marked ∧ ¬ Restores dotError marked :=
  error_ext_never_round_trips dotError [1] marked markable_marked

/-- Adding the extension to `d.txt`. -/
theorem error_ext_not_round_trip : ¬ (NamesRenamed dotError [1] marked ∧ Restores dotError marked) :=
  fun h => not_namesRenamed markable_marked h.1

end ItemState

end PeerConnect.Transfers
