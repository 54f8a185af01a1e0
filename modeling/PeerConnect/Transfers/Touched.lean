import PeerConnect.Transfers.Contents
import PeerConnect.Library.Changes

/-! What receiving one file item creates, opens and touches. -/
namespace PeerConnect.Transfers
open Library Wire FileSystem Coro

/-- Every place changed in between has the property. -/
def World.Adds (P : Loc → Prop) (w w' : World) : Prop := FileSystem.Adds P w.fs w'.fs

instance (P : Loc → Prop) : Std.Refl (World.Adds P) := ⟨fun w => FileSystem.Adds.refl w.fs⟩
instance (P : Loc → Prop) : IsTrans World (World.Adds P) := ⟨fun _ _ _ => FileSystem.Adds.trans⟩

namespace Receiver

variable {P : Loc → Prop} {w : World} {item : FileItem} {l : Loc}

theorem adds_recvFunc (n : ℕ) : Moves (World.Adds P) (recvFunc n) :=
  .zoom fun w => FileSystem.Adds.refl w.fs

theorem adds_handleException {α : Type} (e : Exn) :
    Moves (World.Adds P) (handleException e : Coro Exn World α) :=
  .ite (fun _ => .bind (.modify fun w => FileSystem.Adds.refl w.fs) fun _ => .raise _)
    fun _ => .raise _

theorem adds_current : Moves (World.Adds P) current := by
  intro w
  unfold current
  split <;> exact FileSystem.Adds.refl w.fs

theorem current_done {w' : World} (h : current w = .done item w') :
    w.rx.currentFile = some item ∧ w' = w := by
  unfold current at h
  split at h
  next hc =>
    simp only [Run.done.injEq] at h
    obtain ⟨rfl,rfl⟩ := h
    exact ⟨hc,rfl⟩
  · cases h

theorem adds_onDisk {α : Type} {x : Coro FsError FileSystem α}
    (hx : Moves (FileSystem.Adds P) x) : Moves (World.Adds P) (onDisk x) :=
  .zoom fun w => hx w.fs

/-- Writing into an open file opens nothing. -/
theorem adds_contentLoop (l : Loc) (chunkSize position : ℕ) (remainingBytes : ℤ) :
    Moves (World.Adds P) (contentLoop l chunkSize position remainingBytes) :=
  moves_contentLoop adds_recvFunc (fun _ _ _ => .of_eq (writeAt_changed _ _ _ _)) _ _ _

theorem adds_finish {r : Run Exn World Unit} (h : World.Adds P w r.state) :
    World.Adds P w (finish r).state :=
  Moves.bind_at (x := Coro.tryCatch (fun _ => r) handleException)
    (Moves.tryCatch_at h adds_handleException) fun _ t _ =>
      (Moves.bind adds_current fun _ => .bind (.get _) fun _ =>
        .ite (fun _ => .ite (fun _ => .pure _) fun _ => .raise _) fun _ => .pure _ :
        Moves (World.Adds P) _) t

theorem recvFileContents_adds (hcur : w.rx.currentFile = some item) :
    World.Adds (LeadsTo item.path) w (recvFileContents w).state := by
  refine Moves.bind_at (adds_current w) fun a t h => ?_
  obtain ⟨ha,rfl⟩ := current_done h
  obtain rfl := Option.some.inj (hcur.symm.trans ha)
  have hopen : Moves (FileSystem.Adds (LeadsTo item.path)) (if item.seeked.isZero
      then create item.path (.file []) else openExisting item.path) :=
    .ite (fun _ => create_adds _ _) fun _ => openExisting_adds _
  exact (Moves.bind (.get _) fun _ => .ite (fun _ => .raise _) fun _ => .ite (fun _ => .raise _)
    fun _ => .bind (adds_onDisk hopen) fun l => .bind (.ofExcept _) fun _ =>
      adds_contentLoop l _ _ _ : Moves (World.Adds (LeadsTo item.path)) _) t

/-- Where receiving an item can create, open or touch something. -/
def Touches (w : World) (item : FileItem) (l : Loc) : Prop :=
  match item.size.atMostZero with
  | none => False
  | some true => LeadsTo item.path l
  | some false => statusSetup item.seeked item.size = .ok () ∧ item.path ≠ [] ∧
      LeadsTo (item.renamed (validName w.fs w.rx.downloadPath item.path.name)).path l

theorem receiveItem_adds (w : World) (item : FileItem) :
    World.Adds (Touches w item) w (receiveItem item w).state := by
  cases hs : item.size.atMostZero with
  | none =>
    simp only [receiveItem, hs, bind_apply, modify_apply, Run.bind_done]
    exact FileSystem.Adds.refl w.fs
  | some b =>
    cases b with
    | true =>
      simp only [receiveItem, hs, bind_apply, modify_apply, Run.bind_done]
      refine (adds_onDisk (touch_adds item.path) (w.append item)).mono fun l hl => ?_
      simpa only [Touches, hs] using hl
    | false =>
      by_cases hne : item.path = []
      · simp [receiveItem, hs, receiveSingleFile, validatename, current, World.append, hne,
          Path.withName]
        exact FileSystem.Adds.refl w.fs
      · rw [receiveItem_single hne hs]
        cases hstatus : statusSetup item.seeked item.size with
        | error e => exact FileSystem.Adds.refl w.fs
        | ok _ =>
          rw [ofExcept_ok, Run.bind_done]
          set renamed := item.renamed (validName w.fs w.rx.downloadPath item.path.name) with hren
          refine (adds_finish (w := opened w w.fs renamed)
            (recvFileContents_adds (rfl : _ = some renamed))).mono fun l hl => ?_
          simpa only [Touches, hs, ← hren] using ⟨hstatus,hne,hl⟩

/-- The place a renamed item leads to, next to the one it had. -/
theorem renamed_leadsTo {n : Name} (hn : n ≠ dotdot) (h : LeadsTo (item.renamed n).path l) :
    l = n::resolve item.path.parent := by
  rw [h.2, FileItem.renamed, resolve_concat, descend_of_ne _ hn]

theorem statusSetup_isPositive {initialLimit finalLimit : Value}
    (h : statusSetup initialLimit finalLimit = .ok ()) : initialLimit.isPositive ≠ none := by
  unfold statusSetup at h
  split at h
  · cases h
  · split at h
    · cases h
    · split at h
      · simp [Value.isPositive]
      · simp [Value.isPositive]
      · simp [Value.isPositive]
      · cases h
      · cases h

theorem isPositive_isZero {v : Value} (h : v.isPositive = some true) : v.isZero = false := by
  cases v with
  | int n => simpa [Value.isPositive, Value.isZero] using (by simpa [Value.isPositive] using h : 0 < n).ne'
  | bool b => simpa [Value.isPositive, Value.isZero] using h
  | float x => cases x <;> simp_all [Value.isPositive, Value.isZero, ne_of_gt]
  | _ => simp [Value.isZero]

/-- A file that the offset of the item lets the receiver open. -/
def Openable (fs : FileSystem) (p : Path) (seeked : Value) (l : Loc) : Prop :=
  if seeked.isZero then
    ∃ fs', create p (.file []) fs = .done l fs' ∧ fs'.changed = l::fs.changed
  else fs.locate p = .ok (l,true) ∧ ∃ old, fs.lookup l = some (.file old)

theorem recvFileContents_reaches (hcur : w.rx.currentFile = some item)
    (hstatus : statusSetup item.seeked item.size = .ok ())
    (hopen : Openable w.fs item.path item.seeked l) :
    Reaches l w.fs (recvFileContents w).state.fs := by
  have hpos := statusSetup_isPositive hstatus
  have hfound : ¬ (item.seeked.isPositive = some true ∧ w.fs.pathExists item.path = false) := by
    rintro ⟨hp,hf⟩
    simp only [Openable, isPositive_isZero hp, Bool.false_eq_true, if_false] at hopen
    simp [pathExists, hopen.1] at hf
  -- the file is opened, whatever happens to it afterwards
  have hopened : ∃ w', onDisk (if item.seeked.isZero then create item.path (.file [])
      else openExisting item.path) w = .done l w' ∧ w'.fs.changed = l::w.fs.changed := by
    unfold Openable at hopen
    split at hopen
    next hz =>
      obtain ⟨fs',hc,hch⟩ := hopen
      exact ⟨{ w with fs := fs' },by simp [onDisk, hz, hc],hch⟩
    next hz =>
      obtain ⟨hloc,old,hold⟩ := hopen
      exact ⟨{ w with fs := w.fs.note l },by simp [onDisk, hz, openExisting, hloc, hold],rfl⟩
  obtain ⟨w',hw',hch⟩ := hopened
  have hrun : recvFileContents w = ((do
      let position ← Coro.ofExcept (seek item.seeked)
      contentLoop l (calculateChunkSize (item.size.int?.getD 0)) position
        (item.size.int?.getD 0-position) : Coro Exn World Unit)) w' := by
    simp only [recvFileContents, Coro.bind_apply, current, hcur, Run.bind_done, Coro.get_apply,
      Coro.ite_apply, if_neg hpos, if_neg hfound, hw']
  rw [hrun]
  exact (Reaches.one hch).before ((Moves.bind (.ofExcept _) fun _ =>
    adds_contentLoop l _ _ _ : Moves (World.Adds fun _ => True) _) w')

/-- A non-empty item whose file can be opened is opened. -/
theorem receiveItem_reaches (hne : item.path ≠ []) (hsize : item.size.atMostZero = some false)
    (hstatus : statusSetup item.seeked item.size = .ok ())
    (hopen : Openable w.fs
      (item.renamed (validName w.fs w.rx.downloadPath item.path.name)).path item.seeked l) :
    Reaches l w.fs (receiveItem item w).state.fs := by
  rw [receiveItem_single hne hsize, hstatus, ofExcept_ok, Run.bind_done]
  set renamed := item.renamed (validName w.fs w.rx.downloadPath item.path.name)
  obtain ⟨news,hn,hl⟩ := recvFileContents_reaches (w := opened w w.fs renamed) rfl
    hstatus hopen
  have hfin := adds_finish (P := fun _ => True) (w := (recvFileContents (opened w w.fs renamed)).state)
    (r := recvFileContents (opened w w.fs renamed)) (FileSystem.Adds.refl _)
  exact Reaches.before ⟨news,hn,hl⟩ hfin

/-- An empty item is touched wherever its path leads. -/
theorem receiveItem_touches (hsize : item.size.atMostZero = some true)
    (hloc : w.fs.locate item.path = .ok (l,true)) :
    Reaches l w.fs (receiveItem item w).state.fs := by
  refine Reaches.one ?_
  simp [receiveItem, hsize, onDisk, touch, hloc]

end Receiver
end PeerConnect.Transfers
