import PeerConnect.Transfers.ReceivingTask
import PeerConnect.Transfers.Resume
import PeerConnect.Library.Run

/-! Many runs of `recv_files` that share one directory and go on in any order: none overwrites what is
there. -/
namespace PeerConnect.Transfers
open Library Wire FileSystem Receiver

/-- A run of `recv_files` with its receiver and what its connection has. -/
structure Download where
  rx : Receiver
  source : Source UInt8
  sent : Bytes
  stage : RecvStage

/-- A file that has been opened for its contents, and whether there was something where it is. -/
structure Acceptance where
  path : Path
  existed : Bool

structure Downloads where
  fs : FileSystem
  tasks : ℕ → Download
  accepted : List Acceptance := []

/-- A receiver begins, gets its connection, goes on with what the connection has, or something is
raised where it waits. -/
inductive DownloadEvent
  | recvFiles (i : ℕ)
  | connectionMade (i : ℕ)
  | goOn (i : ℕ) (s : Source UInt8)
  | raised (i : ℕ) (x : Raised)

def RecvPoint.location? : RecvPoint → Option Loc
  | contents _ r | writing _ r _ | yielded _ r => some r.location
  | _ => none

def Download.world (t : Download) (fs : FileSystem) : World := ⟨t.rx,fs,t.source,t.sent⟩

/-- What a step opens: a file whose header has led to its contents. -/
def acceptance (fs : FileSystem) (p : RecvPoint) (run : Run Exn World (Option RecvPoint)) :
    List Acceptance :=
  match p, run with
  | .header _, .done (some (.contents _ _)) w =>
    (w.rx.currentFile.map fun item => ⟨item.path,fs.pathExists item.path⟩).toList
  | _, _ => []

/-- The disk is as it was, but for times. -/
def SameDisk (w w' : World) : Prop := w'.fs = w.fs

instance : Std.Refl SameDisk := ⟨fun _ => rfl⟩
instance : IsTrans World SameDisk := ⟨fun _ _ _ h h' => h'.trans h⟩

section SameDisk
open Coro

theorem sameDisk_recvFunc (n : ℕ) : Moves SameDisk (recvFunc n) := .zoom fun _ => rfl

theorem sameDisk_current : Moves SameDisk current := by
  intro w
  unfold current
  split <;> rfl

theorem sameDisk_handleException {α : Type} (e : Exn) :
    Moves SameDisk (Receiver.handleException e : Coro Exn World α) :=
  .ite (fun _ => .bind (.modify fun _ => rfl) fun _ => .raise _) fun _ => .raise _

theorem sameDisk_recvInt (width : ℕ) : Moves SameDisk (recvInt width) := by
  refine .bind (.tryCatch (sameDisk_recvFunc width) fun e => .ite (fun _ => .raise _)
    fun _ => .raise _) fun bytes => ?_
  split
  · exact .pure _
  · exact .raise _

theorem sameDisk_recvHeader (u : Umsgpack) (n : ℕ) : Moves SameDisk (Task.recvHeader u n) :=
  .bind (.tryCatch (sameDisk_recvFunc n) fun _ => .raise _) fun _ => .bind (.get _) fun _ =>
    .ofExcept _

theorem sameDisk_nextFile (continued : Bool) : Moves SameDisk (Task.nextFile continued) :=
  .bind (.get _) fun _ => .ite (fun _ => .pure _) fun _ => .ite
    (fun _ => .bind (.modify fun _ => rfl) fun _ => .pure _) fun _ => .pure _

theorem sameDisk_awaitConnection {p : RecvPoint} {x : Coro Exn World (Option RecvPoint)}
    (hx : Moves SameDisk x) : Moves SameDisk (Task.awaitConnection p x) :=
  .bind (.get _) fun _ => .ite (fun _ => hx) fun _ => .pure _

theorem sameDisk_connected : Moves SameDisk Task.connected :=
  .bind (.modify fun _ => rfl) fun _ => sameDisk_nextFile false

theorem sameDisk_tellSeeked : Moves SameDisk Task.tellSeeked :=
  .bind (.tryCatch (.bind sameDisk_current fun _ => .ofExcept _) sameDisk_handleException) fun _ =>
    .pure _

theorem sameDisk_endOfContents (continued : Bool) : Moves SameDisk (Task.endOfContents continued) :=
  .bind sameDisk_current fun _ => .bind (.get _) fun _ => .ite (fun _ => .raise _) fun _ =>
    sameDisk_nextFile continued

theorem sameDisk_nextChunk (continued : Bool) (index : ℕ) (r : Reception) :
    Moves SameDisk (Task.nextChunk continued index r) :=
  .ite (fun _ => .pure _) fun _ => sameDisk_endOfContents continued

end SameDisk

/-- The next point is at the file that is open already, or at none. -/
def Stays (p : RecvPoint) (q : Option RecvPoint) : Prop :=
  ∀ q' ∈ q, ∀ l ∈ q'.location?, l ∈ p.location?

section Stays
open Coro
variable {p : RecvPoint}

theorem stays_none {q : RecvPoint} (h : q.location? = none) : Stays p (some q) := by
  intro q' hq l hl
  obtain rfl := Option.some.inj hq
  rw [h] at hl
  cases hl

theorem stays_nextFile (continued : Bool) : Returns (Stays p) (Task.nextFile continued) :=
  .bind fun _ => .ite (fun _ => .pure (stays_none rfl)) fun _ => .ite
    (fun _ => .bind fun _ => .pure nofun) fun _ => .pure (stays_none rfl)

theorem stays_awaitConnection {x : Coro Exn World (Option RecvPoint)} {q : RecvPoint}
    (hq : q.location? = none) (hx : Returns (Stays p) x) :
    Returns (Stays p) (Task.awaitConnection q x) :=
  .bind fun _ => .ite (fun _ => hx) fun _ => .pure (stays_none hq)

theorem stays_endOfContents (continued : Bool) : Returns (Stays p) (Task.endOfContents continued) :=
  .bind fun _ => .bind fun _ => .ite (fun _ => .raise _) fun _ => stays_nextFile continued

theorem stays_nextChunk {continued : Bool} {index : ℕ} {r : Reception}
    (hp : p.location? = some r.location) : Returns (Stays p) (Task.nextChunk continued index r) := by
  refine .ite (fun _ => .pure ?_) fun _ => stays_endOfContents continued
  intro q' hq l hl
  obtain rfl := Option.some.inj hq
  exact hp.trans hl

end Stays

/-- What a step does to the disk: it changes what was not there or is open, and opens what was not
there. -/
structure Effect (fs : FileSystem) (p : RecvPoint) (run : Run Exn World (Option RecvPoint)) : Prop where
  keeps : Retains fs run.state.fs
  same : ∀ l, run.state.fs.lookup l ≠ fs.lookup l → fs.lookup l = none ∨ p.location? = some l
  next : ∀ q w, run = .done (some q) w → ∀ l ∈ q.location?, fs.lookup l = none ∨ p.location? = some l
  accepted : ∀ a ∈ acceptance fs p run, a.existed = false ∧ fs.pathExists a.path = false ∧
    run.state.fs.pathExists a.path = true

theorem acceptance_of_ne {fs : FileSystem} {p : RecvPoint} (hp : ∀ n, p ≠ .header n)
    (run : Run Exn World (Option RecvPoint)) : acceptance fs p run = [] := by
  unfold acceptance
  split
  next n _ _ _ => exact absurd rfl (hp n)
  · rfl

theorem acceptance_length (fs : FileSystem) (p : RecvPoint) (run : Run Exn World (Option RecvPoint)) :
    (acceptance fs p run).length ≤ 1 := by
  unfold acceptance
  split
  next w => cases w.rx.currentFile <;> simp
  next => simp

section Effect
variable {w : World} {p : RecvPoint} {item : FileItem} {n : ℕ}

/-- Nothing happens to the disk. -/
theorem Effect.of_same {fs : FileSystem} {run : Run Exn World (Option RecvPoint)}
    (hfs : ∀ l, run.state.fs.lookup l = fs.lookup l) (hnext : ∀ q w, run = .done q w → Stays p q)
    (hacc : acceptance fs p run = []) : Effect fs p run where
  keeps := .of_eq hfs
  same l hl := absurd (hfs l) hl
  next q w hq l hl := .inr (hnext _ w hq q rfl l hl)
  accepted := by rw [hacc]; nofun

theorem effect_still {x : Coro Exn World (Option RecvPoint)} (hp : ∀ n, p ≠ .header n)
    (hx : Coro.Moves SameDisk x) (hs : Coro.Returns (Stays p) x) : Effect w.fs p (x w) :=
  .of_same (fun l => by rw [hx w]) (fun q w' hq => hs w q w' hq) (acceptance_of_ne hp _)

/-- A file that is not there has been made, or nothing has. -/
def Made (fs fs' : FileSystem) : Prop :=
  (∀ l, fs'.lookup l = fs.lookup l) ∨ ∃ l, fs.lookup l = none ∧ Put fs fs' l (.file [])

theorem Made.keeps {fs fs' : FileSystem} (h : Made fs fs') : Retains fs fs' := by
  rcases h with h | ⟨l,hnone,hput⟩
  · exact .of_eq h
  · exact hput.keeps (by rw [hnone]; simp)

theorem Made.same {fs fs' : FileSystem} (h : Made fs fs') {l : Loc}
    (hl : fs'.lookup l ≠ fs.lookup l) : fs.lookup l = none := by
  rcases h with h | ⟨l',hnone,hput⟩
  · exact absurd (h l) hl
  · by_cases he : l = l'
    · rwa [he]
    · exact absurd (hput.elsewhere l he) hl

/-- A step that makes a file at most, and opens none but that. -/
theorem Effect.of_made {fs : FileSystem} {run : Run Exn World (Option RecvPoint)}
    (h : Made fs run.state.fs)
    (hnext : ∀ q w, run = .done (some q) w → ∀ l ∈ q.location?, fs.lookup l = none)
    (hacc : ∀ a ∈ acceptance fs p run, a.existed = false ∧ fs.pathExists a.path = false ∧
      run.state.fs.pathExists a.path = true) : Effect fs p run where
  keeps := h.keeps
  same _ hl := .inl (h.same hl)
  next q w hq l hl := .inl (hnext q w hq l hl)
  accepted := hacc

/-- Where nothing is at the path of an item, setting up its transfer makes the file or fails. -/
theorem setupTransfer_new (chunkSize : ℕ) (hcur : w.rx.currentFile = some item)
    (hmissing : w.fs.pathExists item.path = false) :
    Made w.fs (setupTransfer chunkSize w).state.fs ∧
      ∀ r w', setupTransfer chunkSize w = .done r w' →
        w.fs.lookup r.location = none ∧ w'.fs.pathExists item.path = true := by
  have hopen : ∀ run, onDisk (if item.seeked.isZero then FileSystem.create item.path (.file [])
      else FileSystem.openExisting item.path) w = run →
      Made w.fs run.state.fs ∧ ∀ l w', run = .done l w' →
        w.fs.lookup l = none ∧ w'.fs.pathExists item.path = true := by
    rintro _ rfl
    split
    · rcases create_cases item.path (.file []) w.fs with ⟨l,fs,hr,_⟩ | ⟨e,hr⟩
      · obtain ⟨_,hnone,hput,hexists⟩ := create_done hr
        simp only [onDisk, Coro.zoom_apply, hr, Run.within_done]
        refine ⟨.inr ⟨l,hnone,hput⟩,fun l' w' h => ?_⟩
        cases h
        exact ⟨hnone,hexists⟩
      · simp only [onDisk, Coro.zoom_apply, hr, Run.within_raised]
        exact ⟨.inl fun _ => rfl,fun _ _ h => by cases h⟩
    · obtain ⟨e,hr⟩ := openExisting_missing hmissing
      simp only [onDisk, Coro.zoom_apply, hr, Run.within_raised]
      exact ⟨.inl fun _ => rfl,fun _ _ h => by cases h⟩
  refine ⟨?_,fun r w' hr => ?_⟩
  · simp only [setupTransfer, Coro.bind_apply, Task.current_apply hcur, Run.bind_done, Coro.get_apply,
      Coro.ite_apply]
    split
    · exact .inl fun _ => rfl
    · split
      · exact .inl fun _ => rfl
      · have hstate := Coro.state_bind (x := onDisk (if item.seeked.isZero
            then FileSystem.create item.path (.file []) else FileSystem.openExisting item.path))
          (f := fun l => do
            let position ← Coro.ofExcept (seek item.seeked)
            pure (⟨l,if chunkSize = 0 then calculateChunkSize (item.size.int?.getD 0) else chunkSize,
              item.size.int?.getD 0,position,item.size.int?.getD 0-position⟩ : Reception))
          (fun l t => by cases hs : seek item.seeked <;> simp) w
        have := (hopen _ rfl).1
        rw [← hstate] at this
        exact this
  · obtain ⟨item',hcur',hdisk,_⟩ := Task.setupTransfer_done hr
    obtain rfl : item = item' := Option.some.inj (hcur.symm.trans hcur')
    exact (hopen _ hdisk).2 _ _ rfl

/-- A step that leads to no open file accepts none. -/
theorem acceptance_of_closed {fs : FileSystem} {run : Run Exn World (Option RecvPoint)}
    (h : ∀ q w, run = .done (some q) w → q.location? = none) : acceptance fs p run = [] := by
  unfold acceptance
  split
  next w => cases h _ w rfl
  next => rfl

theorem nextFile_closed {continued : Bool} :
    ∀ q w', Task.nextFile continued w = .done (some q) w' → q.location? = none := by
  intro q w' h
  cases hl : q.location? with
  | none => rfl
  | some l => cases stays_nextFile (p := .tag) continued w _ w' h q rfl l hl

/-- What fails has opened nothing. -/
theorem effect_failed {fs : FileSystem} (h : Made fs w.fs) (e : Exn) : Effect fs p (.raised e w) :=
  .of_made h (fun q w' hq => by cases hq) (by
    rw [acceptance_of_closed fun q w' hq => by cases hq]
    nofun)

theorem effect_blocked {fs : FileSystem} (h : Made fs w.fs) : Effect fs p (.blocked w) :=
  .of_made h (fun q w' hq => by cases hq) (by
    rw [acceptance_of_closed fun q w' hq => by cases hq]
    nofun)

/-- Behind what makes a file at most, the next file is waited for. -/
theorem effect_nextFile {fs : FileSystem} (h : Made fs w.fs) :
    Effect fs p (Task.nextFile false w) := by
  have hfs : (Task.nextFile false w).state.fs = w.fs := sameDisk_nextFile false w
  refine .of_made (by rwa [hfs]) (fun q w' hq l hl => ?_) ?_
  · rw [nextFile_closed q w' hq] at hl
    cases hl
  · rw [acceptance_of_closed nextFile_closed]
    nofun

/-- The path that a plain name is given is free. -/
theorem validated_missing {name : Name} (hname : Plain name)
    (hpath : item.path = w.rx.downloadPath.join name) :
    item.path ≠ [] ∧ w.fs.pathExists (Task.validated w item).path = false := by
  rw [hname.component.join_eq] at hpath
  obtain ⟨hcomponent,hfree,_⟩ := validName_first w.fs w.rx.downloadPath hname
  rw [hcomponent.join_eq] at hfree
  refine ⟨by simp [hpath],?_⟩
  simpa [Task.validated, FileItem.renamed, hpath, Path.parent, Path.name] using hfree

theorem effect_nextChunk {fs : FileSystem} {index : ℕ} {r : Reception} (h : Made fs w.fs)
    (hcur : w.rx.currentFile = some item) (hloc : fs.lookup r.location = none)
    (hmissing : fs.pathExists item.path = false) (hexists : w.fs.pathExists item.path = true) :
    Effect fs (.header n) (Task.nextChunk false index r w) := by
  unfold Task.nextChunk
  rw [Coro.ite_apply]
  split
  · refine .of_made h (fun q w' hq l hl => ?_) fun a ha => ?_
    · cases hq
      cases hl
      exact hloc
    · obtain rfl : a = ⟨item.path,fs.pathExists item.path⟩ := by
        simpa [acceptance, hcur] using ha
      exact ⟨hmissing,hmissing,hexists⟩
  · rw [Task.endOfContents_apply false hcur]
    split
    · exact effect_failed h _
    · exact effect_nextFile h

theorem effect_receiveItem {name : Name} (hname : Plain name)
    (hpath : item.path = w.rx.downloadPath.join name) :
    Effect w.fs (.header n) (Task.receiveItem false item w) := by
  obtain ⟨hne,hmissing⟩ := validated_missing (w := w) hname hpath
  cases hsize : item.size.atMostZero with
  | none =>
    rw [Task.receiveItem_unordered false hsize]
    exact effect_failed (w := w.append item) (.inl fun _ => rfl) _
  | some empty =>
    cases empty with
    | true =>
      rw [Task.receiveItem_empty false hsize, onDisk, Coro.zoom_apply]
      have htouch : Made w.fs (FileSystem.touch item.path w.fs).state := touch_cases item.path w.fs
      rw [World.append_fs]
      cases hr : FileSystem.touch item.path w.fs with
      | done _ fs =>
        rw [hr] at htouch
        exact effect_nextFile (w := { w.append item with fs := fs }) htouch
      | raised e fs =>
        rw [hr] at htouch
        exact effect_failed (w := { w.append item with fs := fs }) htouch _
      | blocked fs =>
        rw [hr] at htouch
        exact effect_blocked (w := { w.append item with fs := fs }) htouch
    | false =>
      rw [Task.receiveItem_named false hsize hne]
      cases statusSetup item.seeked item.size with
      | error e => exact effect_failed (w := w.append (Task.validated w item)) (.inl fun _ => rfl) e
      | ok _ =>
        rw [Coro.ofExcept_ok, Run.bind_done]
        set w₁ := w.append (Task.validated w item) with hw₁
        obtain ⟨hmade,hdone⟩ := setupTransfer_new (w := w₁) 0 rfl hmissing
        rw [Coro.tryCatch_apply]
        cases hr : setupTransfer 0 w₁ with
        | done r w' =>
          obtain ⟨hloc,hexists⟩ := hdone r w' hr
          rw [hr] at hmade
          have hrx : w'.rx = w₁.rx := by
            have := Task.sameHandle_setupTransfer 0 w₁
            rwa [hr] at this
          exact effect_nextChunk hmade (by rw [hrx]; rfl) hloc hmissing hexists
        | raised e w' =>
          rw [hr] at hmade
          rw [Run.handle_raised]
          cases he : (Raised.exception e).pauses with
          | true =>
            rw [Task.handleException_paused he]
            exact effect_failed (w := w'.setState .paused) hmade _
          | false =>
            rw [Task.handleException_raised he]
            exact effect_failed hmade _
        | blocked w' =>
          rw [hr] at hmade
          exact effect_blocked hmade

theorem recvHeader_done {u : Umsgpack} {w' : World} (h : Task.recvHeader u n w = .done item w') :
    item.path = w.rx.downloadPath.join item.name := by
  have hrx := Task.sameHandle_recvFunc n w
  obtain ⟨raw,w₁,hraw,hrest⟩ := Run.bind_eq_done h
  have hrecv := Coro.tryCatch_done hraw fun e t => nofun
  rw [hrecv] at hrx
  dsimp only at hrest
  rw [Coro.bind_apply, Coro.get_apply, Run.bind_done, show w₁.rx = w.rx from hrx] at hrest
  cases hload : FileItem.loadFrom u raw w.rx.downloadPath with
  | error e => rw [hload] at hrest; cases hrest
  | ok item' =>
    rw [hload] at hrest
    cases hrest
    unfold FileItem.loadFrom at hload
    split at hload
    · cases hload
    · split at hload
      · cases hload
      · cases hload; rfl
      · cases hload

theorem effect_goOn {u : Umsgpack} (hplain : ∀ item ∈ Task.header? u w p, Plain item.name) :
    Effect w.fs p (Task.goOn u false p w) := by
  cases p with
  | connecting =>
    exact effect_still nofun (sameDisk_awaitConnection sameDisk_connected)
      (stays_awaitConnection rfl (.bind fun _ => stays_nextFile false))
  | reconnecting =>
    exact effect_still nofun (sameDisk_awaitConnection sameDisk_tellSeeked)
      (stays_awaitConnection rfl (.bind fun _ => .pure (stays_none rfl)))
  | syncing seeked =>
    exact effect_still nofun (.bind (.modify fun _ => rfl) fun _ => sameDisk_nextFile false)
      (.bind fun _ => stays_nextFile false)
  | tag =>
    refine effect_still nofun ?_ ?_
    · exact .bind (.tryCatch (sameDisk_recvFunc 1) sameDisk_handleException) fun _ =>
        .bind (.get _) fun _ => .ite (fun _ => .bind (.modify fun _ => rfl) fun _ => .pure _) fun _ =>
          .pure _
    · exact .bind fun _ => .bind fun _ => .ite (fun _ => .bind fun _ => .pure nofun) fun _ =>
        .pure (stays_none rfl)
  | length =>
    exact effect_still nofun
      (.bind (.tryCatch (sameDisk_recvInt 4) fun _ => sameDisk_handleException _) fun _ => .pure _)
      (.bind fun _ => .pure (stays_none rfl))
  | header n =>
    have hfs := sameDisk_recvHeader u n w
    have hrx := Task.sameHandle_recvHeader u n w
    simp only [Task.goOn, Coro.bind_apply, Coro.tryCatch_apply]
    cases hr : Task.recvHeader u n w with
    | done item w' =>
      rw [hr] at hfs hrx
      have hname : Plain item.name := hplain item (by simp [Task.header?, hr])
      rw [Run.handle_done, Run.bind_done, ← show w'.fs = w.fs from hfs]
      refine effect_receiveItem hname ?_
      rw [show w'.rx = w.rx from hrx]
      exact recvHeader_done hr
    | raised e w' =>
      rw [hr] at hfs
      have hmade : Made w.fs w'.fs := .inl fun l => by rw [show w'.fs = w.fs from hfs]
      rw [Run.handle_raised]
      cases he : (Raised.exception e).pauses with
      | true =>
        rw [Task.handleException_paused he]
        exact effect_failed (w := w'.setState .paused) hmade _
      | false =>
        rw [Task.handleException_raised he]
        exact effect_failed hmade _
    | blocked w' =>
      rw [hr] at hfs
      exact effect_blocked (.inl fun l => by rw [show w'.fs = w.fs from hfs])
  | contents index r =>
    refine effect_still nofun ?_ ?_
    · exact .bind (.tryCatch (sameDisk_recvFunc _) sameDisk_handleException) fun _ =>
        .ite (fun _ => sameDisk_endOfContents false) fun _ => .pure _
    · refine .bind fun data => .ite (fun _ => stays_endOfContents false) fun _ => .pure ?_
      intro q hq l hl
      obtain rfl := Option.some.inj hq
      exact hl
  | writing index r data =>
    have hfs : (w.writeItem index r data).fs = w.fs.writeAt r.location r.position data := by
      unfold World.writeItem World.updateItem
      split <;> rfl
    refine ⟨?_,fun l hl => .inr ?_,?_,nofun⟩
    · exact (congrArg (Retains w.fs) hfs).mpr (writeAt_keeps _ _ _ _)
    · by_contra hne
      refine hl ?_
      exact (congrArg (·.lookup l) hfs).trans
        (writeAt_elsewhere _ _ _ _ fun h => hne (congrArg some h.symm))
    · intro q w' hq l hl
      cases hq
      exact .inr hl
  | yielded index r =>
    refine effect_still nofun ?_ ?_
    · exact .bind (.get _) fun _ => .ite (fun _ => sameDisk_endOfContents false) fun _ =>
        sameDisk_nextChunk false index r
    · exact .bind fun _ => .ite (fun _ => stays_endOfContents false) fun _ => stays_nextChunk rfl

/-- What is raised does nothing to the disk, and ends the run. -/
theorem effect_interrupt (x : Raised) :
    Effect w.fs p ((Task.interrupt p x w).bind fun _ w => .done none w) := by
  have hfs : (Task.interrupt p x w).state.fs = w.fs := by
    cases x with
    | cancelled => rfl
    | exception e =>
      cases p <;> first | rfl | exact sameDisk_handleException (α := Unit) _ w
  have hmade : ∀ w' : World, w'.fs = w.fs → Made w.fs w'.fs := fun w' h => .inl fun l => by rw [h]
  cases hr : Task.interrupt p x w with
  | done _ w' =>
    rw [hr] at hfs
    refine .of_made (hmade w' hfs) (fun q w'' hq => by cases hq) ?_
    rw [acceptance_of_closed fun q w'' hq => by cases hq]
    nofun
  | raised e w' => rw [hr] at hfs; exact effect_failed (hmade w' hfs) e
  | blocked w' => rw [hr] at hfs; exact effect_blocked (hmade w' hfs)

end Effect

namespace Downloads

/-- What a run leaves of a task, and of the disk that the tasks share. -/
def settle (i : ℕ) (st : RecvStage) (run : Run Exn World (Option RecvPoint)) (d : Downloads) :
    Downloads :=
  { d with
    fs := run.state.fs
    tasks := Function.update d.tasks i
      ⟨run.state.rx,run.state.source,run.state.sent,st.next run⟩ }

variable (u : Umsgpack) (root : Path)

def newWorld (fs : FileSystem) : World :=
  { rx := { downloadPath := root, connectionMade := false }, fs := fs,
    source := ⟨[],.silent,Cut.whole,0⟩ }

def step (d : Downloads) : DownloadEvent → Downloads
  | .recvFiles i => d.settle i (.ended none) (Task.recvFiles (newWorld root d.fs))
  | .connectionMade i =>
    let t := d.tasks i
    { d with tasks := Function.update d.tasks i { t with rx := { t.rx with connectionMade := true } } }
  | .goOn i s =>
    match (d.tasks i).stage with
    | .ended _ => d
    | .waiting p =>
      let run := Task.goOn u false p ({ d.tasks i with source := s }.world d.fs)
      { d.settle i (.waiting p) run with accepted := d.accepted ++ acceptance d.fs p run }
  | .raised i x =>
    match (d.tasks i).stage with
    | .ended _ => d
    | .waiting p => d.settle i (.waiting p)
      ((Task.interrupt p x ((d.tasks i).world d.fs)).bind fun _ w => .done none w)

/-- No receiver has begun yet. -/
def start (fs : FileSystem) : Downloads where
  fs := fs
  tasks _ := ⟨{ downloadPath := root },⟨[],.silent,Cut.whole,0⟩,[],.ended none⟩

/-- The item of a header that arrives. -/
def header? (d : Downloads) : DownloadEvent → Option FileItem
  | .goOn i s => match (d.tasks i).stage with
    | .waiting p => Task.header? u ({ d.tasks i with source := s }.world d.fs) p
    | .ended _ => none
  | _ => none

/-- The headers that are received name files of the directory. -/
def PlainHeader (d : Downloads) (e : DownloadEvent) : Prop :=
  ∀ item ∈ d.header? u e, Plain item.name

/-- What was there is as it was, and each file that has been accepted is where nothing had been. -/
structure NotOverwritten (fs : FileSystem) (d : Downloads) : Prop where
  unchanged : ∀ l node, fs.lookup l = some node → d.fs.lookup l = some node
  fresh : ∀ a ∈ d.accepted, a.existed = false ∧ fs.pathExists a.path = false
  distinct : (d.accepted.map Acceptance.path).Nodup

/-- What holds of the disk and of what is open at every moment. -/
structure Shared (fs : FileSystem) (d : Downloads) : Prop where
  unchanged : ∀ l node, fs.lookup l = some node → d.fs.lookup l = some node
  opened : ∀ i p, (d.tasks i).stage = .waiting p → ∀ l ∈ p.location?, fs.lookup l = none
  accepted : ∀ a ∈ d.accepted, a.existed = false ∧ fs.pathExists a.path = false ∧
    d.fs.pathExists a.path = true
  distinct : (d.accepted.map Acceptance.path).Nodup

variable {fs : FileSystem} {d : Downloads}

theorem Shared.keeps (h : Shared fs d) : Retains fs d.fs where
  dirs l hl := h.unchanged l _ hl
  there l hl := by
    obtain ⟨node,hnode⟩ := Option.ne_none_iff_exists'.mp hl
    rw [h.unchanged l node hnode]
    exact Option.some_ne_none _

/-- What is not there now was not there in the beginning. -/
theorem Shared.absent (h : Shared fs d) {l : Loc} (hl : d.fs.lookup l = none) : fs.lookup l = none := by
  by_contra hne
  exact h.keeps.there l hne hl

theorem Shared.missing (h : Shared fs d) {p : Path} (hp : d.fs.pathExists p = false) :
    fs.pathExists p = false := by
  cases hfs : fs.pathExists p with
  | false => rfl
  | true => rw [h.keeps.pathExists hfs] at hp; cases hp

theorem RecvStage.next_waiting {st : RecvStage} {run : Run Exn World (Option RecvPoint)}
    {q : RecvPoint} (h : st.next run = .waiting q) :
    (∃ w, run = .done (some q) w) ∨ st = .waiting q := by
  cases run with
  | done q' w =>
    cases q' with
    | none => cases h
    | some q' => cases h; exact .inl ⟨w,rfl⟩
  | raised e w => cases h
  | blocked w => exact .inr h

/-- What a step of one task keeps, with at most one file that it accepts. -/
theorem Shared.settle (h : Shared fs d) (i : ℕ) (st : RecvStage) (new : List Acceptance)
    {p : RecvPoint} {run : Run Exn World (Option RecvPoint)}
    (hst : ∀ q, st = .waiting q → q = p) (hp : ∀ l ∈ p.location?, fs.lookup l = none)
    (he : Effect d.fs p run) (hnew : new.length ≤ 1) (hsub : new ⊆ acceptance d.fs p run) :
    Shared fs { d.settle i st run with accepted := d.accepted ++ new } where
  unchanged l node hl := by
    have hd := h.unchanged l node hl
    by_cases hsame : run.state.fs.lookup l = d.fs.lookup l
    · exact hsame.trans hd
    · rcases he.same l hsame with hnone | hloc
      · rw [hd] at hnone; cases hnone
      · rw [hp l hloc] at hl; cases hl
  opened j q hq l hl := by
    by_cases hj : j = i
    · subst hj
      simp only [Downloads.settle, Function.update_self] at hq
      rcases RecvStage.next_waiting hq with ⟨w,hw⟩ | hw
      · rcases he.next q w hw l hl with hnone | hloc
        · exact h.absent hnone
        · exact hp l hloc
      · rw [hst q hw] at hl
        exact hp l hl
    · simp only [Downloads.settle, Function.update_of_ne hj] at hq
      exact h.opened j q hq l hl
  accepted a ha := by
    rcases List.mem_append.mp ha with ha | ha
    · obtain ⟨hexisted,hmissing,hexists⟩ := h.accepted a ha
      exact ⟨hexisted,hmissing,he.keeps.pathExists hexists⟩
    · obtain ⟨hexisted,hmissing,hexists⟩ := he.accepted a (hsub ha)
      exact ⟨hexisted,h.missing hmissing,hexists⟩
  distinct := by
    rw [List.map_append, List.nodup_append]
    refine ⟨h.distinct,?_,fun x hx y hy => ?_⟩
    · rcases new with _ | ⟨a,_ | ⟨b,new⟩⟩
      · exact List.nodup_nil
      · exact List.nodup_singleton _
      · simp at hnew
    · obtain ⟨a,ha,rfl⟩ := List.mem_map.mp hx
      obtain ⟨b,hb,rfl⟩ := List.mem_map.mp hy
      obtain ⟨_,hmissing,_⟩ := he.accepted b (hsub hb)
      intro heq
      rw [← heq, (h.accepted a ha).2.2] at hmissing
      cases hmissing

theorem shared_start (fs : FileSystem) : Shared fs (start root fs) :=
  ⟨fun _ _ h => h,fun _ _ h => (by cases h),nofun,List.nodup_nil⟩

theorem shared_step {e : DownloadEvent} (he : PlainHeader u d e) (h : Shared fs d) :
    Shared fs (step u root d e) := by
  cases e with
  | recvFiles i =>
    have heffect : Effect d.fs .connecting (Task.recvFiles (newWorld root d.fs)) :=
      effect_still (w := newWorld root d.fs) nofun
        (.bind (.modify fun _ => rfl) fun _ => sameDisk_awaitConnection sameDisk_connected)
        (.bind fun _ => stays_awaitConnection rfl (.bind fun _ => stays_nextFile false))
    have hsettle := h.settle i (.ended none) [] nofun
      (fun l hl => by cases hl) heffect (Nat.zero_le _) (List.nil_subset _)
    rwa [List.append_nil] at hsettle
  | connectionMade i =>
    refine ⟨h.unchanged,fun j p hp => ?_,h.accepted,h.distinct⟩
    by_cases hj : j = i
    · subst hj
      simp only [step, Function.update_self] at hp
      exact h.opened j p hp
    · simp only [step, Function.update_of_ne hj] at hp
      exact h.opened j p hp
  | goOn i s =>
    cases hstage : (d.tasks i).stage with
    | ended raised => simpa only [step, hstage] using h
    | waiting p =>
      simp only [PlainHeader, header?, hstage] at he
      have heffect := effect_goOn he
      simp only [step, hstage]
      exact h.settle i (.waiting p) _ (fun q hq => by cases hq; rfl) (h.opened i p hstage) heffect
        (acceptance_length _ _ _) fun _ ha => ha
  | raised i x =>
    cases hstage : (d.tasks i).stage with
    | ended raised => simpa only [step, hstage] using h
    | waiting p =>
      have heffect := effect_interrupt (w := (d.tasks i).world d.fs) (p := p) x
      have hsettle := h.settle i (.waiting p) [] (fun q hq => by cases hq; rfl)
        (h.opened i p hstage) heffect (Nat.zero_le _) (List.nil_subset _)
      rw [List.append_nil] at hsettle
      simp only [step, hstage]
      exact hsettle

/-- Whatever receivers share a directory, and in whatever order they go on: nothing that was there is
changed, and the search for a name ends. -/
theorem never_overwrites (fs : FileSystem) (es : List DownloadEvent)
    (h : Along (step u root) (PlainHeader u) (start root fs) es) :
    NotOverwritten fs (after (step u root) (start root fs) es) ∧
      ∀ (fs' : FileSystem) (name : Name), Plain name →
        fs'.pathExists (root.join (validName fs' root name)) = false ∧
        ∃ k, validName fs' root name = candidate name k ∧
          ∀ j < k, fs'.pathExists (root.join (candidate name j)) = true := by
  have hshared : Shared fs (after (step u root) (start root fs) es) :=
    h.invariant (I := Shared fs) (fun _ _ he hd => shared_step u root he hd) (shared_start root fs)
  refine ⟨⟨hshared.unchanged,fun a ha => ?_,hshared.distinct⟩,fun fs' name hname => ?_⟩
  · obtain ⟨hexisted,hmissing,_⟩ := hshared.accepted a ha
    exact ⟨hexisted,hmissing⟩
  · exact (validName_first fs' root hname).2

/-- Two receivers get the same name, each before the other has its contents. -/
def bothReceiveA : List DownloadEvent :=
  [.recvFiles 0,.recvFiles 1,.connectionMade 0,.connectionMade 1] ++
    [[],[1],[0,0,0,5],[0x93,0xa1,0x61,2,0]].flatMap fun pending =>
      [.goOn 0 ⟨pending,.silent,Cut.whole,0⟩,.goOn 1 ⟨pending,.silent,Cut.whole,0⟩]

theorem never_overwrites_bothReceiveA :
    NotOverwritten .bare (after (step twoCodec []) (start [] .bare) bothReceiveA) ∧
      ∀ (fs' : FileSystem) (name : Name), Plain name →
        fs'.pathExists (Path.join [] (validName fs' [] name)) = false ∧
        ∃ k, validName fs' [] name = candidate name k ∧
          ∀ j < k, fs'.pathExists (Path.join [] (candidate name j)) = true := by
  refine never_overwrites twoCodec [] .bare bothReceiveA ?_
  have hnone : ∀ d e, header? twoCodec d e = none → PlainHeader twoCodec d e := fun d e h item hi => by
    rw [h] at hi
    cases hi
  have hsome : ∀ d e item, header? twoCodec d e = some item → item.name = ['a'] →
      PlainHeader twoCodec d e := fun d e item h hname item' hi => by
    obtain rfl := Option.some.inj (h.symm.trans hi)
    rw [hname]
    exact ⟨⟨by decide,by decide,by decide⟩,by decide⟩
  exact ⟨hnone _ _ rfl,hnone _ _ rfl,hnone _ _ rfl,hnone _ _ rfl,hnone _ _ rfl,hnone _ _ rfl,
    hnone _ _ rfl,hnone _ _ rfl,hnone _ _ rfl,hnone _ _ rfl,hsome _ _ _ rfl rfl,hsome _ _ _ rfl rfl,
    trivial⟩

end Downloads
end PeerConnect.Transfers
