import PeerConnect.Transfers.SenderRun

/-! `files.Sender` as a task: where it awaits, others can call its handle, and what it awaits may raise. -/
namespace PeerConnect.Transfers
open Library Wire

/-- What is raised where a coroutine is suspended: an exception, or what no handler of exceptions sees,
as when its task is cancelled or its generator is closed. -/
inductive Raised
  | exception (e : Exn)
  | cancelled
  deriving DecidableEq, Repr

/-- An `OSError`. -/
def Raised.isOSError : Raised → Bool
  | exception e => e.isOSError
  | cancelled => false

/-- What `handle_exception` takes for the end of a connection. -/
def Raised.pauses : Raised → Bool
  | exception e => e = .transferIncomplete ∨ e.isOSError
  | cancelled => false

/-- The handle of a sender, with what is set from outside. -/
structure SenderHandle where
  state : TransferState := .preparing
  fileList : List LocalFile
  currentFileIndex : ℕ := 0
  toStop : Bool := false
  connectionMade : Bool := false

/-- Where `send_files` is suspended: at the tag, the header or a chunk of a file which it sends, at the
disk, where it yields, or at the last tag; and where `continue_transfer` is, before. -/
inductive SendPoint
  | syncing
  | tag (index : ℕ)
  | header (index : ℕ)
  | opening (index : ℕ)
  | reading (index offset : ℕ)
  | chunk (index offset : ℕ)
  | yielded (index offset : ℕ)
  | final
  deriving DecidableEq, Repr

namespace SenderHandle

def setState (st : TransferState) (h : SenderHandle) : SenderHandle := { h with state := st }

def setSeeked (index n : ℕ) (h : SenderHandle) : SenderHandle :=
  { h with fileList := h.fileList.modify index (LocalFile.setSeeked n) }

/-- The functions of the connection are paused or resumed; `None` has no such methods. -/
def functions : Coro Exn SenderHandle Unit := do
  let made ← Coro.get SenderHandle.connectionMade
  if made then pure () else Coro.raise .attributeError

def pause : Coro Exn SenderHandle Unit := do
  Coro.modify (setState .paused)
  functions

def resume : Coro Exn SenderHandle Unit := do
  let st ← Coro.get SenderHandle.state
  if st ≠ .paused then pure () else do
    Coro.modify (setState .sending)
    functions

/-- No task lets its exception be set. -/
def cancel : Coro Exn SenderHandle Unit := do
  let st ← Coro.get SenderHandle.state
  if st ≠ .sending ∧ st ≠ .paused then Coro.raise .invalidStateError
  else do
    Coro.modify fun h => { h with toStop := true }
    Coro.raise .runtimeError

def attachFiles (pathsList : List LocalFile) : Coro Exn SenderHandle Unit := do
  let st ← Coro.get SenderHandle.state
  if st ≠ .paused ∧ st ≠ .sending then Coro.raise .invalidStateError
  else Coro.modify fun h =>
    { h with fileList := h.fileList ++ pathsList.map (LocalFile.setSeeked 0) }

def handleException {α : Type} (e : Exn) : Coro Exn SenderHandle α :=
  Transfers.handleException setState e

/-- A call of `send_func`, up to where it is awaited; `None` cannot be called. -/
def calling (p : SendPoint) : Coro Exn SenderHandle (Option SendPoint) := do
  let made ← Coro.get SenderHandle.connectionMade
  if made then pure (some p) else handleException .typeError

def file (index : ℕ) : Coro Exn SenderHandle LocalFile := do
  match ← Coro.get (·.fileList[index]?) with
  | some f => pure f
  | none => Coro.raise .indexError

/-- The loop of `send_files` at a file of the range that it runs through. -/
def nextFile (stop index : ℕ) : Coro Exn SenderHandle (Option SendPoint) := do
  let toStop ← Coro.get SenderHandle.toStop
  if index < stop ∧ ¬ toStop then do
    Coro.modify fun h => { h with currentFileIndex := index }
    calling (.tag index)
  else calling .final

/-- The start of `send_files`, with the end of its range. -/
def sendFiles : Coro Exn SenderHandle (ℕ × Option SendPoint) := do
  Coro.modify (setState .sending)
  let h ← Coro.get id
  let point ← nextFile h.fileList.length h.currentFileIndex
  pure (h.fileList.length,point)

/-- The loop of `send_actual_file` at an offset. -/
def nextChunk (stop index offset : ℕ) : Coro Exn SenderHandle (Option SendPoint) := do
  let f ← file index
  if offset < f.size then pure (some (.reading index offset)) else nextFile stop (index+1)

/-- What `send_files` does once it gets what it waits for, up to where it waits next. -/
def goOn (u : Umsgpack) (stop : ℕ) : SendPoint → Coro Exn SenderHandle (Option SendPoint)
  | .syncing => pure none
  | .tag index => do
    let f ← file index
    Coro.tryCatch (Coro.ofExcept ((Sender.filePacket u f).map fun _ => ())) handleException
    calling (.header index)
  | .header index => pure (some (.opening index))
  | .opening index => do
    let f ← file index
    Coro.tryCatch
      (do
        Coro.ofExcept (statusSetup (.int f.seeked) (.int f.size))
        if f.contents = [] then Coro.raise .valueError else pure ())
      handleException
    nextChunk stop index f.seeked
  | .reading index offset => calling (.chunk index offset)
  | .chunk index offset => do
    let f ← file index
    let chunk := slice f.contents offset (offset+calculateChunkSize f.size)
    Coro.modify (setSeeked index (offset+chunk.length))
    let toStop ← Coro.get SenderHandle.toStop
    if toStop then nextFile stop (index+1) else pure (some (.yielded index offset))
  | .yielded index offset => do
    let f ← file index
    nextChunk stop index (offset+calculateChunkSize f.size)
  | .final => do
    Coro.modify (setState .completed)
    pure none

/-- What comes of something that is raised where `send_files` is suspended. -/
def interrupt : Raised → Coro Exn SenderHandle Unit
  | .exception e => handleException e
  | .cancelled => pure ()

end SenderHandle

/-- The calls that others make on the handle of a sender. -/
inductive SenderCall
  | pause
  | resume
  | cancel
  | attachFiles (pathsList : List LocalFile)

def SenderCall.run : SenderCall → Coro Exn SenderHandle Unit
  | pause => SenderHandle.pause
  | resume => SenderHandle.resume
  | cancel => SenderHandle.cancel
  | attachFiles pathsList => SenderHandle.attachFiles pathsList

namespace SendPoint

/-- The file that `send_files` is at. -/
def index? : SendPoint → Option ℕ
  | tag i | header i | opening i | reading i _ | chunk i _ | yielded i _ => some i
  | syncing | final => none

/-- The points of `send_files` itself, at files of the list. -/
def Valid (h : SenderHandle) (p : SendPoint) : Prop :=
  p ≠ .syncing ∧ ∀ i ∈ p.index?, i < h.fileList.length

/-- At this point it fails by itself: the header cannot be packed, or an empty file not be mapped. -/
def Fails (u : Umsgpack) (h : SenderHandle) : SendPoint → Prop
  | tag i => ∃ f ∈ h.fileList[i]?, ∀ packet, Sender.filePacket u f ≠ .ok packet
  | opening i => ∃ f ∈ h.fileList[i]?, f.contents = []
  | _ => False

end SendPoint

namespace SenderHandle
variable {u : Umsgpack} {h : SenderHandle} {stop : ℕ} {p : SendPoint}

/-- Where it goes on, nothing has changed but how far it has got. -/
def Continues (h : SenderHandle) (r : Run Exn SenderHandle (Option SendPoint)) : Prop :=
  ∃ p h', r = .done (some p) h' ∧ p.Valid h' ∧ h'.state = h.state ∧ h'.connectionMade = true ∧
    h'.fileList.length = h.fileList.length

theorem calling_continues (hc : h.connectionMade = true) (hp : p.Valid h) :
    Continues h (calling p h) :=
  ⟨p,h,by simp [calling, hc],hp,rfl,hc,rfl⟩

theorem nextFile_continues (hc : h.connectionMade = true) (hstop : stop ≤ h.fileList.length)
    (index : ℕ) : Continues h (nextFile stop index h) := by
  by_cases hi : index < stop ∧ ¬ h.toStop
  · refine ⟨.tag index,{ h with currentFileIndex := index },?_,⟨nofun,?_⟩,rfl,hc,rfl⟩
    · simp only [nextFile, Coro.bind_apply, Coro.get_apply, Run.bind_done, if_pos hi]
      simp [calling, hc]
    · intro i hmem
      obtain rfl : index = i := by simpa [SendPoint.index?] using hmem
      exact hi.1.trans_le hstop
  · refine ⟨.final,h,?_,⟨nofun,nofun⟩,rfl,hc,rfl⟩
    simp only [nextFile, Coro.bind_apply, Coro.get_apply, Run.bind_done, if_neg hi]
    simp [calling, hc]

theorem file_apply {i : ℕ} {f : LocalFile} (hf : h.fileList[i]? = some f) :
    file i h = .done f h := by
  simp [file, hf]

theorem nextChunk_continues (hc : h.connectionMade = true) (hstop : stop ≤ h.fileList.length)
    {i : ℕ} (hi : i < h.fileList.length) (offset : ℕ) :
    Continues h (nextChunk stop i offset h) := by
  obtain ⟨f,hf⟩ : ∃ f, h.fileList[i]? = some f := ⟨_,List.getElem?_eq_getElem hi⟩
  rw [nextChunk, Coro.bind_apply, file_apply hf, Run.bind_done]
  split
  · refine ⟨.reading i offset,h,rfl,⟨nofun,fun j hj => ?_⟩,rfl,hc,rfl⟩
    obtain rfl : i = j := by simpa [SendPoint.index?] using hj
    exact hi
  · exact nextFile_continues hc hstop (i+1)

theorem handleException_raised {α : Type} {e : Exn} (he : (Raised.exception e).pauses = false) :
    (handleException e : Coro Exn SenderHandle α) h = .raised e h := by
  have : ¬ (e = .transferIncomplete ∨ e.isOSError) := by simpa [Raised.pauses] using he
  simp [handleException, Transfers.handleException, this]

theorem handleException_paused {α : Type} {e : Exn} (he : (Raised.exception e).pauses = true) :
    (handleException e : Coro Exn SenderHandle α) h = .raised .transferIncomplete (h.setState .paused) := by
  have : e = .transferIncomplete ∨ e.isOSError := by simpa [Raised.pauses] using he
  simp [handleException, Transfers.handleException, this]

/-- Packing a header raises nothing that pauses the handle. -/
theorem filePacket_error {f : LocalFile} {e : Exn} (he : Sender.filePacket u f = .error e) :
    (Raised.exception e).pauses = false := by
  unfold Sender.filePacket at he
  split at he
  · cases he; rfl
  · split at he
    · cases he; rfl
    · cases he

theorem goOn_chunk {index : ℕ} {f : LocalFile} (hf : h.fileList[index]? = some f) (offset : ℕ) :
    goOn u stop (.chunk index offset) h =
      let h' := h.setSeeked index
        (offset+(slice f.contents offset (offset+calculateChunkSize f.size)).length)
      if h.toStop then nextFile stop (index+1) h' else .done (some (.yielded index offset)) h' := by
  simp [goOn, file_apply hf, setSeeked]

theorem goOn_yielded {index : ℕ} {f : LocalFile} (hf : h.fileList[index]? = some f) (offset : ℕ) :
    goOn u stop (.yielded index offset) h =
      nextChunk stop index (offset+calculateChunkSize f.size) h := by
  simp [goOn, file_apply hf]

theorem goOn_opening {index : ℕ} {f : LocalFile} (hf : h.fileList[index]? = some f)
    (hc : f.contents ≠ []) : goOn u stop (.opening index) h = nextChunk stop index f.seeked h := by
  simp [goOn, file_apply hf, statusSetup_int f.size_fits, hc]

/-- What comes of an answer: the next point, the end of the transfer, or a failure that leaves the handle
in the state that it was in. -/
theorem goOn_cases (hc : h.connectionMade = true) (hstop : stop ≤ h.fileList.length)
    (hp : p.Valid h) :
    p ≠ .final ∧ ¬ p.Fails u h ∧ Continues h (goOn u stop p h) ∨
    p = .final ∧ goOn u stop p h = .done none (h.setState .completed) ∨
    p ≠ .final ∧ p.Fails u h ∧ ∃ e, goOn u stop p h = .raised e h ∧
      (Raised.exception e).pauses = false := by
  obtain ⟨hsync,hindex⟩ := hp
  have hget : ∀ i ∈ p.index?, ∃ f, h.fileList[i]? = some f := fun i hi =>
    ⟨_,List.getElem?_eq_getElem (hindex i hi)⟩
  cases p with
  | syncing => exact absurd rfl hsync
  | tag i =>
    obtain ⟨f,hf⟩ := hget i rfl
    have hfile := file_apply hf
    cases hpacket : Sender.filePacket u f with
    | ok packet =>
      refine .inl ⟨nofun,?_,?_⟩
      · rintro ⟨f',hf',hfails⟩
        obtain rfl : f = f' := by simpa [hf] using hf'
        exact hfails packet hpacket
      · have hgo : goOn u stop (.tag i) h = calling (.header i) h := by
          simp [goOn, hfile, hpacket, Except.map]
        rw [hgo]
        exact calling_continues hc ⟨nofun,hindex⟩
    | error e =>
      have he := filePacket_error hpacket
      refine .inr (.inr ⟨nofun,⟨f,hf,fun packet h => by rw [hpacket] at h; cases h⟩,e,?_,he⟩)
      simp [goOn, hfile, hpacket, Except.map, handleException_raised he]
  | header i => exact .inl ⟨nofun,id,.opening i,h,rfl,⟨nofun,hindex⟩,rfl,hc,rfl⟩
  | opening i =>
    obtain ⟨f,hf⟩ := hget i rfl
    have hfile := file_apply hf
    by_cases hempty : f.contents = []
    · refine .inr (.inr ⟨nofun,⟨f,hf,hempty⟩,.valueError,?_,rfl⟩)
      have he : (Raised.exception .valueError).pauses = false := rfl
      simp [goOn, hfile, statusSetup_int f.size_fits, hempty, handleException_raised he]
    · refine .inl ⟨nofun,?_,?_⟩
      · rintro ⟨f',hf',hfails⟩
        obtain rfl : f = f' := by simpa [hf] using hf'
        exact hempty hfails
      · rw [goOn_opening hf hempty]
        exact nextChunk_continues hc hstop (hindex i rfl) f.seeked
  | reading i offset => exact .inl ⟨nofun,id,calling_continues hc ⟨nofun,hindex⟩⟩
  | chunk i offset =>
    obtain ⟨f,hf⟩ := hget i rfl
    refine .inl ⟨nofun,id,?_⟩
    set chunk := slice f.contents offset (offset+calculateChunkSize f.size) with hchunk
    have hlength : (h.setSeeked i (offset+chunk.length)).fileList.length = h.fileList.length := by
      simp [setSeeked]
    rw [goOn_chunk hf, ← hchunk]
    dsimp only
    split
    · have hstop' : stop ≤ (h.setSeeked i (offset+chunk.length)).fileList.length := hlength ▸ hstop
      obtain ⟨p,h',hr,hp,hst,hc',hl⟩ := nextFile_continues (h := h.setSeeked i (offset+chunk.length))
        hc hstop' (i+1)
      exact ⟨p,h',hr,hp,hst,hc',hl.trans hlength⟩
    · exact ⟨_,_,rfl,⟨nofun,fun j hj => hlength.symm ▸ hindex j hj⟩,rfl,hc,hlength⟩
  | yielded i offset =>
    obtain ⟨f,hf⟩ := hget i rfl
    rw [goOn_yielded hf]
    exact .inl ⟨nofun,id,nextChunk_continues hc hstop (hindex i rfl) _⟩
  | final => exact .inr (.inl ⟨rfl,rfl⟩)

/-- What a call can do to a handle. -/
structure Called (h h' : SenderHandle) : Prop where
  state : h'.state = h.state ∨ h'.state = .paused ∨ h.state = .paused ∧ h'.state = .sending
  connectionMade : h'.connectionMade = h.connectionMade
  fileList : h.fileList.length ≤ h'.fileList.length

theorem called (h : SenderHandle) (c : SenderCall) : Called h (c.run h).state := by
  cases c with
  | pause =>
    cases hc : h.connectionMade <;>
      exact ⟨.inr (.inl (by simp [SenderCall.run, pause, functions, setState, hc])),
        by simp [SenderCall.run, pause, functions, setState, hc],
        by simp [SenderCall.run, pause, functions, setState, hc]⟩
  | resume =>
    by_cases hs : h.state = .paused
    · cases hc : h.connectionMade <;>
        exact ⟨.inr (.inr ⟨hs,by simp [SenderCall.run, resume, functions, setState, hc, hs]⟩),
          by simp [SenderCall.run, resume, functions, setState, hc, hs],
          by simp [SenderCall.run, resume, functions, setState, hc, hs]⟩
    · have hr : SenderCall.resume.run h = .done () h := by simp [SenderCall.run, resume, hs]
      rw [hr]
      exact ⟨.inl rfl,rfl,le_rfl⟩
  | cancel =>
    simp only [SenderCall.run, cancel, Coro.bind_apply, Coro.get_apply, Run.bind_done, Coro.ite_apply]
    split <;> exact ⟨.inl rfl,rfl,le_rfl⟩
  | attachFiles pathsList =>
    simp only [SenderCall.run, attachFiles, Coro.bind_apply, Coro.get_apply, Run.bind_done,
      Coro.ite_apply]
    split
    · exact ⟨.inl rfl,rfl,le_rfl⟩
    · exact ⟨.inl rfl,rfl,by simp⟩

section LeftAlone
variable {s : Sender}

/-! A sender that is left alone: nobody calls its handle, and whatever it awaits comes. -/

/-- How it ends, from where it has got to. -/
inductive LeadsTo (u : Umsgpack) (stop : ℕ) :
    Run Exn SenderHandle (Option SendPoint) → Run Exn SenderHandle Unit → Prop
  | ended (h : SenderHandle) : LeadsTo u stop (.done none h) (.done () h)
  | raised (e : Exn) (h : SenderHandle) : LeadsTo u stop (.raised e h) (.raised e h)
  | goOn {p : SendPoint} {h : SenderHandle} {r : Run Exn SenderHandle Unit}
      (hr : LeadsTo u stop (goOn u stop p h) r) : LeadsTo u stop (.done (some p) h) r

/-- The same handle in the model that runs to its end. -/
structure LeftAlone (s : Sender) (h : SenderHandle) : Prop where
  state : h.state = s.state
  fileList : h.fileList = s.fileList
  currentFileIndex : h.currentFileIndex = s.currentFileIndex
  toStop : h.toStop = false
  connectionMade : h.connectionMade = true
  stopAfter : s.stopAfter = none
  sends : s.sends = none

/-- Both runs end in the same way. -/
def SameEnd : Run Exn Sender Unit → Run Exn SenderHandle Unit → Prop
  | .done _ s,.done _ h => LeftAlone s h
  | .raised e s,.raised e' h => e' = e ∧ LeftAlone s h
  | _,_ => False

theorem nextFile_of_lt (hs : LeftAlone s h) {index : ℕ} (hi : index < stop) :
    nextFile stop index h = .done (some (.tag index)) { h with currentFileIndex := index } := by
  have hc := hs.connectionMade
  simp [nextFile, calling, hi, hs.toStop, hc]

theorem nextFile_of_le (hs : LeftAlone s h) {index : ℕ} (hi : stop ≤ index) :
    nextFile stop index h = .done (some .final) h := by
  have hc := hs.connectionMade
  simp [nextFile, calling, not_lt.mpr hi, hc]

theorem nextChunk_eq {index : ℕ} {f : LocalFile} (hf : h.fileList[index]? = some f) (offset : ℕ) :
    nextChunk stop index offset h =
      if offset < f.size then .done (some (.reading index offset)) h else nextFile stop (index+1) h := by
  rw [nextChunk, Coro.bind_apply, file_apply hf, Run.bind_done]
  split <;> rfl

/-- The chunks of a file are sent in both, and then comes the next file. -/
theorem leadsTo_chunkLoop {s : Sender} {h : SenderHandle} (hs : LeftAlone s h) {index : ℕ}
    {f : LocalFile} (hf : h.fileList[index]? = some f) (offset : ℕ) :
    ∃ s' h' g, Sender.chunkLoop index f.contents (calculateChunkSize f.size)
        (steps offset f.size (calculateChunkSize f.size)) s = .done () s' ∧
      LeftAlone s' h' ∧ s'.fileList = s.fileList.modify index g ∧
      ∀ r, LeadsTo u stop (nextFile stop (index+1) h') r →
        LeadsTo u stop (nextChunk stop index offset h) r := by
  by_cases hlt : offset < f.size
  · set n := offset+(slice f.contents offset (offset+calculateChunkSize f.size)).length with hn
    set s₁ := s.afterChunks index offset (slice f.contents offset (offset+calculateChunkSize f.size)) 1
      with hs₁
    have hsame : LeftAlone s₁ (h.setSeeked index n) := by
      refine ⟨hs.state,?_,hs.currentFileIndex,hs.toStop,hs.connectionMade,?_,hs.sends⟩
      · rw [setSeeked, hs.fileList]
        rfl
      · simp [hs₁, Sender.afterChunks, hs.stopAfter]
    have hf₁ : (h.setSeeked index n).fileList[index]? = some (f.setSeeked n) := by
      simp [setSeeked, hf]
    have hpos := calculateChunkSize_pos f.size
    obtain ⟨s',h',g,hloop,hs',hg,hleads⟩ :=
      leadsTo_chunkLoop hsame hf₁ (offset+calculateChunkSize f.size)
    refine ⟨s',h',g ∘ LocalFile.setSeeked n,?_,hs',?_,fun r hr => ?_⟩
    · rw [steps_of_lt hpos hlt, Sender.chunkLoop_cons _ _ _ _ _ _ hs.sends,
        if_neg (by simp [hs.stopAfter])]
      exact hloop
    · rw [hg, ← List.modify_modify_eq]
      rfl
    · rw [nextChunk_eq hf, if_pos hlt]
      refine .goOn ?_
      have hcalling : goOn u stop (.reading index offset) h = .done (some (.chunk index offset)) h := by
        have hc := hs.connectionMade
        simp [goOn, calling, hc]
      rw [hcalling]
      refine .goOn ?_
      rw [goOn_chunk hf]
      simp only [hs.toStop]
      refine .goOn ?_
      rw [goOn_yielded hf₁]
      exact hleads r hr
  · refine ⟨s,h,id,?_,hs,(List.modify_id ..).symm,fun r hr => ?_⟩
    · rw [steps_of_le (not_lt.mp hlt)]
      rfl
    · rwa [nextChunk_eq hf, if_neg hlt]
termination_by f.size-offset
decreasing_by
  have := calculateChunkSize_pos f.size
  change f.size-(offset+calculateChunkSize f.size) < f.size-offset
  omega

/-- What `send_files` does behind its loop. -/
def behindLoop : Coro Exn Sender Unit := do
  Coro.tryCatch (Sender.sendFunc [0]) Sender.handleException
  Coro.modify (Sender.setState .completed)

theorem leadsTo_sendLoop {s : Sender} {h : SenderHandle} (hs : LeftAlone s h) {files : List LocalFile} {k : ℕ}
    (hfiles : s.fileList.drop k = files) (hstop : stop = s.fileList.length) :
    ∃ r, LeadsTo u stop (nextFile stop k h) r ∧
      SameEnd ((Sender.sendLoop u (files.zipIdx k) s).bind fun _ => behindLoop) r := by
  induction files generalizing k s h with
  | nil =>
    have hle : stop ≤ k := hstop ▸ List.drop_eq_nil_iff.mp hfiles
    refine ⟨.done () (h.setState .completed),?_,?_⟩
    · rw [nextFile_of_le hs hle]
      exact .goOn (.ended _)
    · have htail : behindLoop s = .done () { s with out := s.out ++ [0], state := .completed } := by
        simp only [behindLoop, Coro.bind_apply, Coro.tryCatch_apply, Sender.sendFunc_apply _ s hs.sends,
          Run.handle_done, Run.bind_done, Coro.modify_apply]
        rfl
      change SameEnd (behindLoop s) _
      rw [htail]
      exact ⟨rfl,hs.fileList,hs.currentFileIndex,hs.toStop,hs.connectionMade,hs.stopAfter,hs.sends⟩
  | cons f fs ih =>
    have hlt : k < stop := by
      have hlength := congrArg List.length hfiles
      rw [List.length_drop, List.length_cons] at hlength
      omega
    have hf : s.fileList[k]? = some f := by
      rw [← List.head?_drop, hfiles]
      rfl
    have hfs : s.fileList.drop (k+1) = fs := by
      rw [← List.tail_drop, hfiles]
      rfl
    have hnone : s.stopAfter ≠ some 0 := by simp [hs.stopAfter]
    rw [nextFile_of_lt hs hlt, List.zipIdx_cons, Sender.sendLoop_cons u f k _ hnone]
    set t : Sender := { s with stopAfter := s.stopAfter.map (· - 1), currentFileIndex := k } with ht
    set h₁ : SenderHandle := { h with currentFileIndex := k } with hh₁
    have hs₁ : LeftAlone t h₁ :=
      ⟨hs.state,hs.fileList,rfl,hs.toStop,hs.connectionMade,by simp [ht, hs.stopAfter],hs.sends⟩
    have hout : ∀ {t' : Sender}, LeftAlone t' h₁ → ∀ out, LeftAlone { t' with out := out } h₁ := fun h' _ =>
      ⟨h'.state,h'.fileList,h'.currentFileIndex,h'.toStop,h'.connectionMade,h'.stopAfter,h'.sends⟩
    have hf₁ : h₁.fileList[k]? = some f := by
      change h.fileList[k]? = some f
      rwa [hs.fileList]
    have hc₁ : h₁.connectionMade = true := hs.connectionMade
    cases hp : Sender.filePacket u f with
    | error e =>
      refine ⟨.raised e h₁,.goOn ?_,?_⟩
      · have htag : goOn u stop (.tag k) h₁ = .raised e h₁ := by
          simp [goOn, file_apply hf₁, hp, Except.map, handleException_raised (filePacket_error hp)]
        rw [htag]
        exact .raised e h₁
      · rw [Sender.sendFileItem_error t hs₁.sends hp]
        exact ⟨rfl,hout hs₁ _⟩
    | ok packet =>
      rw [Sender.sendFileItem_ok t hs₁.sends hp, Run.bind_done]
      have htag : goOn u stop (.tag k) h₁ = .done (some (.header k)) h₁ := by
        simp [goOn, file_apply hf₁, hp, Except.map, calling, hc₁]
      have hopening : ∀ r, LeadsTo u stop (goOn u stop (.opening k) h₁) r →
          LeadsTo u stop (.done (some (.tag k)) h₁) r := by
        refine fun r hr => .goOn ?_
        rw [htag]
        exact .goOn (.goOn hr)
      by_cases hc : f.contents = []
      · refine ⟨.raised .valueError h₁,hopening _ ?_,?_⟩
        · have he : (Raised.exception .valueError).pauses = false := rfl
          have hempty : goOn u stop (.opening k) h₁ = .raised .valueError h₁ := by
            simp [goOn, file_apply hf₁, statusSetup_int f.size_fits, hc, handleException_raised he]
          rw [hempty]
          exact .raised _ h₁
        · rw [Sender.sendOneFile_empty f k _ hc]
          exact ⟨rfl,hout hs₁ _⟩
      · obtain ⟨s',h',g,hloop,hs',hg,hleads⟩ :=
          @leadsTo_chunkLoop u stop _ _ (hout hs₁ (t.out ++ 1::packet)) k f hf₁ f.seeked
        have hone : Sender.sendOneFile k f { t with out := t.out ++ 1::packet } = .done () s' := by
          simp only [Sender.sendOneFile, Coro.tryCatch_apply, Coro.bind_apply, statusSetup_int f.size_fits,
            Coro.ofExcept_ok, Run.bind_done, Sender.sendActualFile, if_neg hc, hloop, Run.handle_done]
        have hdrop : s'.fileList.drop (k+1) = fs := by
          rw [hg, List.drop_modify_of_lt _ _ _ _ (Nat.lt_succ_self k)]
          exact hfs
        have hlength : stop = s'.fileList.length := by
          rw [hg, List.length_modify]
          exact hstop
        obtain ⟨r,hr,hend⟩ := ih hs' hdrop hlength
        refine ⟨r,hopening r ?_,?_⟩
        · rw [goOn_opening hf₁ hc]
          exact hleads r hr
        · rw [hone, Run.bind_done]
          exact hend

/-- Left alone, the task does what the whole of `send_files` does. -/
theorem sendFiles_leftAlone (u : Umsgpack) (hs : LeftAlone s h) :
    ∃ stop p h' r, sendFiles h = .done (stop,p) h' ∧ LeadsTo u stop (.done p h') r ∧
      SameEnd (Sender.sendFiles u s) r := by
  have hs' : LeftAlone (s.setState .sending) (h.setState .sending) :=
    ⟨rfl,hs.fileList,hs.currentFileIndex,hs.toStop,hs.connectionMade,hs.stopAfter,hs.sends⟩
  obtain ⟨r,hr,hend⟩ := leadsTo_sendLoop (u := u) hs' (k := s.currentFileIndex) rfl rfl
  have hwhole : Sender.sendFiles u s = (Sender.sendLoop u
      ((s.fileList.drop s.currentFileIndex).zipIdx s.currentFileIndex) (s.setState .sending)).bind
        fun _ => behindLoop := by
    rw [← drop_zipIdx]
    rfl
  rw [hwhole]
  have hnext : ∃ p h', nextFile h.fileList.length h.currentFileIndex (h.setState .sending) =
      .done p h' := by
    by_cases hlt : h.currentFileIndex < h.fileList.length
    · exact ⟨_,_,nextFile_of_lt hs' hlt⟩
    · exact ⟨_,_,nextFile_of_le hs' (not_lt.mp hlt)⟩
  obtain ⟨p,h',hp⟩ := hnext
  refine ⟨h.fileList.length,p,h',r,?_,?_,hend⟩
  · have hstart : sendFiles h = (nextFile h.fileList.length h.currentFileIndex (h.setState .sending)).bind
        fun p h' => .done (h.fileList.length,p) h' := rfl
    rw [hstart, hp, Run.bind_done]
  · rw [← hp, hs.fileList, hs.currentFileIndex]
    exact hr

end LeftAlone

end SenderHandle
end PeerConnect.Transfers
