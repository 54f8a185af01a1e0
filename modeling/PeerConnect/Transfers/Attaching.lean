import PeerConnect.Transfers.SenderRun
import PeerConnect.Transfers.Segmentation
import PeerConnect.Library.Simulation

/-! A sender to which files are attached while it runs: what else calls it does so where it awaits. -/
namespace PeerConnect.Transfers
open Library Wire

/-- The calls others make on a running sender. -/
inductive Event
  | attach (paths : List LocalFile)
  | pause
  | resume

/-- A running sender, and the calls made on it at each of the coming points where it awaits. -/
structure Attaching where
  sender : Sender
  events : List (List Event)

namespace Sender

def attachFiles (pathsList : List LocalFile) (s : Sender) : Except Exn Sender :=
  if s.state ≠ .paused ∧ s.state ≠ .sending then .error .invalidStateError
  else .ok { s with fileList := s.fileList ++ pathsList.map (LocalFile.setSeeked 0) }

/-- `pause`, which closes the limiters of the connection as well. -/
def pause (s : Sender) : Sender := s.setState .paused

def resume (s : Sender) : Sender := if s.state ≠ .paused then s else s.setState .sending

end Sender

/-- A call that raises has changed nothing. -/
def Event.apply (s : Sender) : Event → Sender
  | attach paths => match s.attachFiles paths with
    | .ok s' => s'
    | .error _ => s
  | pause => s.pause
  | resume => s.resume

/-- The files a call attaches. -/
def Event.files : Event → List LocalFile
  | attach paths => paths
  | pause | resume => []

namespace Attaching

def onSender {α : Type} (x : Coro Exn Sender α) : Coro Exn Attaching α :=
  Coro.zoom Attaching.sender (fun s a => { a with sender := s }) id x

/-- What happens while the sender awaits. -/
def meanwhile : Coro Exn Attaching Unit := Coro.modify fun a =>
  match a.events with
  | [] => a
  | calls::later => ⟨calls.foldl Event.apply a.sender,later⟩

/-- `await self._limiter.wait()`, which waits for as long as the sender is paused. -/
def limiterWait (s : Sender) : List (List Event) → Run Exn Attaching Unit
  | [] => if s.state = .paused then .blocked ⟨s,[]⟩ else .done () ⟨s,[]⟩
  | calls::later =>
    if s.state = .paused then limiterWait (calls.foldl Event.apply s) later
    else .done () ⟨s,calls::later⟩

def sendFunc (data : Bytes) : Coro Exn Attaching Unit := do
  (fun a => limiterWait a.sender a.events : Coro Exn Attaching Unit)
  onSender (Sender.sendFunc data)
  meanwhile

def handleException {α : Type} (e : Exn) : Coro Exn Attaching α :=
  onSender (Sender.handleException e)

def sendFileItem (u : Umsgpack) (f : LocalFile) : Coro Exn Attaching Unit :=
  Coro.tryCatch
    (do
      sendFunc [1]
      let packet ← Coro.ofExcept (Sender.filePacket u f)
      sendFunc packet)
    handleException

/-- The loop of `send_actual_file`, which awaits the chunk that is read, and in its consumers. -/
def chunkLoop (index : ℕ) (contents : Bytes) (chunkSize : ℕ) : List ℕ → Coro Exn Attaching Unit
  | [] => pure ()
  | offset::offsets => do
    let chunk := slice contents offset (offset+chunkSize)
    meanwhile
    sendFunc chunk
    onSender (Coro.modify (Sender.setSeeked index (offset+chunk.length)))
    let stopped ← onSender Sender.toStop
    if stopped then pure ()
    else do
      meanwhile
      chunkLoop index contents chunkSize offsets

def sendActualFile (index : ℕ) (f : LocalFile) : Coro Exn Attaching Unit :=
  if f.contents = [] then Coro.raise .valueError
  else
    let chunkSize := calculateChunkSize f.size
    chunkLoop index f.contents chunkSize (steps f.seeked f.size chunkSize)

def sendOneFile (index : ℕ) (f : LocalFile) : Coro Exn Attaching Unit :=
  Coro.tryCatch
    (do
      Coro.ofExcept (statusSetup (.int f.seeked) (.int f.size))
      sendActualFile index f)
    handleException

def sendLoop (u : Umsgpack) : List (LocalFile × ℕ) → Coro Exn Attaching Unit
  | [] => pure ()
  | (f,index)::rest => do
    let stopped ← onSender Sender.toStop
    if stopped then pure ()
    else do
      onSender (Coro.modify fun s => { s with currentFileIndex := index })
      sendFileItem u f
      sendOneFile index f
      sendLoop u rest

/-- The range of the loop is that of the list it starts with. -/
def sendFiles (u : Umsgpack) : Coro Exn Attaching Unit := do
  onSender (Coro.modify (Sender.setState .sending))
  let files ← onSender (Coro.get fun s => s.fileList.zipIdx.drop s.currentFileIndex)
  sendLoop u files
  Coro.tryCatch (sendFunc [0]) handleException
  onSender (Coro.modify (Sender.setState .completed))

/-- The files attached by some calls. -/
def attached (events : List (List Event)) : List LocalFile := events.flatten.flatMap Event.files

/-- A sender left alone and one with some files attached have written the same so far. -/
structure Same (more : List LocalFile) (s t : Sender) : Prop where
  out : t.out = s.out
  sends : t.sends = s.sends
  stopAfter : t.stopAfter = s.stopAfter
  files : t.fileList.map (LocalFile.setSeeked 0) =
    s.fileList.map (LocalFile.setSeeked 0) ++ more.map (LocalFile.setSeeked 0)
  active : t.state = .sending ∨ t.state = .paused

/-- The sender runs like one left alone, with the files attached that the calls so far have brought. -/
def Alike (events : List (List Event)) (s : Sender) (a : Attaching) : Prop :=
  ∃ gone, events = gone ++ a.events ∧ Same (attached gone) s a.sender

section Simulation
open Coro

variable {events : List (List Event)} {s t : Sender} {a a' : Attaching} {more : List LocalFile}

theorem Same.setState (h : Same more s t) {st : TransferState} (hst : st = .sending ∨ st = .paused) :
    Same more s (t.setState st) :=
  ⟨h.out,h.sends,h.stopAfter,h.files,hst⟩

theorem same_apply (h : Same more s t) (e : Event) : Same (more ++ e.files) s (e.apply t) := by
  cases e with
  | attach paths =>
    have hactive : ¬ (t.state ≠ .paused ∧ t.state ≠ .sending) := by
      rcases h.active with hs | hs <;> simp [hs]
    have happly : (Event.attach paths).apply t =
        { t with fileList := t.fileList ++ paths.map (LocalFile.setSeeked 0) } := by
      simp [Event.apply, Sender.attachFiles, if_neg hactive]
    rw [happly]
    refine ⟨h.out,h.sends,h.stopAfter,?_,h.active⟩
    rw [List.map_append, h.files, Event.files, List.map_append, List.map_map, List.append_assoc]
    rfl
  | pause =>
    rw [Event.files, List.append_nil]
    exact h.setState (.inr rfl)
  | resume =>
    rw [Event.files, List.append_nil]
    by_cases hp : t.state = .paused
    · simpa only [Event.apply, Sender.resume, hp, ne_eq, not_true_eq_false, if_false] using
        h.setState (.inl rfl)
    · simpa only [Event.apply, Sender.resume, ne_eq, hp, not_false_eq_true, if_true] using h

theorem same_foldl (h : Same more s t) (calls : List Event) :
    Same (more ++ calls.flatMap Event.files) s (calls.foldl Event.apply t) := by
  induction calls generalizing more t with
  | nil => simpa using h
  | cons e calls ih => simpa using ih (same_apply h e)

/-- The calls of one point where the sender awaits. -/
theorem Alike.calls {calls : List Event} {later : List (List Event)}
    (h : Alike events s ⟨t,calls::later⟩) :
    Alike events s ⟨calls.foldl Event.apply t,later⟩ := by
  obtain ⟨gone,he,hsame⟩ := h
  refine ⟨gone ++ [calls],by rw [he]; simp,?_⟩
  have hone := same_foldl hsame calls
  rwa [show attached (gone ++ [calls]) = attached gone ++ calls.flatMap Event.files by
    simp [attached]]

theorem alike_meanwhile {x : Unit} (h : Alike events s a) (hr : meanwhile a = .done x a') :
    Alike events s a' := by
  cases hr
  obtain ⟨t,later⟩ := a
  cases later with
  | nil => exact h
  | cons calls later => exact h.calls

theorem alike_limiterWait {x : Unit} (h : Alike events s a)
    (hr : limiterWait a.sender a.events = .done x a') : Alike events s a' := by
  obtain ⟨t,later⟩ := a
  induction later generalizing t with
  | nil =>
    simp only [limiterWait] at hr
    split at hr
    · cases hr
    · cases hr
      exact h
  | cons calls later ih =>
    simp only [limiterWait] at hr
    split at hr
    · exact ih _ h.calls hr
    · cases hr
      exact h

/-- What the sender does by itself. -/
theorem simulates_onSender {α : Type} {x : Coro Exn Sender α}
    (h : ∀ more, Simulates (Same more) x x) : Simulates (Alike events) x (onSender x) := by
  intro s a v a' hst hr
  obtain ⟨gone,he,hsame⟩ := hst
  simp only [onSender, zoom_apply] at hr
  cases hx : x a.sender with
  | done w t =>
    rw [hx, Run.within_done, Run.done.injEq] at hr
    obtain ⟨rfl,rfl⟩ := hr
    obtain ⟨s',hs',hsame'⟩ := h _ _ _ _ _ hsame hx
    exact ⟨s',hs',gone,he,hsame'⟩
  | raised e t => rw [hx] at hr; cases hr
  | blocked t => rw [hx] at hr; cases hr

theorem same_sendFunc (more : List LocalFile) (data : Bytes) :
    Simulates (Same more) (Sender.sendFunc data) (Sender.sendFunc data) := by
  intro s t v t' h hr
  unfold Sender.sendFunc at hr ⊢
  rw [h.sends] at hr
  cases hs : s.sends with
  | none =>
    rw [hs] at hr
    cases hr
    exact ⟨_,rfl,by rw [h.out],rfl,h.stopAfter,h.files,h.active⟩
  | some n =>
    rw [hs] at hr
    cases n with
    | zero => cases hr
    | succ n =>
      cases hr
      exact ⟨_,rfl,by rw [h.out],rfl,h.stopAfter,h.files,h.active⟩

theorem same_toStop (more : List LocalFile) :
    Simulates (Same more) Sender.toStop Sender.toStop := by
  intro s t v t' h hr
  unfold Sender.toStop at hr ⊢
  rw [h.stopAfter] at hr
  cases hs : s.stopAfter with
  | none =>
    rw [hs] at hr
    cases hr
    exact ⟨s,rfl,h⟩
  | some n =>
    rw [hs] at hr
    cases n with
    | zero =>
      cases hr
      exact ⟨s,rfl,h⟩
    | succ n =>
      cases hr
      exact ⟨_,rfl,h.out,h.sends,rfl,h.files,h.active⟩

theorem map_setSeeked_modify (files : List LocalFile) (index n : ℕ) :
    (files.modify index (LocalFile.setSeeked n)).map (LocalFile.setSeeked 0) =
      files.map (LocalFile.setSeeked 0) := by
  refine List.ext_getElem? fun i => ?_
  rw [List.getElem?_map, List.getElem?_map, List.getElem?_modify]
  cases files[i]? with
  | none => rfl
  | some f => split <;> rfl

theorem same_setSeeked (more : List LocalFile) (index n : ℕ) :
    Simulates (Same more) (Coro.modify (Sender.setSeeked index n) : Coro Exn Sender Unit)
      (Coro.modify (Sender.setSeeked index n) : Coro Exn Sender Unit) :=
  .modify fun h => ⟨h.out,h.sends,h.stopAfter,by
    simp only [Sender.setSeeked, map_setSeeked_modify]; exact h.files,h.active⟩

theorem simulates_sendFunc (data : Bytes) :
    Simulates (Alike events) (Sender.sendFunc data) (sendFunc data) :=
  .before alike_limiterWait (.after (simulates_onSender fun more => same_sendFunc more data)
    alike_meanwhile)

theorem handleException_ne_done {α : Type} (e : Exn) (a : Attaching) (v : α) (a' : Attaching) :
    handleException e a ≠ .done v a' := by
  unfold handleException Sender.handleException Transfers.handleException onSender
  split <;> simp

theorem simulates_sendFileItem (u : Umsgpack) (f : LocalFile) :
    Simulates (Alike events) (Sender.sendFileItem u f) (sendFileItem u f) :=
  .tryCatch
    (.bind (simulates_sendFunc [1]) fun _ => .bind (.ofExcept _) fun packet =>
      simulates_sendFunc packet)
    handleException_ne_done

theorem simulates_chunkLoop (index : ℕ) (contents : Bytes) (chunkSize : ℕ) (offsets : List ℕ) :
    Simulates (Alike events) (Sender.chunkLoop index contents chunkSize offsets)
      (chunkLoop index contents chunkSize offsets) := by
  induction offsets with
  | nil => exact .pure ()
  | cons offset offsets ih =>
    exact .before alike_meanwhile (.bind (simulates_sendFunc _) fun _ =>
      .bind (simulates_onSender fun more => same_setSeeked more _ _) fun _ =>
        .bind (simulates_onSender same_toStop) fun stopped =>
          .ite (fun _ => .pure ()) fun _ => .before alike_meanwhile ih)

theorem simulates_sendOneFile (index : ℕ) (f : LocalFile) :
    Simulates (Alike events) (Sender.sendOneFile index f) (sendOneFile index f) :=
  .tryCatch
    (.bind (.ofExcept _) fun _ => .ite (fun _ => .raise _ _) fun _ =>
      simulates_chunkLoop index f.contents _ _)
    handleException_ne_done

theorem simulates_sendLoop (u : Umsgpack) (files : List (LocalFile × ℕ)) :
    Simulates (Alike events) (Sender.sendLoop u files) (sendLoop u files) := by
  induction files with
  | nil => exact .pure ()
  | cons entry files ih =>
    exact .bind (simulates_onSender same_toStop) fun stopped => .ite (fun _ => .pure ()) fun _ =>
      .bind (simulates_onSender fun more => .modify fun h =>
        ⟨h.out,h.sends,h.stopAfter,h.files,h.active⟩) fun _ =>
        .bind (simulates_sendFileItem u _) fun _ => .bind (simulates_sendOneFile _ _) fun _ => ih

end Simulation

/-- A new sender of some files, and the calls that will be made on it. -/
def start (files : List LocalFile) (events : List (List Event)) : Attaching :=
  ⟨Sender.init files none,events⟩

theorem transmit_files (u : Umsgpack) (stop : Option ℕ) (files : List LocalFile) :
    (Sender.transmit u stop files).files.map (LocalFile.setSeeked 0) =
      files.map (LocalFile.setSeeked 0) := by
  induction files generalizing stop with
  | nil => rfl
  | cons f files ih =>
    unfold Sender.transmit
    split
    · rfl
    · split
      · rfl
      · split
        · rfl
        · simp only [List.map_cons, ih]
          rfl

/-- What is written for a file: tag, header and contents. -/
def fileRecord (u : Umsgpack) (f : LocalFile) : Bytes :=
  1::(match Sender.filePacket u (f.setSeeked 0) with
    | .ok packet => packet
    | .error _ => []) ++ f.contents

theorem flatMap_fileRecord (u : Umsgpack) (files : List LocalFile) :
    (files.map (LocalFile.setSeeked 0)).flatMap (fileRecord u) = files.flatMap (fileRecord u) := by
  rw [List.flatMap_map]
  rfl

theorem transmit_written {u : Umsgpack} {files : List LocalFile}
    (h : (Sender.transmit u none (files.map (LocalFile.setSeeked 0))).error = none) :
    (Sender.transmit u none (files.map (LocalFile.setSeeked 0))).written =
      files.flatMap (fileRecord u) := by
  have hnone : (none : Option ℕ) ≠ some 0 := by simp
  induction files with
  | nil => rfl
  | cons f files ih =>
    rw [List.map_cons] at h ⊢
    cases hp : Sender.filePacket u (f.setSeeked 0) with
    | error e =>
      rw [Sender.transmit_unpacked hnone hp] at h
      cases h
    | ok packet =>
      by_cases hc : f.contents = []
      · rw [Sender.transmit_empty hnone hp hc] at h
        cases h
      · rw [Sender.transmit_contents hnone hp hc _ rfl] at h ⊢
        simp only [Option.map_none, ih h, cutOff, List.flatMap_cons, fileRecord, hp]
        rfl

/-- A run that completes has written what it would have written left alone, and its list has the files
attached behind those it started with. -/
theorem sendFiles_done {u : Umsgpack} {files : List LocalFile} {events : List (List Event)}
    {a : Attaching} (h : sendFiles u (start files events) = .done () a) :
    a.sender.out = files.flatMap (fileRecord u) ++ [0] ∧ a.sender.state = .completed ∧
      ∃ gone, events = gone ++ a.events ∧ a.sender.fileList.map (LocalFile.setSeeked 0) =
        (files ++ attached gone).map (LocalFile.setSeeked 0) := by
  set s₀ := (Sender.init files none).setState .sending with hs₀
  set range := s₀.fileList.zipIdx.drop s₀.currentFileIndex with hrange
  have hsim : Coro.Simulates (Alike events)
      (do Sender.sendLoop u range; Coro.tryCatch (Sender.sendFunc [0]) Sender.handleException)
      (do sendLoop u range; Coro.tryCatch (sendFunc [0]) handleException) :=
    .bind (simulates_sendLoop u range) fun _ => .tryCatch (simulates_sendFunc [0])
      handleException_ne_done
  have halike : Alike events s₀ ⟨s₀,events⟩ :=
    ⟨[],rfl,rfl,rfl,rfl,by simp [attached],.inl rfl⟩
  have hrun : sendFiles u (start files events) =
      ((sendLoop u range ⟨s₀,events⟩).bind fun _ a =>
        Coro.tryCatch (sendFunc [0]) handleException a).bind fun _ a =>
          .done () { a with sender := a.sender.setState .completed } := by
    show (sendLoop u range ⟨s₀,events⟩).bind _ = _
    cases sendLoop u range ⟨s₀,events⟩ <;> rfl
  rw [hrun] at h
  obtain ⟨_,a₁,ha₁,h⟩ := Run.bind_eq_done h
  obtain ⟨s₁,hs₁,gone,hgone,hsame⟩ := hsim _ _ _ _ halike ha₁
  cases h
  have halone : Sender.sendFiles u (Sender.init files none) = .done () (s₁.setState .completed) := by
    have hrun : Sender.sendFiles u (Sender.init files none) =
        ((Sender.sendLoop u range s₀).bind fun _ s =>
          Coro.tryCatch (Sender.sendFunc [0]) Sender.handleException s).bind fun _ s =>
            .done () (s.setState .completed) := by
      show (Sender.sendLoop u range s₀).bind _ = _
      cases Sender.sendLoop u range s₀ <;> rfl
    rw [hrun]
    exact congrArg (Run.bind · fun _ s => .done () (s.setState .completed)) hs₁
  obtain ⟨s₂,hrun₂,hfiles,hout,_⟩ := Sender.sendFiles_transmit u files none
  rw [halone] at hrun₂
  cases he : (Sender.transmit u none (files.map (LocalFile.setSeeked 0))).error with
  | some e => rw [he] at hrun₂; cases hrun₂
  | none =>
    rw [he] at hrun₂ hout
    cases hrun₂
    refine ⟨?_,rfl,gone,hgone,?_⟩
    · rw [if_pos rfl, transmit_written he] at hout
      exact hsame.out.trans hout
    · show a₁.sender.fileList.map _ = _
      rw [hsame.files, show s₁.fileList = _ from hfiles, transmit_files, List.map_append, List.map_map]
      rfl

/-- The records of all files of the final list have been written, each once, and nothing else before the
end tag. -/
def AllWritten (u : Umsgpack) (s : Sender) : Prop :=
  ∃ order : List LocalFile, order.Perm s.fileList ∧ s.out = order.flatMap (fileRecord u) ++ [0]

theorem attached_eq_nil_iff {events : List (List Event)} :
    attached events = [] ↔ ∀ calls ∈ events, ∀ e ∈ calls, e.files = [] := by
  simp only [attached, List.flatMap_eq_nil_iff, List.mem_flatten]
  constructor
  · exact fun h calls hc e he => h e ⟨calls,hc,he⟩
  · rintro h e ⟨calls,hc,he⟩
    exact h calls hc e he

/-- Nothing has been written of what comes while the files are being sent. -/
theorem none_attached_of_allWritten {u : Umsgpack} {files : List LocalFile} {events : List (List Event)}
    {s : Sender} (h : sendFiles u (start files events) = .done () ⟨s,[]⟩) (hall : AllWritten u s) :
    attached events = [] := by
  obtain ⟨hout,_,gone,hgone,hfiles⟩ := sendFiles_done h
  rw [List.append_nil] at hgone
  subst hgone
  obtain ⟨order,hperm,horder⟩ := hall
  have hlen := congrArg List.length (List.append_cancel_right (horder.symm.trans hout))
  have hsum : (order.flatMap (fileRecord u)).length =
      (files.flatMap (fileRecord u)).length + ((attached events).flatMap (fileRecord u)).length := by
    rw [(hperm.flatMap_right (fileRecord u)).length_eq, ← flatMap_fileRecord, hfiles,
      flatMap_fileRecord, List.flatMap_append, List.length_append]
  have hempty : (attached events).flatMap (fileRecord u) = [] :=
    List.length_eq_zero_iff.mp (by omega)
  refine List.eq_nil_iff_forall_not_mem.mpr fun f hf => ?_
  have := List.flatMap_eq_nil_iff.mp hempty f hf
  simp [fileRecord] at this

/-- All files of the final list have been written exactly if none has been attached: the range of the
loop is fixed before the first of them can come. -/
theorem all_written_iff_none_attached (u : Umsgpack) (files : List LocalFile)
    (events : List (List Event)) (s : Sender)
    (h : sendFiles u (start files events) = .done () ⟨s,[]⟩) :
    AllWritten u s ↔ ∀ calls ∈ events, ∀ e ∈ calls, e.files = [] := by
  rw [← attached_eq_nil_iff]
  refine ⟨none_attached_of_allWritten h,fun hempty => ?_⟩
  obtain ⟨hout,_,gone,hgone,hfiles⟩ := sendFiles_done h
  rw [List.append_nil] at hgone
  subst hgone
  refine ⟨s.fileList,.refl _,?_⟩
  rw [hempty, List.append_nil] at hfiles
  rw [hout, ← flatMap_fileRecord u s.fileList, hfiles, flatMap_fileRecord]

/-- A file `a` of one byte. -/
def fileA : LocalFile := ⟨nameA,[7],0,by decide⟩

/-- While it is being sent, some files are attached. -/
theorem sendFiles_attach (paths : List LocalFile) :
    ∃ s, sendFiles codecA (start [fileA] [[.attach paths]]) = .done () ⟨s,[]⟩ := ⟨_,rfl⟩

/-- With nothing in the list attached, the one file has been written. -/
theorem all_written_attach_nil : ∃ s,
    sendFiles codecA (start [fileA] [[.attach []],[.pause,.resume]]) = .done () ⟨s,[]⟩ ∧
      AllWritten codecA s := by
  obtain ⟨s,hs⟩ : ∃ s, sendFiles codecA (start [fileA] [[.attach []],[.pause,.resume]]) =
      .done () ⟨s,[]⟩ := ⟨_,rfl⟩
  refine ⟨s,hs,(all_written_iff_none_attached codecA [fileA] _ s hs).mpr fun calls hc e he => ?_⟩
  rcases List.mem_cons.mp hc with rfl | hc
  · rw [List.mem_singleton.mp he]
    rfl
  · rw [List.mem_singleton.mp hc] at he
    cases e with
    | attach paths => simp at he
    | pause => rfl
    | resume => rfl

/-- A file attached while another one is being sent is dropped. -/
theorem attached_dropped :
    ¬ ∀ (u : Umsgpack) (files : List LocalFile) (events : List (List Event)) (s : Sender),
      sendFiles u (start files events) = .done () ⟨s,[]⟩ → AllWritten u s := by
  intro h
  obtain ⟨s,hs⟩ := sendFiles_attach [fileA]
  have hnone := none_attached_of_allWritten hs (h _ _ _ _ hs)
  cases hnone

end Attaching
end PeerConnect.Transfers
