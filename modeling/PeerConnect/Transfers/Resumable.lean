import PeerConnect.Transfers.ReceivingTask
import PeerConnect.Transfers.Resume
import PeerConnect.Library.Run

/-! What a reception that is interrupted leaves behind: whether `continue_transfer` can take it up. -/
namespace PeerConnect.Transfers
open Library Wire FileSystem Receiver

/-- What happens to a receiver: it goes on with what its connection has, or `recv` raises an
`OSError`. -/
inductive Incoming
  | goOn (s : Source UInt8)
  | fails (e : Exn) (os : e.isOSError = true)

/-- A run of `recv_files`, with the numbers of bytes that it has written, each with its file item, with
the offset in the last header, and with whether its stream has ended in the contents of a file. -/
structure Receiving where
  world : World
  stage : RecvStage
  writes : List (ℕ × ℕ) := []
  offset : Option Value := none
  cutShort : Bool := false

namespace RecvPoint

def writes : RecvPoint → List (ℕ × ℕ)
  | writing index _ data => [(index,data.length)]
  | _ => []

/-- `recv` returns nothing where contents are missing. -/
def cutShort (s : Source UInt8) : RecvPoint → Bool
  | contents _ _ => s.pending = [] ∧ s.ending = .closed
  | _ => false

end RecvPoint

namespace Receiving

/-- The number of bytes that have been written for a file item. -/
def written (writes : List (ℕ × ℕ)) (index : ℕ) : ℕ :=
  ((writes.filter fun x => x.1 = index).map Prod.snd).sum

variable (u : Umsgpack)

def proceed (run : Run Exn World (Option RecvPoint)) (r : Receiving) : Receiving :=
  { r with world := run.state, stage := r.stage.next run }

def step (r : Receiving) (i : Incoming) : Receiving :=
  match r.stage, i with
  | .ended _, _ => r
  | .waiting p, .goOn s =>
    let w := { r.world with source := s }
    { r with
      writes := r.writes ++ p.writes
      offset := ((Task.header? u w p).map FileItem.seeked).or r.offset
      cutShort := r.cutShort || p.cutShort s }.proceed (Task.goOn u false p w)
  | .waiting p, .fails e _ =>
    r.proceed ((Task.interrupt p (.exception e) r.world).bind fun _ w => .done (some p) w)

/-- `recv_files` of a new receiver that has its connection. -/
def start (downloadPath : Path) (fs : FileSystem) : Receiving :=
  let w := World.start downloadPath fs [] .silent Cut.whole
  { world := w, stage := .ended none : Receiving }.proceed (Task.recvFiles w)

/-- `continue_transfer` accepts it, and its offset is the number of bytes that have been written. -/
def Resumable (r : Receiving) : Prop :=
  r.world.rx.state = .paused ∧ ∀ item ∈ r.world.rx.currentFile,
    item.seeked.equals (written r.writes r.world.rx.earlier.length)

theorem written_append (writes : List (ℕ × ℕ)) (index index' n : ℕ) :
    written (writes ++ [(index',n)]) index =
      written writes index + if index' = index then n else 0 := by
  unfold written
  by_cases h : index' = index <;> simp [h]

/-- Nothing has been written for an item that is new. -/
theorem written_eq_zero {writes : List (ℕ × ℕ)} {index : ℕ} (h : ∀ x ∈ writes, x.1 < index) :
    written writes index = 0 := by
  have : (writes.filter fun x => x.1 = index) = [] := by
    refine List.filter_eq_nil_iff.mpr fun x hx => ?_
    have := h x hx
    simp only [decide_eq_true_eq]
    omega
  simp [written, this]

/-- An offset that has been counted on from the one in the header. -/
def Counts (v : Value) (n : ℕ) (seeked : Value) : Prop :=
  n = 0 ∧ seeked = v ∨ ∃ k, v.int? = some k ∧ seeked = .int (k+n)

theorem Counts.add {v seeked : Value} {n : ℕ} (h : Counts v n seeked) (hv : v.int? ≠ none) (m : ℕ) :
    Counts v (n+m) (.int (seeked.int?.getD 0 + m)) := by
  obtain ⟨k,hk⟩ := Option.ne_none_iff_exists'.mp hv
  refine .inr ⟨k,hk,?_⟩
  rcases h with ⟨rfl,rfl⟩ | ⟨k',hk',rfl⟩
  · simp [hk]
  · obtain rfl : k = k' := by simpa [hk] using hk'
    simp [Value.int?, add_assoc]

/-- It is the number of bytes written just if it has been counted from zero. -/
theorem Counts.equals_iff {v seeked : Value} {n : ℕ} (h : Counts v n seeked) :
    seeked.equals n = true ↔ v.isZero = true := by
  rcases h with ⟨rfl,rfl⟩ | ⟨k,hk,rfl⟩
  · rw [Nat.cast_zero, Value.equals_zero]
  · have hzero : v.isZero = true ↔ k = 0 := by
      cases v with
      | int m => cases hk; simp [Value.isZero]
      | bool b => cases hk; cases b <;> simp [Value.isZero]
      | _ => cases hk
    rw [hzero]
    simp [Value.equals]

/-- The offset of the current file has been counted on from the one in its header. -/
structure Counted (rx : Receiver) (writes : List (ℕ × ℕ)) (offset : Option Value) : Prop where
  counts : Option.Rel (fun item v => Counts v (written writes rx.earlier.length) item.seeked)
    rx.currentFile offset
  older : ∀ x ∈ writes, x.1 < rx.fileItems.length

/-- The current file is open, and what remains of it is missing. -/
def Open (rx : Receiver) (offset : Option Value) (index : ℕ) (r : Reception) : Prop :=
  index = rx.earlier.length ∧ 0 < r.chunkSize ∧
    ∃ item ∈ rx.currentFile, r.remainingBytes = Task.gap item ∧ ∀ v ∈ offset, v.int? ≠ none

/-- What holds where a receiver is suspended that has its connection. -/
def At (rx : Receiver) (offset : Option Value) : RecvPoint → Prop
  | .contents index r => Open rx offset index r ∧ 0 < r.remainingBytes
  | .writing index r _ | .yielded index r => Open rx offset index r
  | .tag | .length | .header _ => True
  | .connecting | .reconnecting | .syncing _ => False

structure Waits (rx : Receiver) (writes : List (ℕ × ℕ)) (offset : Option Value) (p : RecvPoint) :
    Prop where
  state : rx.state = .receiving
  running : rx.toStop = false
  counted : Counted rx writes offset
  point : At rx offset p

/-- What an incomplete transfer leaves behind. -/
structure Left (rx : Receiver) (writes : List (ℕ × ℕ)) (offset : Option Value) (cutShort : Bool) :
    Prop where
  counted : Counted rx writes offset
  paused : rx.state = .paused ↔ cutShort = false

def Sound (r : Receiving) : Prop :=
  match r.stage with
  | .waiting p => Waits r.world.rx r.writes r.offset p ∧ r.cutShort = false
  | .ended (some .transferIncomplete) => Left r.world.rx r.writes r.offset r.cutShort
  | .ended _ => True

/-- What a step that is sound comes to. -/
def Leads (writes : List (ℕ × ℕ)) (offset : Option Value) (cutShort : Bool) (p : RecvPoint) :
    Run Exn World (Option RecvPoint) → Prop
  | .done (some q) w => Waits w.rx writes offset q ∧ cutShort = false
  | .done none _ => True
  | .raised e w => e = .transferIncomplete → Left w.rx writes offset cutShort
  | .blocked w => Waits w.rx writes offset p ∧ cutShort = false

theorem Leads.sound {r : Receiving} {p : RecvPoint} (hp : r.stage = .waiting p)
    {run : Run Exn World (Option RecvPoint)} (h : Leads r.writes r.offset r.cutShort p run) :
    Sound (r.proceed run) := by
  cases run with
  | done q w =>
    cases q with
    | some q => exact h
    | none => trivial
  | raised e w =>
    by_cases he : e = .transferIncomplete
    · subst he
      exact h rfl
    · cases e <;> first | exact absurd rfl he | trivial
  | blocked w =>
    simp only [Sound, proceed, RecvStage.next, hp]
    exact h

section Steps
variable {u : Umsgpack} {w : World} {writes : List (ℕ × ℕ)} {offset : Option Value} {p q : RecvPoint}

theorem leads_nextFile (h : Waits w.rx writes offset p) (q : RecvPoint) :
    Leads writes offset false q (Task.nextFile false w) := by
  rw [Task.nextFile_running false h.running]
  exact ⟨⟨h.state,h.running,h.counted,trivial⟩,rfl⟩

/-- What is handled leaves the handle paused if the transfer is incomplete. -/
theorem Waits.paused (h : Waits w.rx writes offset p) {w' : World}
    (hrx : w'.rx = { w.rx with state := .paused }) : Left w'.rx writes offset false := by
  refine ⟨⟨?_,?_⟩,?_⟩
  · rw [hrx]; exact h.counted.counts
  · rw [hrx]; exact h.counted.older
  · rw [hrx]; simp

theorem leads_handled {α : Type} {x : Coro Exn World α} {run : Run Exn World α}
    (h : Waits w.rx writes offset p) (hx : Task.Handled x w run)
    {f : α → World → Run Exn World (Option RecvPoint)}
    (hf : ∀ a w', x w = .done a w' → w'.rx = w.rx → Leads writes offset false p (f a w')) :
    Leads writes offset false p (run.bind f) := by
  cases hx with
  | done a w' hr hrx => exact hf a w' hr hrx
  | paused w' hrx => exact fun _ => h.paused hrx
  | raised e w' he hrx =>
    rintro rfl
    cases he
  | blocked w' hr hrx =>
    rw [← hrx] at h
    exact ⟨h,rfl⟩

theorem Open.gap {rx : Receiver} {index : ℕ} {r : Reception} (h : Open rx offset index r) :
    ∃ item, rx.currentFile = some item ∧ r.remainingBytes = Task.gap item := by
  obtain ⟨_,_,item,hitem,hgap,_⟩ := h
  exact ⟨item,hitem,hgap⟩

theorem leads_nextChunk {index : ℕ} {r : Reception} (h : Waits w.rx writes offset q)
    (hopen : Open w.rx offset index r) :
    Leads writes offset false p (Task.nextChunk false index r w) := by
  unfold Task.nextChunk
  rw [Coro.ite_apply]
  split
  next hr => exact ⟨⟨h.state,h.running,h.counted,hopen,hr⟩,rfl⟩
  next hr =>
    obtain ⟨item,hitem,hgap⟩ := hopen.gap
    rw [Task.endOfContents_apply false hitem, if_neg (by omega)]
    exact leads_nextFile h p

/-- The current file once some bytes of it have been written. -/
theorem Waits.wrote {index : ℕ} {r : Reception} {data : Bytes}
    (h : Waits w.rx writes offset (.writing index r data)) :
    Waits (w.writeItem index r data).rx (writes ++ [(index,data.length)]) offset
      (.yielded index (r.wrote data.length)) := by
  obtain ⟨hindex,hchunk,item,hitem,hgap,hint⟩ := h.point
  have hitem : w.rx.currentFile = some item := hitem
  have hrx : (w.writeItem index r data).rx =
      { w.rx with currentFile := some (World.addSeeked data.length item) } := by
    simp [World.writeItem, World.updateItem, hindex, World.updateCurrent, hitem]
  rw [hrx]
  have hcounts := h.counted.counts
  rw [hitem] at hcounts
  refine ⟨h.state,h.running,⟨?_,fun x hx => ?_⟩,hindex,hchunk,_,rfl,?_,hint⟩
  · cases hcounts with
    | some hc =>
      rename_i v
      refine .some ?_
      rw [written_append, if_pos hindex]
      exact hc.add (hint v rfl) data.length
  · have hlen : ∀ item', ({ w.rx with currentFile := some item' } : Receiver).fileItems.length =
        w.rx.earlier.length+1 := fun item' => by simp [fileItems]
    have hlen' : w.rx.fileItems.length = w.rx.earlier.length+1 := by simp [fileItems, hitem]
    rw [hlen]
    rcases List.mem_append.mp hx with hx | hx
    · exact hlen' ▸ h.counted.older x hx
    · obtain rfl := List.mem_singleton.mp hx
      simp [hindex]
  · simp [Reception.wrote, hgap, Task.gap, World.addSeeked, Value.int?]
    omega

/-- Nothing has been written for a new item. -/
theorem Waits.append (h : Waits w.rx writes offset q) (item : FileItem) (n : ℕ) :
    Waits (w.append item).rx writes (some item.seeked) (.header n) := by
  refine ⟨h.state,h.running,⟨.some (.inl ⟨?_,rfl⟩),fun x hx => ?_⟩,trivial⟩
  · exact written_eq_zero h.counted.older
  · have := h.counted.older x hx
    rw [append_items, List.length_append]
    omega

theorem ofFsError_ne (e : FsError) : Exn.ofFsError e ≠ .transferIncomplete := by
  cases e <;> simp [Exn.ofFsError]

theorem statusSetup_error {initialLimit finalLimit : Value} {e : Exn}
    (h : statusSetup initialLimit finalLimit = .error e) : (Raised.exception e).pauses = false := by
  unfold statusSetup at h
  split at h
  · cases h; rfl
  · split at h
    · cases h; rfl
    · split at h <;> cases h <;> rfl

theorem leads_receiveItem (h : Waits w.rx writes offset q) (item : FileItem) (n : ℕ) :
    Leads writes (some item.seeked) false (.header n) (Task.receiveItem false item w) := by
  cases hsize : item.size.atMostZero with
  | none =>
    rw [Task.receiveItem_unordered false hsize]
    rintro ⟨⟩
  | some empty =>
    cases empty with
    | true =>
      rw [Task.receiveItem_empty false hsize, onDisk, Coro.zoom_apply]
      have happend := h.append item n
      cases FileSystem.touch item.path (w.append item).fs with
      | done _ fs => exact leads_nextFile (w := { w.append item with fs := fs }) happend _
      | raised e fs => exact fun he => absurd he (ofFsError_ne e)
      | blocked fs => exact ⟨happend,rfl⟩
    | false =>
      by_cases hp : item.path = []
      · obtain ⟨w',hr,_⟩ := Task.receiveItem_unnamed (w := w) false hsize hp
        rw [hr]
        rintro ⟨⟩
      · rw [Task.receiveItem_named false hsize hp]
        have happend := h.append (Task.validated w item) n
        cases hstatus : statusSetup item.seeked item.size with
        | error e =>
          rintro rfl
          cases statusSetup_error hstatus
        | ok _ =>
          rw [Coro.ofExcept_ok, Run.bind_done]
          refine leads_handled happend (Task.handled (Task.sameHandle_setupTransfer 0) _ id)
            fun r w' hr hrx => ?_
          obtain ⟨item',hitem',_,hseek,hremaining,hchunk⟩ := Task.setupTransfer_done hr
          obtain rfl : Task.validated w item = item' := Option.some.inj hitem'
          have hint := Task.seek_ok hseek
          rw [← hrx] at happend
          refine leads_nextChunk happend ⟨rfl,hchunk,_,by rw [hrx]; rfl,?_,fun v hv => ?_⟩
          · rw [hremaining, Task.gap, hint, Option.getD_some]
          · obtain rfl : item.seeked = v := Option.some.inj hv
            rw [show item.seeked.int? = some (r.position:ℤ) from hint]
            exact Option.some_ne_none _

/-- Nothing comes where contents are missing: the handle is not paused. -/
theorem leads_cutShort {index : ℕ} {r : Reception}
    (h : Waits w.rx writes offset (.contents index r)) :
    Leads writes offset true p (Task.endOfContents false w) := by
  obtain ⟨hopen,hr⟩ := h.point
  obtain ⟨item,hitem,hgap⟩ := hopen.gap
  rw [Task.endOfContents_apply false hitem, if_pos ⟨by omega,h.running⟩]
  exact fun _ => ⟨h.counted,by simp [h.state]⟩

theorem leads_goOn (h : Waits w.rx writes offset p) :
    Leads (writes ++ p.writes) (((Task.header? u w p).map FileItem.seeked).or offset)
      (p.cutShort w.source) p (Task.goOn u false p w) := by
  cases p with
  | connecting => exact h.point.elim
  | reconnecting => exact h.point.elim
  | syncing => exact h.point.elim
  | tag =>
    simp only [RecvPoint.writes, List.append_nil]
    refine leads_handled h (Task.handled (Task.sameHandle_recvFunc 1) w id) fun what w' _ hrx => ?_
    rw [← hrx] at h
    simp only [Coro.bind_apply, Coro.get_apply, Run.bind_done, Coro.ite_apply]
    split
    · trivial
    · exact ⟨⟨h.state,h.running,h.counted,trivial⟩,rfl⟩
  | length =>
    simp only [RecvPoint.writes, List.append_nil]
    refine leads_handled h (Task.handled (Task.sameHandle_recvInt 4) w Task.lengthError)
      fun n w' _ hrx => ?_
    rw [← hrx] at h
    exact ⟨⟨h.state,h.running,h.counted,trivial⟩,rfl⟩
  | header n =>
    simp only [RecvPoint.writes, List.append_nil]
    have hrx := Task.sameHandle_recvHeader u n w
    have hhandled := Task.handled (Task.sameHandle_recvHeader u n) w id
    simp only [Task.goOn, Coro.bind_apply, Task.header?, RecvPoint.cutShort]
    cases hr : Task.recvHeader u n w with
    | done item w' =>
      rw [hr] at hrx
      rw [← show w'.rx = w.rx from hrx] at h
      simp only [Coro.tryCatch_apply, hr]
      exact leads_receiveItem h item n
    | raised e w' => exact leads_handled h hhandled fun a w'' ha => by rw [hr] at ha; cases ha
    | blocked w' => exact leads_handled h hhandled fun a w'' ha => by rw [hr] at ha; cases ha
  | contents index r =>
    obtain ⟨⟨_,hchunk,_⟩,hr⟩ := h.point
    have hn : min r.chunkSize r.remainingBytes.toNat ≠ 0 := by omega
    simp only [RecvPoint.writes, List.append_nil]
    simp only [Task.goOn, Coro.bind_apply, Coro.tryCatch_apply]
    rcases Task.recvFunc_cases (min r.chunkSize r.remainingBytes.toNat) w with
      ⟨data,s,hrecv,hne,hnil⟩ | ⟨hp,⟨he,s,hrecv⟩ | ⟨he,hrecv⟩ | ⟨he,hrecv⟩⟩
    · have hd : data ≠ [] := fun hd => hn (hnil hd)
      have hcut : (RecvPoint.contents index r).cutShort w.source = false := by
        simp [RecvPoint.cutShort, hne]
      rw [hrecv, hcut, Run.handle_done, Run.bind_done, if_neg hd]
      exact ⟨⟨h.state,h.running,h.counted,h.point.1⟩,rfl⟩
    · have hcut : (RecvPoint.contents index r).cutShort w.source = true := by
        simp [RecvPoint.cutShort, hp, he.resolve_right hn]
      rw [hrecv, hcut, Run.handle_done, Run.bind_done, if_pos rfl]
      exact leads_cutShort (w := { w with source := s }) h
    · have hcut : (RecvPoint.contents index r).cutShort w.source = false := by
        simp [RecvPoint.cutShort, he]
      rw [hrecv, hcut, Run.handle_raised, Task.handleException_paused rfl]
      exact fun _ => h.paused rfl
    · have hcut : (RecvPoint.contents index r).cutShort w.source = false := by
        simp [RecvPoint.cutShort, he]
      rw [hrecv, hcut]
      exact ⟨h,rfl⟩
  | writing index r data => exact ⟨h.wrote,rfl⟩
  | yielded index r =>
    simp only [RecvPoint.writes, List.append_nil]
    simp only [Task.goOn, Coro.bind_apply, Coro.get_apply, Run.bind_done, h.running, Coro.ite_apply]
    exact leads_nextChunk h h.point

end Steps

/-- Whatever `OSError` is raised where a receiver waits, it leaves the handle paused. -/
theorem leads_fails {w : World} {writes : List (ℕ × ℕ)} {offset : Option Value} {p : RecvPoint}
    {e : Exn} (os : e.isOSError = true) (h : Waits w.rx writes offset p) :
    Leads writes offset false p
      ((Task.interrupt p (.exception e) w).bind fun _ w => .done (some p) w) := by
  have hpauses : (Raised.exception e).pauses = true := by simp [Raised.pauses, os]
  have hlength : (Raised.exception (Task.lengthError e)).pauses = true := by
    unfold Task.lengthError
    split
    · rfl
    · exact hpauses
  have hheader : (Raised.exception (Task.headerError e)).pauses = true := by
    rw [Task.headerError, if_pos os]
    rfl
  cases p with
  | connecting => exact h.point.elim
  | reconnecting => exact h.point.elim
  | syncing => exact h.point.elim
  | length =>
    rw [Task.interrupt, Task.handleException_paused hlength]
    exact fun _ => h.paused rfl
  | header n =>
    rw [Task.interrupt, Task.handleException_paused hheader]
    exact fun _ => h.paused rfl
  | yielded index r =>
    rintro rfl
    cases os
  | tag | contents | writing =>
    simp only [Task.interrupt, Task.handleException_paused hpauses]
    exact fun _ => h.paused rfl

theorem sound_step {u : Umsgpack} {r : Receiving} (h : Sound r) (i : Incoming) :
    Sound (step u r i) := by
  cases hstage : r.stage with
  | ended raised =>
    have : step u r i = r := by simp [step, hstage]
    rwa [this]
  | waiting p =>
    simp only [Sound, hstage] at h
    obtain ⟨hwaits,hcut⟩ := h
    cases i with
    | goOn s =>
      have hgo := leads_goOn (u := u) (w := { r.world with source := s }) hwaits
      simp only [step, hstage, hcut, Bool.false_or]
      exact Leads.sound (p := p) rfl hgo
    | fails e os =>
      have hfails := leads_fails os hwaits
      rw [← hcut] at hfails
      simp only [step, hstage]
      exact Leads.sound hstage hfails

theorem sound_start (downloadPath : Path) (fs : FileSystem) : Sound (start downloadPath fs) :=
  ⟨⟨rfl,rfl,⟨.none,nofun⟩,trivial⟩,rfl⟩

/-- An interrupted reception can be continued just if its stream has not ended in the contents of a
file, and the last header has an offset of zero. -/
theorem resumable_iff (u : Umsgpack) (downloadPath : Path) (fs : FileSystem) (is : List Incoming)
    (h : (after (step u) (start downloadPath fs) is).stage = .ended (some .transferIncomplete)) :
    Resumable (after (step u) (start downloadPath fs) is) ↔
      (after (step u) (start downloadPath fs) is).cutShort = false ∧
        ∀ v ∈ (after (step u) (start downloadPath fs) is).offset, v.isZero = true := by
  have hsound : Sound (after (step u) (start downloadPath fs) is) :=
    after_invariant (I := Sound) (fun _ i hr => sound_step hr i) (sound_start downloadPath fs) is
  set r := after (step u) (start downloadPath fs) is
  rw [Sound, h] at hsound
  refine and_congr hsound.paused ?_
  have hcounts := hsound.counted.counts
  cases hcur : r.world.rx.currentFile with
  | none =>
    rw [hcur] at hcounts
    have : r.offset = none := by
      cases ho : r.offset with
      | none => rfl
      | some v => rw [ho] at hcounts; cases hcounts
    simp [this]
  | some item =>
    rw [hcur] at hcounts
    cases ho : r.offset with
    | none => rw [ho] at hcounts; cases hcounts
    | some v =>
      rw [ho] at hcounts
      cases hcounts with
      | some hc =>
        simpa using hc.equals_iff

/-- The connection of that file breaks behind its first byte. -/
def behindFirstByte (ending : Ending) : List Incoming :=
  [[1],[0,0,0,5],[0x93,0xa1,0x61,2,0],[7],[],[],[]].map fun pending =>
    .goOn ⟨pending,ending,Cut.whole,0⟩

theorem resumable_iff_reset :
    Resumable (after (step twoCodec) (start [] .bare) (behindFirstByte .reset)) ↔
      (after (step twoCodec) (start [] .bare) (behindFirstByte .reset)).cutShort = false ∧
        ∀ v ∈ (after (step twoCodec) (start [] .bare) (behindFirstByte .reset)).offset,
          v.isZero = true :=
  resumable_iff twoCodec [] .bare (behindFirstByte .reset) rfl

/-- Where the peer closes its connection there, the handle is not paused. -/
theorem closed_behind_first_byte_not_resumable :
    ¬ ∀ (u : Umsgpack) (downloadPath : Path) (fs : FileSystem) (is : List Incoming),
      (after (step u) (start downloadPath fs) is).stage = .ended (some .transferIncomplete) →
        Resumable (after (step u) (start downloadPath fs) is) := by
  intro h
  have hpaused := (h twoCodec [] .bare (behindFirstByte .closed) rfl).1
  have hstate : (after (step twoCodec) (start [] .bare) (behindFirstByte .closed)).world.rx.state =
      .receiving := rfl
  rw [hstate] at hpaused
  cases hpaused

end Receiving
end PeerConnect.Transfers
