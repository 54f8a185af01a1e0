import PeerConnect.Managers.TransfersBook
import PeerConnect.Transfers.SendingTask
import PeerConnect.Library.Run

/-! `send_files_to_peer`: one transfer from its entry in the book of transfers to what becomes of it. -/
namespace PeerConnect.Managers
open Library Wire Transfers

abbrev PeerId := List Char

/-- The handles of each peer; a set is the list in which it is run through. -/
structure TransfersBookKeeper where
  continued : PeerId → List ℕ := fun _ => []
  completed : PeerId → List ℕ := fun _ => []
  current : PeerId → List ℕ := fun _ => []

/-- Where a handle is filed. -/
inductive Filing
  | current
  | completed
  | continued

namespace TransfersBookKeeper

def put (peerId : PeerId) (handle : ℕ) (sets : PeerId → List ℕ) : PeerId → List ℕ :=
  Function.update sets peerId ((sets peerId).insert handle)

def discard (peerId : PeerId) (handle : ℕ) (sets : PeerId → List ℕ) : PeerId → List ℕ :=
  Function.update sets peerId ((sets peerId).filter (· ≠ handle))

def addToCurrent (peerId : PeerId) (handle : ℕ) (b : TransfersBookKeeper) : TransfersBookKeeper :=
  { b with current := put peerId handle b.current, continued := discard peerId handle b.continued }

def addToCompleted (peerId : PeerId) (handle : ℕ) (b : TransfersBookKeeper) : TransfersBookKeeper where
  current := discard peerId handle b.current
  continued := discard peerId handle b.continued
  completed := put peerId handle b.completed

def addToContinued (peerId : PeerId) (handle : ℕ) (b : TransfersBookKeeper) : TransfersBookKeeper :=
  { b with current := discard peerId handle b.current, continued := put peerId handle b.continued }

def file : Filing → PeerId → ℕ → TransfersBookKeeper → TransfersBookKeeper
  | .current => addToCurrent
  | .completed => addToCompleted
  | .continued => addToContinued

/-- A transfer to attach files to, if there is one. -/
def checkRunning (peerId : PeerId) (b : TransfersBookKeeper) : Option ℕ := (b.current peerId).head?

theorem mem_put {peerId peerId' : PeerId} {handle handle' : ℕ} {sets : PeerId → List ℕ} :
    handle' ∈ put peerId handle sets peerId' ↔
      handle' ∈ sets peerId' ∨ peerId' = peerId ∧ handle' = handle := by
  by_cases h : peerId' = peerId
  · subst h; simp [put, or_comm]
  · simp [put, h]

theorem mem_discard {peerId peerId' : PeerId} {handle handle' : ℕ} {sets : PeerId → List ℕ} :
    handle' ∈ discard peerId handle sets peerId' ↔
      handle' ∈ sets peerId' ∧ ¬ (peerId' = peerId ∧ handle' = handle) := by
  by_cases h : peerId' = peerId
  · subst h; simp [discard]
  · simp [discard, h]

/-- Filing one handle does not touch another. -/
theorem mem_current_file {filing : Filing} {peerId peerId' : PeerId} {handle handle' : ℕ}
    {b : TransfersBookKeeper} (h : handle' ≠ handle) :
    handle' ∈ (b.file filing peerId handle).current peerId' ↔ handle' ∈ b.current peerId' := by
  cases filing <;>
    simp [file, addToCurrent, addToCompleted, addToContinued, mem_put, mem_discard, h]

/-- The same handles are in the book that keeps every key that has been looked up. -/
structure Represents (b : TransfersBookKeeper) (b' : TransfersBook.TransfersBookKeeper PeerId ℕ) :
    Prop where
  continued : ∀ p h, h ∈ b.continued p ↔ h ∈ b'.continued.item p
  completed : ∀ p h, h ∈ b.completed p ↔ h ∈ b'.completed.item p
  current : ∀ p h, h ∈ b.current p ↔ h ∈ b'.current.item p

/-- The call that files a handle. -/
def filingCall (peerId : PeerId) (handle : ℕ) : Filing → TransfersBook.Call PeerId ℕ
  | .current => .addToCurrent peerId handle
  | .completed => .addToCompleted peerId handle
  | .continued => .addToContinued peerId handle

section
variable {b : TransfersBookKeeper} {b' : TransfersBook.TransfersBookKeeper PeerId ℕ}
  (order : SetOrder ℕ) (id : ℕ → List Char)

theorem represents_new : Represents {} {} := by constructor <;> simp

theorem mem_put_iff {sets : PeerId → List ℕ} {d : DefaultDict PeerId ℕ} {peerId : PeerId} {handle : ℕ}
    (h : ∀ p x, x ∈ sets p ↔ x ∈ d.item p) (p : PeerId) (x : ℕ) :
    x ∈ put peerId handle sets p ↔ x ∈ (d.adjust peerId (insert handle)).item p := by
  rw [mem_put, DefaultDict.item_adjust, h]
  by_cases hp : p = peerId
  · simp [hp, or_comm]
  · simp [hp]

theorem mem_discard_iff {sets : PeerId → List ℕ} {d : DefaultDict PeerId ℕ} {peerId : PeerId}
    {handle : ℕ} (h : ∀ p x, x ∈ sets p ↔ x ∈ d.item p) (p : PeerId) (x : ℕ) :
    x ∈ discard peerId handle sets p ↔ x ∈ (d.adjust peerId fun s => s.erase handle).item p := by
  rw [mem_discard, DefaultDict.item_adjust, h]
  by_cases hp : p = peerId
  · simp [hp, and_comm]
  · simp [hp]

theorem Represents.file (h : Represents b b') (filing : Filing) (peerId : PeerId) (handle : ℕ) :
    Represents (b.file filing peerId handle) (b'.call order id (filingCall peerId handle filing)) := by
  cases filing with
  | current => exact ⟨mem_discard_iff h.continued,h.completed,mem_put_iff h.current⟩
  | completed =>
    exact ⟨mem_discard_iff h.continued,mem_put_iff h.completed,mem_discard_iff h.current⟩
  | continued => exact ⟨mem_put_iff h.continued,h.completed,mem_discard_iff h.current⟩

/-- Looking for a running handle moves none. -/
theorem Represents.touched (h : Represents b b') (peerId : PeerId) :
    Represents b (b'.checkRunning order peerId).2 := by
  have hsame := TransfersBook.TransfersBookKeeper.sameSets_checkRunning order peerId b'
  refine ⟨fun p x => ?_,fun p x => ?_,fun p x => ?_⟩
  · rw [hsame.continued]
    exact h.continued p x
  · rw [hsame.completed]
    exact h.completed p x
  · rw [hsame.current]
    exact h.current p x

/-- Either there is something running in both books or in none, and what is found in one is running in the
other. -/
theorem Represents.checkRunning (h : Represents b b') (peerId : PeerId) :
    (b.checkRunning peerId = none ↔ (b'.checkRunning order peerId).1 = none) ∧
      ∀ handle, b.checkRunning peerId = some handle → handle ∈ b'.current.item peerId := by
  refine ⟨?_,fun handle hh => (h.current peerId handle).mp (List.mem_of_head? hh)⟩
  simp only [TransfersBookKeeper.checkRunning, TransfersBook.TransfersBookKeeper.checkRunning,
    List.head?_eq_none_iff, List.eq_nil_iff_forall_not_mem, order.mem_toList, h.current]

end
end TransfersBookKeeper

/-- The transfer was not wanted. -/
def transferRejected : Exn := .other 2

/-- Where `send_files_to_peer` is: at the connection, its authorization or the confirmation of the peer,
in the block of its caller, in `send_files`, or at its end, with what it has raised. -/
inductive Stage
  | connecting
  | handshaking
  | confirming
  | body
  | sending (stop : ℕ) (p : SendPoint)
  | ended (raised : Option Raised)

/-- What surrounds the end of an await: the confirmation that was received, and what is raised when the
page is told of it and when the connection is closed. -/
structure Answers where
  accepted : Bytes := [1]
  page : Option Exn := none
  closing : Option Exn := none

/-- What is awaited comes or raises; others call the handle, and file other handles. -/
inductive Event
  | goOn (a : Answers)
  | interrupted (x : Raised) (a : Answers)
  | call (c : SenderCall)
  | others (filing : Filing) (peerId : PeerId) (handle : ℕ)

structure SendFiles where
  book : TransfersBookKeeper
  sender : SenderHandle
  stage : Stage

namespace SendFiles

/-- What is raised behind the end of a block, in its place if there was something already. -/
def raisedLast (closing : Option Exn) (x : Option Raised) : Option Raised :=
  (closing.map Raised.exception).or x

/-- The end of `prepare_connection`, with what is raised in it. -/
def prepareConnectionExit (x : Option Raised) (h : SenderHandle) : SenderHandle :=
  if x.any Raised.isOSError ∧ h.state ≠ .paused then h.setState .preparing else h

/-- The handler of `_handle_sending`, which tells the page first. -/
def unableToConnect (page : Option Exn) (x : Raised) : Raised :=
  if x.isOSError then .exception (page.getD .transferIncomplete) else x

def sendFinalize (peerId : PeerId) (id : ℕ) (st : TransferState) (b : TransfersBookKeeper) :
    TransfersBookKeeper :=
  if st = .completed ∨ st = .aborting then b.addToCompleted peerId id
  else if st = .paused ∨ st = .connecting then b.addToContinued peerId id
  else b

variable (u : Umsgpack) (peerId : PeerId) (id : ℕ)

/-- The end of the execution, once `prepare_connection` is left. -/
def finish (raised : Option Raised) (h : SenderHandle) (s : SendFiles) : SendFiles where
  book := sendFinalize peerId id h.state s.book
  sender := h
  stage := .ended raised

/-- Leave the exit stack, whose connection is closed. -/
def exitStack (closing : Option Exn) (x : Option Raised) (h : SenderHandle) (s : SendFiles) :
    SendFiles :=
  s.finish peerId id (raisedLast closing x) (prepareConnectionExit (raisedLast closing x) h)

/-- How the block of the caller goes over into `send_files`, and from one of its points to the next. -/
def proceed (a : Answers) (r : Run Exn SenderHandle (ℕ × Option SendPoint)) (s : SendFiles) :
    SendFiles :=
  match r with
  | .done (stop,some p) h => { s with sender := h, stage := .sending stop p }
  | .done (_,none) h => s.exitStack peerId id a.closing none h
  | .raised e h => s.exitStack peerId id a.closing (some (.exception e)) h
  | .blocked h => { s with sender := h }

def goOn (a : Answers) (s : SendFiles) : SendFiles :=
  match s.stage with
  | .connecting => { s with stage := .handshaking }
  | .handshaking => { s with sender := { s.sender with connectionMade := true }, stage := .confirming }
  | .confirming =>
    match a.page with
    | some e => s.exitStack peerId id a.closing (some (.exception e)) s.sender
    | none =>
      if a.accepted = [0] then
        s.exitStack peerId id a.closing (some (.exception transferRejected)) s.sender
      else { s with stage := .body }
  | .body => s.proceed peerId id a (SenderHandle.sendFiles s.sender)
  | .sending stop p =>
    s.proceed peerId id a ((SenderHandle.goOn u stop p s.sender).bind fun p h => .done (stop,p) h)
  | .ended _ => s

/-- An exception of the page where `send_files` has yielded closes its generator. -/
def interruptSending (x : Raised) (p : SendPoint) (h : SenderHandle) : Raised × SenderHandle :=
  match p with
  | .yielded _ _ => (x,h)
  | _ =>
    match SenderHandle.interrupt x h with
    | .raised e h => (.exception e,h)
    | .done _ h => (x,h)
    | .blocked h => (x,h)

def interrupted (x : Raised) (a : Answers) (s : SendFiles) : SendFiles :=
  match s.stage with
  | .connecting =>
    s.finish peerId id (some (unableToConnect a.page x)) (prepareConnectionExit (some x) s.sender)
  | .handshaking =>
    let x := (raisedLast a.closing (some x)).getD x
    s.finish peerId id (some (unableToConnect a.page x)) (prepareConnectionExit (some x) s.sender)
  | .confirming => s.exitStack peerId id a.closing (some (unableToConnect a.page x)) s.sender
  | .body => s.exitStack peerId id a.closing (some x) s.sender
  | .sending _ p =>
    let (x,h) := interruptSending x p s.sender
    s.exitStack peerId id a.closing (some x) h
  | .ended _ => s

def step (s : SendFiles) : Event → SendFiles
  | .goOn a => s.goOn u peerId id a
  | .interrupted x a => s.interrupted peerId id x a
  | .call c => { s with sender := (c.run s.sender).state }
  | .others filing peerId' handle =>
    if handle = id then s else { s with book := s.book.file filing peerId' handle }

/-- `send_files_to_peer`, where no transfer to the peer is running. -/
def start (selectedFiles : List LocalFile) (b : TransfersBookKeeper) : SendFiles where
  book := b.addToCurrent peerId id
  sender := { fileList := selectedFiles.map (LocalFile.setSeeked 0), state := .connecting }
  stage := .connecting

/-- If it has ended, its handle is not among the current transfers of the peer. -/
def Released (s : SendFiles) : Prop :=
  ∀ raised, s.stage = .ended raised → id ∉ s.book.current peerId

/-- A handle in this state is taken off the current transfers when the exception leaves the connection. -/
def Releases (st : TransferState) (x : Option Raised) : Prop :=
  st = .paused ∨ (∀ e ∈ x, e.isOSError = false) ∧ (st = .connecting ∨ st = .completed ∨ st = .aborting)

/-- The event does not end the execution, or ends it where the handle is paused; or, before the files are
sent, by what is no `OSError`, while it is connecting; or, in `send_files`, by what its handlers take for
the end of the connection, or at the end of the transfer, and then the connection closes quietly. -/
def Harmless (s : SendFiles) : Event → Prop
  | .call _ | .others _ _ _ => True
  | .goOn a =>
    match s.stage with
    | .confirming => a.page = none ∧ a.accepted ≠ [0] ∨
        Releases s.sender.state (raisedLast a.closing (some (.exception (a.page.getD transferRejected))))
    | .sending _ p => if p = .final then ∀ e ∈ a.closing, e.isOSError = false
        else p.Fails u s.sender → s.sender.state = .paused
    | _ => True
  | .interrupted x a =>
    match s.stage with
    | .connecting => Releases s.sender.state (some x)
    | .handshaking | .body => Releases s.sender.state (raisedLast a.closing (some x))
    | .confirming =>
      Releases s.sender.state (raisedLast a.closing (some (unableToConnect a.page x)))
    | .sending _ (.yielded _ _) => s.sender.state = .paused
    | .sending _ _ => x.pauses ∨ s.sender.state = .paused
    | .ended _ => True

/-- What is known of the handle at each stage. -/
def Known (s : SendFiles) : Prop :=
  match s.stage with
  | .connecting | .handshaking =>
    s.sender.state = .connecting ∨ s.sender.state = .paused ∨ s.sender.state = .sending
  | .confirming | .body => s.sender.connectionMade = true ∧
    (s.sender.state = .connecting ∨ s.sender.state = .paused ∨ s.sender.state = .sending)
  | .sending stop p => s.sender.connectionMade = true ∧
    (s.sender.state = .paused ∨ s.sender.state = .sending) ∧
    stop ≤ s.sender.fileList.length ∧ p.Valid s.sender
  | .ended _ => True

/-- The handle is a current one until the execution ends. -/
structure Running (s : SendFiles) : Prop where
  known : s.Known
  current : (∀ raised, s.stage ≠ .ended raised) → id ∈ s.book.current peerId

section Ending
variable {peerId id} {s : SendFiles} {h : SenderHandle} {x : Option Raised} {closing : Option Exn}

theorem released_finish (hcurrent : id ∈ s.book.current peerId) (raised : Option Raised) :
    (s.finish peerId id raised h).Released peerId id ↔
      h.state = .completed ∨ h.state = .aborting ∨ h.state = .paused ∨ h.state = .connecting := by
  have hreleased : (s.finish peerId id raised h).Released peerId id ↔
      id ∉ (sendFinalize peerId id h.state s.book).current peerId :=
    ⟨fun hr => hr raised rfl,fun hr _ _ => hr⟩
  rw [hreleased, sendFinalize]
  split
  next hst =>
    refine iff_of_true ?_ (by tauto)
    simp [TransfersBookKeeper.addToCompleted, TransfersBookKeeper.mem_discard]
  next hst =>
    split
    next hst' =>
      refine iff_of_true ?_ (by tauto)
      simp [TransfersBookKeeper.addToContinued, TransfersBookKeeper.mem_discard]
    next hst' => exact iff_of_false (fun h => h hcurrent) (by tauto)

theorem prepareConnectionExit_state (x : Option Raised) (h : SenderHandle) :
    (prepareConnectionExit x h).state =
      if x.any Raised.isOSError ∧ h.state ≠ .paused then .preparing else h.state := by
  unfold prepareConnectionExit
  split <;> rfl

/-- What leaves the connection decides together with the state that the handle is in. -/
theorem released_exit (hcurrent : id ∈ s.book.current peerId) (raised : Option Raised) :
    (s.finish peerId id raised (prepareConnectionExit x h)).Released peerId id ↔
      Releases h.state x := by
  rw [released_finish hcurrent, prepareConnectionExit_state, Releases]
  cases x with
  | none => simp; tauto
  | some x =>
    by_cases hp : h.state = .paused
    · simp [hp]
    · cases hos : x.isOSError <;> simp [hos, hp]
      tauto

theorem released_exitStack (hcurrent : id ∈ s.book.current peerId) :
    (s.exitStack peerId id closing x h).Released peerId id ↔ Releases h.state (raisedLast closing x) :=
  released_exit hcurrent _

theorem releases_sending (hst : h.state = .paused ∨ h.state = .sending) :
    Releases h.state x ↔ h.state = .paused := by
  rcases hst with hst | hst <;> simp [Releases, hst]

end Ending

section Step
variable {u peerId id} {s : SendFiles}

theorem running_finish (raised : Option Raised) (h : SenderHandle) :
    (s.finish peerId id raised h).Running peerId id :=
  ⟨trivial,fun hne => absurd rfl (hne raised)⟩

theorem known_call (h : s.Known) (c : SenderCall) :
    Known { s with sender := (c.run s.sender).state } := by
  obtain ⟨hstate,hmade,hlength⟩ := SenderHandle.called s.sender c
  unfold Known at h ⊢
  cases hs : s.stage with
  | connecting => rw [hs] at h; simp only at h ⊢; grind
  | handshaking => rw [hs] at h; simp only at h ⊢; grind
  | confirming => rw [hs] at h; simp only at h ⊢; grind
  | body => rw [hs] at h; simp only at h ⊢; grind
  | sending stop p =>
    rw [hs] at h
    obtain ⟨hc,hst,hstop,hsync,hindex⟩ := h
    exact ⟨hmade.trans hc,by grind,hstop.trans hlength,hsync,fun i hi => (hindex i hi).trans_le hlength⟩
  | ended raised => trivial

/-- Going over to the next point where it is suspended. -/
theorem proceed_continues (peerId : PeerId) (id : ℕ) (s : SendFiles) (a : Answers) {h : SenderHandle} {stop : ℕ}
    {r : Run Exn SenderHandle (Option SendPoint)} (hcont : SenderHandle.Continues h r)
    (hst : h.state = .paused ∨ h.state = .sending) (hstop : stop ≤ h.fileList.length) :
    ∃ p h', s.proceed peerId id a (r.bind fun p h => .done (stop,p) h) =
        { s with sender := h', stage := .sending stop p } ∧
      Known { s with sender := h', stage := .sending stop p } := by
  obtain ⟨p,h',hr,hp,hst',hc,hl⟩ := hcont
  exact ⟨p,h',by rw [hr]; rfl,hc,hst' ▸ hst,hl ▸ hstop,hp⟩

/-- What an answer leads to: an end, or a stage whose handle is known. -/
theorem goOn_cases (h : s.Running peerId id) (a : Answers) :
    (∃ sender stage, s.goOn u peerId id a = { s with sender := sender, stage := stage } ∧
      Known { s with sender := sender, stage := stage } ∧ s.Harmless u (.goOn a) ∧
      ((∃ raised, stage = .ended raised) ↔ ∃ raised, s.stage = .ended raised)) ∨
    (∀ raised, s.stage ≠ .ended raised) ∧ ∃ closing x h',
      s.goOn u peerId id a = s.exitStack peerId id closing x h' ∧
      (Releases h'.state (raisedLast closing x) ↔ s.Harmless u (.goOn a)) := by
  have hknown := h.known
  unfold Known at hknown
  cases hs : s.stage with
  | connecting =>
    rw [hs] at hknown
    exact .inl ⟨s.sender,.handshaking,by simp [goOn, hs],hknown,by simp [Harmless, hs],by simp⟩
  | handshaking =>
    rw [hs] at hknown
    exact .inl ⟨{ s.sender with connectionMade := true },.confirming,by simp [goOn, hs],⟨rfl,hknown⟩,
      by simp [Harmless, hs],by simp⟩
  | confirming =>
    rw [hs] at hknown
    cases hp : a.page with
    | some e =>
      exact .inr ⟨nofun,a.closing,_,s.sender,by simp [goOn, hs, hp]; rfl,by simp [Harmless, hs, hp]⟩
    | none =>
      by_cases ha : a.accepted = [0]
      · exact .inr ⟨nofun,a.closing,_,s.sender,by simp [goOn, hs, hp, ha]; rfl,
          by simp [Harmless, hs, hp, ha]⟩
      · exact .inl ⟨s.sender,.body,by simp [goOn, hs, hp, ha],hknown,by simp [Harmless, hs, hp, ha],
          by simp⟩
  | body =>
    rw [hs] at hknown
    have hcont := SenderHandle.nextFile_continues (h := s.sender.setState .sending) hknown.1 le_rfl
      s.sender.currentFileIndex
    obtain ⟨p,h',heq,hk⟩ := proceed_continues peerId id s a hcont
      (.inr rfl) le_rfl
    exact .inl ⟨h',_,by rw [← heq]; simp [goOn, hs]; rfl,hk,by simp [Harmless, hs],by simp⟩
  | sending stop p =>
    rw [hs] at hknown
    obtain ⟨hc,hst,hstop,hp⟩ := hknown
    rcases SenderHandle.goOn_cases (u := u) hc hstop hp with
      ⟨hfinal,hfails,hcont⟩ | ⟨hfinal,hrun⟩ | ⟨hfinal,hfails,e,hrun,he⟩
    · obtain ⟨p',h',heq,hk⟩ := proceed_continues peerId id s a hcont
        hst hstop
      exact .inl ⟨h',_,by rw [← heq]; simp [goOn, hs],hk,
        by simp [Harmless, hs, hfinal, hfails],by simp⟩
    · refine .inr ⟨nofun,a.closing,none,s.sender.setState .completed,?_,?_⟩
      · simp [goOn, hs, hrun, proceed]
      · cases hclosing : a.closing <;>
          simp [Harmless, hs, hfinal, Releases, SenderHandle.setState, raisedLast, hclosing,
            Raised.isOSError]
    · refine .inr ⟨nofun,a.closing,some (.exception e),s.sender,?_,?_⟩
      · simp [goOn, hs, hrun, proceed]
      · simp [Harmless, hs, hfinal, hfails, releases_sending hst]
  | ended raised =>
    exact .inl ⟨s.sender,.ended raised,by simp [goOn, hs]; rw [← hs],trivial,by simp [Harmless, hs],
      by simp⟩

/-- Something raised in `send_files` finds a handler, unless its generator is only closed. -/
theorem releases_interruptSending {x : Raised} {p : SendPoint} {h : SenderHandle}
    (hst : h.state = .paused ∨ h.state = .sending) (y : Option Raised) :
    Releases (interruptSending x p h).2.state y ↔
      match p with
      | .yielded _ _ => h.state = .paused
      | _ => x.pauses ∨ h.state = .paused := by
  have hhandler : Releases (interruptSending x .final h).2.state y ↔ x.pauses ∨ h.state = .paused := by
    cases x with
    | cancelled =>
      simpa [interruptSending, SenderHandle.interrupt, Raised.pauses] using releases_sending hst
    | exception e =>
      cases he : (Raised.exception e).pauses with
      | true =>
        rw [interruptSending, SenderHandle.interrupt, SenderHandle.handleException_paused he]
        · exact iff_of_true (.inl rfl) (.inl rfl)
        · rintro _ _ ⟨⟩
      | false =>
        rw [interruptSending, SenderHandle.interrupt, SenderHandle.handleException_raised he]
        · simpa using releases_sending hst
        · rintro _ _ ⟨⟩
  cases p with
  | yielded => exact releases_sending hst
  | _ => exact hhandler

/-- Whatever is raised ends the execution. -/
theorem interrupted_cases (h : s.Running peerId id) (x : Raised) (a : Answers) :
    (∃ raised, s.stage = .ended raised) ∨
    (∀ raised, s.stage ≠ .ended raised) ∧ ∃ raised y h',
      s.interrupted peerId id x a = s.finish peerId id raised (prepareConnectionExit y h') ∧
      (Releases h'.state y ↔ s.Harmless u (.interrupted x a)) := by
  have hknown := h.known
  unfold Known at hknown
  cases hs : s.stage with
  | connecting =>
    exact .inr ⟨nofun,some (unableToConnect a.page x),some x,s.sender,by simp [interrupted, hs],
      by simp [Harmless, hs]⟩
  | handshaking =>
    refine .inr ⟨nofun,some (unableToConnect a.page ((raisedLast a.closing (some x)).getD x)),
      raisedLast a.closing (some x),s.sender,?_,by simp [Harmless, hs]⟩
    cases hc : a.closing <;> simp [interrupted, hs, raisedLast, hc]
  | confirming =>
    exact .inr ⟨nofun,_,raisedLast a.closing (some (unableToConnect a.page x)),s.sender,
      by simp only [interrupted, hs]; rfl,by simp [Harmless, hs]⟩
  | body =>
    exact .inr ⟨nofun,_,raisedLast a.closing (some x),s.sender,by simp only [interrupted, hs]; rfl,
      by simp [Harmless, hs]⟩
  | sending stop p =>
    rw [hs] at hknown
    refine .inr ⟨nofun,_,raisedLast a.closing (some (interruptSending x p s.sender).1),
      (interruptSending x p s.sender).2,by simp only [interrupted, hs]; rfl,?_⟩
    rw [releases_interruptSending hknown.2.1]
    cases p <;> simp [Harmless, hs]
  | ended raised => exact .inl ⟨raised,rfl⟩

theorem step_ended (u : Umsgpack) (peerId : PeerId) (id : ℕ) {raised : Option Raised} (hs : s.stage = .ended raised) (e : Event) :
    (s.step u peerId id e).stage = .ended raised ∧
      (id ∈ (s.step u peerId id e).book.current peerId ↔ id ∈ s.book.current peerId) := by
  cases e with
  | goOn a => simp [step, goOn, hs]
  | interrupted x a => simp [step, interrupted, hs]
  | call c => exact ⟨hs,Iff.rfl⟩
  | others filing peerId' handle =>
    by_cases hid : handle = id
    · simp [step, hid, hs]
    · simp only [step, if_neg hid]
      exact ⟨hs,TransfersBookKeeper.mem_current_file (Ne.symm hid)⟩

theorem not_released_step (h : ¬ s.Released peerId id) (e : Event) :
    ¬ (s.step u peerId id e).Released peerId id := by
  intro hr
  refine h fun raised hs hmem => ?_
  obtain ⟨hended,hcurrent⟩ := step_ended u peerId id hs e
  exact hr raised hended (hcurrent.mpr hmem)

theorem running_step (h : s.Running peerId id) (e : Event) :
    (s.step u peerId id e).Running peerId id := by
  cases e with
  | goOn a =>
    rcases goOn_cases (u := u) h a with ⟨sender,stage,heq,hk,_,hstage⟩ | ⟨_,closing,x,h',heq,_⟩
    · refine ⟨by rw [step, heq]; exact hk,fun hne => ?_⟩
      rw [step, heq] at hne ⊢
      refine h.current fun raised hs => ?_
      obtain ⟨raised',hs'⟩ := hstage.mpr ⟨raised,hs⟩
      exact hne raised' hs'
    · rw [step, heq]
      exact running_finish _ _
  | interrupted x a =>
    rcases interrupted_cases (u := u) h x a with ⟨raised,hs⟩ | ⟨_,raised,y,h',heq,_⟩
    · have hstep : s.step u peerId id (.interrupted x a) = s := by simp [step, interrupted, hs]
      rw [hstep]
      exact h
    · rw [step, heq]
      exact running_finish _ _
  | call c => exact ⟨known_call h.known c,h.current⟩
  | others filing peerId' handle =>
    by_cases hid : handle = id
    · simpa only [step, if_pos hid] using h
    · simp only [step, if_neg hid]
      exact ⟨h.known,fun hne => (TransfersBookKeeper.mem_current_file (Ne.symm hid)).mpr
        (h.current hne)⟩

/-- While it has not ended, the event decides. -/
theorem released_step_iff (h : s.Running peerId id) (hr : s.Released peerId id) (e : Event) :
    (s.step u peerId id e).Released peerId id ↔ s.Harmless u e := by
  cases e with
  | goOn a =>
    rcases goOn_cases (u := u) h a with ⟨sender,stage,heq,_,hharmless,hstage⟩ | ⟨hne,closing,x,h',heq,hiff⟩
    · refine iff_of_true ?_ hharmless
      rw [step, heq]
      intro raised hs
      obtain ⟨raised',hs'⟩ := hstage.mp ⟨raised,hs⟩
      exact hr raised' hs'
    · rw [step, heq, released_exitStack (h.current hne), hiff]
  | interrupted x a =>
    rcases interrupted_cases (u := u) h x a with ⟨raised,hs⟩ | ⟨hne,raised,y,h',heq,hiff⟩
    · have hstep : s.step u peerId id (.interrupted x a) = s := by simp [step, interrupted, hs]
      rw [hstep]
      exact iff_of_true hr (by simp [Harmless, hs])
    · rw [step, heq, released_exit (h.current hne), hiff]
  | call c => exact iff_of_true hr trivial
  | others filing peerId' handle =>
    refine iff_of_true ?_ trivial
    by_cases hid : handle = id
    · simpa only [step, if_pos hid] using hr
    · simp only [step, if_neg hid]
      exact fun raised hs hmem => hr raised hs
        ((TransfersBookKeeper.mem_current_file (Ne.symm hid)).mp hmem)

end Step

theorem running_start (peerId : PeerId) (id : ℕ) (selectedFiles : List LocalFile) (b : TransfersBookKeeper) :
    (start peerId id selectedFiles b).Running peerId id :=
  ⟨.inl rfl,fun _ => TransfersBookKeeper.mem_put.mpr (.inr ⟨rfl,rfl⟩)⟩

/-- However the execution goes, its handle is off the current transfers in the end exactly if what ends
it is harmless. -/
theorem released_iff_harmless (u : Umsgpack) (peerId : PeerId) (id : ℕ) (selectedFiles : List LocalFile)
    (b : TransfersBookKeeper) (es : List Event) :
    (after (step u peerId id) (start peerId id selectedFiles b) es).Released peerId id ↔
      Along (step u peerId id) (Harmless u) (start peerId id selectedFiles b) es := by
  exact after_iff_along (P := fun _ _ => True) (I := Running peerId id) (fun _ e _ h => running_step h e)
    (fun _ e h => not_released_step h e) (fun _ e h hr => released_step_iff h hr e)
    (along_of_forall (fun _ _ => trivial) _ es) (running_start peerId id selectedFiles b) nofun

theorem sendFinalize_cases (peerId : PeerId) (id : ℕ) (st : TransferState) (b : TransfersBookKeeper) :
    sendFinalize peerId id st b = b ∨ ∃ filing, sendFinalize peerId id st b = b.file filing peerId id := by
  unfold sendFinalize
  split
  · exact .inr ⟨.completed,rfl⟩
  · split
    · exact .inr ⟨.continued,rfl⟩
    · exact .inl rfl

/-- An event files one handle at most. -/
theorem step_book {s : SendFiles} (h : s.Running peerId id) (e : Event) :
    (s.step u peerId id e).book = s.book ∨
      ∃ filing p handle, (s.step u peerId id e).book = s.book.file filing p handle := by
  have hfinish : ∀ (raised : Option Raised) (h' : SenderHandle),
      (s.finish peerId id raised h').book = s.book ∨
        ∃ filing p handle, (s.finish peerId id raised h').book = s.book.file filing p handle :=
    fun raised h' => (sendFinalize_cases peerId id h'.state s.book).imp_right fun ⟨filing,hf⟩ =>
      ⟨filing,peerId,id,hf⟩
  cases e with
  | goOn a =>
    rcases goOn_cases (u := u) h a with ⟨sender,stage,heq,-⟩ | ⟨-,closing,x,h',heq,-⟩
    · rw [step, heq]
      exact .inl rfl
    · rw [step, heq]
      exact hfinish _ _
  | interrupted x a =>
    rcases interrupted_cases (u := u) h x a with ⟨raised,hs⟩ | ⟨-,raised,y,h',heq,-⟩
    · exact .inl (by simp [step, interrupted, hs])
    · rw [step, heq]
      exact hfinish _ _
  | call c => exact .inl rfl
  | others filing p handle =>
    by_cases hid : handle = id
    · exact .inl (by simp [step, hid])
    · exact .inr ⟨filing,p,handle,by simp [step, hid]⟩

/-- What becomes of the book in an execution, calls of the book that keeps every key make of that. -/
theorem represents_run (order : SetOrder ℕ) (toId : ℕ → List Char) (selectedFiles : List LocalFile)
    {b : TransfersBookKeeper} {b' : TransfersBook.TransfersBookKeeper PeerId ℕ} (hb : b.Represents b')
    (es : List Event) :
    ∃ calls, (after (step u peerId id) (start peerId id selectedFiles b) es).book.Represents
      (after (TransfersBook.TransfersBookKeeper.call order toId) b' calls) := by
  refine (after_invariant (I := fun s : SendFiles => s.Running peerId id ∧
    ∃ calls, s.book.Represents (after (TransfersBook.TransfersBookKeeper.call order toId) b' calls))
    (fun s e h => ⟨running_step h.1 e,?_⟩)
    ⟨running_start peerId id selectedFiles b,[.addToCurrent peerId id],?_⟩ es).2
  · obtain ⟨hrunning,calls,hcalls⟩ := h
    rcases step_book u peerId id hrunning e with hbook | ⟨filing,p,handle,hbook⟩
    · exact ⟨calls,by rwa [hbook]⟩
    · refine ⟨calls ++ [TransfersBookKeeper.filingCall p handle filing],?_⟩
      rw [hbook, after_append]
      exact hcalls.file order toId filing p handle
  · exact hb.file order toId .current peerId id

/-- Once the handle is released, a later call attaches no files to it. -/
theorem checkRunning_ne {peerId : PeerId} {id : ℕ} {s : SendFiles} (h : s.Released peerId id)
    {raised : Option Raised} (hs : s.stage = .ended raised) : s.book.checkRunning peerId ≠ some id :=
  fun hr => h raised hs (List.mem_of_head? hr)

/-- A peer that cannot be reached. -/
theorem unreachable_not_released : ¬ ∀ (u : Umsgpack) (peerId : PeerId) (id : ℕ)
    (selectedFiles : List LocalFile) (b : TransfersBookKeeper) (es : List Event),
    (after (step u peerId id) (start peerId id selectedFiles b) es).Released peerId id := by
  intro h
  have hr := h (.single .nil [] (fun _ => false) nofun) [] 0 [] {}
    [.interrupted (.exception .osError) {}] (some (.exception .transferIncomplete)) rfl
  revert hr
  decide

end SendFiles
end PeerConnect.Managers
