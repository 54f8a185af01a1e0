import PeerConnect.Managers.TransfersBook
import PeerConnect.Transfers.Names

/-! The transfers of both managers, each with its own book. A transfer is looked up by the id of the other
peer and its own id, but an incoming one is filed under another key, once it is past an assertion that
holds of no connection. -/
namespace PeerConnect.Managers.RunningTransfers
open Library Wire Transfers TransfersBook TransfersBook.TransfersBookKeeper

abbrev PeerId := List Char

/-- A handle, which is an object of its own, with its id. -/
structure TransferHandle where
  number : ℕ
  id : List Char
  deriving DecidableEq, Repr

/-- Ids of packets that are not strings are not told apart. -/
abbrev Book : Type := TransfersBook.TransfersBookKeeper (Option PeerId) TransferHandle

inductive Kind
  | outgoing
  | incomingFile
  | incomingDirectory
  deriving DecidableEq, Repr

/-- A transfer that has been started, and the key it has been filed under. -/
structure Running where
  kind : Kind
  peer : PeerId
  key : Option PeerId
  handle : TransferHandle
  deriving DecidableEq, Repr

/-- Both managers, with what they share. -/
structure State where
  files : Book := {}
  dirs : Book := {}
  idCounter : ℕ := 0
  created : ℕ := 0
  running : List Running := []

inductive Event
  /-- `send_files_to_peer` -/
  | sendFiles (peer : PeerId)
  /-- `file_receiver`, for a packet with this id -/
  | fileReceiver (msgId : Option PeerId) (peer : PeerId) (fileId : List Char)
  /-- `DirConnectionHandler` -/
  | dirConnection (peer : PeerId) (transferId : List Char)
  /-- `send_directory`, which takes an id but files nothing -/
  | sendDirectory
  /-- A transfer ends in a state, with an exception or without. -/
  | finish (t : Running) (state : TransferState) (raised : Bool)
  | pauseTransfer (peer : PeerId) (transferId : List Char)
  | getTransfer (kind : Kind) (peer : PeerId) (fileId : List Char)

/-- Whether the event is an incoming transfer. -/
def Event.incoming : Event → Bool
  | fileReceiver .. => true
  | dirConnection .. => true
  | _ => false

/-- The classes of the two functions of a connection, and the one that `receiver.py` calls `Receiver`. -/
inductive Cls
  | connectSender
  | connectReceiver
  | filesReceiver
  deriving DecidableEq, Repr

/-- `Receiver.connection_made`, with assertions switched on or off. -/
def connectionMade (debug : Bool) (sender receiver : Cls) : Except Exn Unit :=
  if debug then
    if sender = .connectSender then
      if receiver = .filesReceiver then .ok () else .error .assertionError
    else .error .assertionError
  else .ok ()

/-- `Receiver.id` -/
def receiverId (peer : PeerId) (fileId : List Char) : List Char := peer ++ ' '::fileId

/-- Where a transfer is filed when it ends. -/
inductive Filing
  | completed
  | continued

def Kind.filing (state : TransferState) (raised : Bool) : Kind → Option Filing
  | outgoing =>
    if state = .completed ∨ state = .aborting then some .completed
    else if state = .paused ∨ state = .connecting then some .continued
    else none
  | incomingFile =>
    if state = .completed then some .completed
    else if state = .paused then some .continued
    else none
  | incomingDirectory => if raised then none else some .completed

def Filing.file (key : Option PeerId) (handle : TransferHandle) : Option Filing → Book → Book
  | some completed, b => b.addToCompleted key handle
  | some continued, b => b.addToContinued key handle
  | none, b => b

namespace State

/-- The book of the manager that a transfer belongs to. -/
def book (m : State) : Kind → Book
  | .incomingDirectory => m.dirs
  | _ => m.files

def changeBook (kind : Kind) (f : Book → Book) (m : State) : State :=
  match kind with
  | .incomingDirectory => { m with dirs := f m.dirs }
  | _ => { m with files := f m.files }

/-- A handle is made and filed under a key. -/
def begin (kind : Kind) (peer : PeerId) (key : Option PeerId) (id : List Char) (m : State) : State :=
  let handle : TransferHandle := ⟨m.created,id⟩
  let m' := m.changeBook kind fun b => b.addToCurrent key handle
  { m' with created := m.created+1, running := m.running ++ [⟨kind,peer,key,handle⟩] }

/-- An incoming transfer. Its handle is made before it gets its connection. -/
def receive (debug : Bool) (kind : Kind) (peer : PeerId) (key : Option PeerId) (id : List Char)
    (m : State) : Except Exn Unit × State :=
  match connectionMade debug .connectSender .connectReceiver with
  | .error e => (.error e,{ m with created := m.created+1 })
  | .ok () => (.ok (),m.begin kind peer key id)

section
variable (order : SetOrder TransferHandle)

def sendFilesToPeer (peer : PeerId) (m : State) : State :=
  match m.files.checkRunning order (some peer) with
  | (some _,files) => { m with files := files }
  | (none,files) =>
    ({ m with files := files, idCounter := m.idCounter+1 } : State).begin .outgoing peer (some peer)
      (Nat.toDigits 10 m.idCounter)

/-- `pause_transfer`. All that run, for an empty id, are no handle. -/
def pauseTransfer (peer : PeerId) (transferId : List Char) (m : State) : Except Exn Unit × State :=
  match m.dirs.getTransfer order TransferHandle.id (some peer) transferId with
  | (.handle h,dirs) => (.ok (),{ m with dirs := dirs.addToContinued (some peer) h })
  | (.running [],dirs) => (.error .valueError,{ m with dirs := dirs })
  | (.running _,dirs) => (.error .attributeError,{ m with dirs := dirs })
  | (.nothing,dirs) => (.error .valueError,{ m with dirs := dirs })

def finish (t : Running) (state : TransferState) (raised : Bool) (m : State) : State :=
  if t ∈ m.running then
    let m' := m.changeBook t.kind (Filing.file t.key t.handle (t.kind.filing state raised))
    { m' with running := m.running.filter (· ≠ t) }
  else m

variable (debug : Bool)

def handle (m : State) : Event → Except Exn Unit × State
  | .sendFiles peer => (.ok (),m.sendFilesToPeer order peer)
  | .fileReceiver msgId peer fileId => m.receive debug .incomingFile peer msgId (receiverId peer fileId)
  | .dirConnection peer transferId =>
    let transferId := peer ++ transferId
    m.receive debug .incomingDirectory peer (some transferId) (receiverId peer transferId)
  | .sendDirectory => (.ok (),{ m with idCounter := m.idCounter+1 })
  | .finish t state raised => (.ok (),m.finish t state raised)
  | .pauseTransfer peer transferId => m.pauseTransfer order peer transferId
  | .getTransfer kind peer fileId =>
    (.ok (),m.changeBook kind fun b => (b.getTransfer order TransferHandle.id (some peer) fileId).2)

def step (m : State) (e : Event) : State := (handle order debug m e).2

/-- What `get_transfer` answers for a transfer. -/
def lookup (m : State) (t : Running) : Found TransferHandle :=
  ((m.book t.kind).getTransfer order TransferHandle.id (some t.peer) t.handle.id).1

end
end State

/-- Where a handle must be in its book to be found: a directory may have been paused. -/
def InPlace (kind : Kind) (b : Book) (p : PeerId) (h : TransferHandle) : Prop :=
  match kind with
  | .incomingDirectory => h ∈ b.current.item (some p) ∨ h ∈ b.continued.item (some p)
  | _ => h ∈ b.current.item (some p)

/-- The handles that could be found in its place. -/
def InScope (kind : Kind) (b : Book) (p : PeerId) (h : TransferHandle) : Prop :=
  match kind with
  | .incomingDirectory => b.Listed (some p) h
  | _ => h ∈ b.current.item (some p)

/-- The handle is filed under its peer, and no other one that counts has its id. -/
structure FiledIn (kind : Kind) (b : Book) (p : PeerId) (h : TransferHandle) : Prop where
  place : InPlace kind b p h
  unique : ∀ h', InScope kind b p h' → h'.id = h.id → h' = h

section
variable {kind : Kind} {b b' : Book} {p q : PeerId} {key : Option PeerId} {x y z : TransferHandle}

theorem InPlace.inScope (h : InPlace kind b p x) : InScope kind b p x := by
  cases kind with
  | incomingDirectory => exact h.imp_right .inr
  | outgoing => exact h
  | incomingFile => exact h

theorem FiledIn.mono (h : FiledIn kind b p x) (hplace : InPlace kind b' p x)
    (hscope : ∀ y, InScope kind b' p y → InScope kind b p y ∨ y.id ≠ x.id) : FiledIn kind b' p x := by
  refine ⟨hplace,fun y hy hid => ?_⟩
  rcases hscope y hy with hy | hne
  · exact h.unique y hy hid
  · exact absurd hid hne

theorem FiledIn.found (order : SetOrder TransferHandle) (h : FiledIn kind b p x) (hne : x.id ≠ []) :
    (b.getTransfer order TransferHandle.id (some p) x.id).1 = .handle x := by
  cases kind with
  | incomingDirectory => exact getTransfer_of_unique order TransferHandle.id hne h.place h.unique
  | outgoing => exact getTransfer_of_current order TransferHandle.id hne h.place h.unique
  | incomingFile => exact getTransfer_of_current order TransferHandle.id hne h.place h.unique

theorem inPlace_sameSets (hs : SameSets b b') : InPlace kind b' p x ↔ InPlace kind b p x := by
  cases kind <;> simp [InPlace, hs.current, hs.continued]

theorem inScope_sameSets (hs : SameSets b b') : InScope kind b' p x ↔ InScope kind b p x := by
  cases kind <;> simp [InScope, Listed, hs.current, hs.completed, hs.continued]

theorem inPlace_addToCurrent (hne : x ≠ y) (h : InPlace kind b p x) :
    InPlace kind (b.addToCurrent key y) p x := by
  by_cases hp : some p = key <;>
    cases kind <;> simp_all [InPlace, addToCurrent, DefaultDict.item_adjust]

theorem inScope_addToCurrent (h : InScope kind (b.addToCurrent key y) p z) :
    InScope kind b p z ∨ some p = key ∧ z = y := by
  by_cases hp : some p = key <;> cases kind <;>
    simp only [InScope, Listed, addToCurrent, DefaultDict.item_adjust, hp, if_true, if_false,
      Finset.mem_insert, Finset.mem_erase] at h ⊢ <;> tauto

theorem inPlace_begun : InPlace kind (b.addToCurrent (some p) x) p x := by
  cases kind <;> simp [InPlace, addToCurrent, DefaultDict.item_adjust]

theorem inPlace_file (filing : Option Filing) (hne : x ≠ y) (h : InPlace kind b p x) :
    InPlace kind (Filing.file key y filing b) p x := by
  rcases filing with _ | _ | _
  · exact h
  · by_cases hp : some p = key <;>
      cases kind <;> simp_all [InPlace, Filing.file, addToCompleted, DefaultDict.item_adjust]
  · by_cases hp : some p = key <;>
      cases kind <;> simp_all [InPlace, Filing.file, addToContinued, DefaultDict.item_adjust]

/-- A handle that is filed when it ends has counted before. -/
theorem inScope_file (filing : Option Filing) (hy : some p = key → InScope kind b p y)
    (h : InScope kind (Filing.file key y filing b) p z) : InScope kind b p z := by
  rcases filing with _ | _ | _
  · exact h
  · by_cases hp : some p = key
    · have hy := hy hp
      subst hp
      cases kind <;>
        simp only [InScope, Listed, Filing.file, addToCompleted, DefaultDict.item_adjust, if_true,
          Finset.mem_insert, Finset.mem_erase] at h hy ⊢ <;> grind
    · cases kind <;>
        simpa only [InScope, Listed, Filing.file, addToCompleted, DefaultDict.item_adjust, hp,
          if_false] using h
  · by_cases hp : some p = key
    · have hy := hy hp
      subst hp
      cases kind <;>
        simp only [InScope, Listed, Filing.file, addToContinued, DefaultDict.item_adjust, if_true,
          Finset.mem_insert, Finset.mem_erase] at h hy ⊢ <;> grind
    · cases kind <;>
        simpa only [InScope, Listed, Filing.file, addToContinued, DefaultDict.item_adjust, hp,
          if_false] using h

/-- A paused directory stays in its place. -/
theorem inPlace_paused (h : InPlace .incomingDirectory b p x) :
    InPlace .incomingDirectory (b.addToContinued (some q) y) p x := by
  by_cases hp : p = q
  · subst hp
    simp only [InPlace, addToContinued, DefaultDict.item_adjust, if_true, Finset.mem_erase,
      Finset.mem_insert] at h ⊢
    tauto
  · have hne : some p ≠ some q := fun h => hp (Option.some.inj h)
    simpa only [InPlace, addToContinued, DefaultDict.item_adjust, if_neg hne] using h

end

namespace State

/-- What holds of every state in which the incoming transfers have been filed properly. -/
structure Sound (m : State) : Prop where
  key : ∀ t ∈ m.running, t.key = some t.peer
  named : ∀ t ∈ m.running, t.handle.id ≠ []
  filed : ∀ t ∈ m.running, FiledIn t.kind (m.book t.kind) t.peer t.handle
  distinct : ∀ t ∈ m.running, ∀ t' ∈ m.running, t.handle = t'.handle → t = t'
  made : ∀ t ∈ m.running, t.handle.number < m.created
  numbered : ∀ p, ∀ h ∈ m.files.current.item p, ' ' ∈ h.id ∨ ∃ n < m.idCounter, h.id = Nat.toDigits 10 n

/-- The id is not in use where the transfer will be filed. -/
def Fresh (kind : Kind) (peer : PeerId) (id : List Char) (m : State) : Prop :=
  ∀ h, InScope kind (m.book kind) peer h → h.id ≠ id

/-- Two kinds of transfers whose manager is the same. -/
def SameManager (kind kind' : Kind) : Prop := (kind = .incomingDirectory ↔ kind' = .incomingDirectory)

theorem book_changeBook (kind kind' : Kind) (f : Book → Book) (m : State) :
    (SameManager kind kind' ∧ (m.changeBook kind f).book kind' = f (m.book kind')) ∨
      (¬ SameManager kind kind' ∧ (m.changeBook kind f).book kind' = m.book kind') := by
  cases kind <;> cases kind' <;> simp [SameManager, changeBook, book]

theorem inScope_sameManager {kind kind' : Kind} (h : SameManager kind kind') (b : Book) (p : PeerId)
    (x : TransferHandle) : InScope kind b p x ↔ InScope kind' b p x := by
  cases kind <;> cases kind' <;> simp_all [SameManager, InScope]

theorem book_sameManager {kind kind' : Kind} (h : SameManager kind kind') (m : State) :
    m.book kind = m.book kind' := by
  cases kind <;> cases kind' <;> simp_all [SameManager, book]

variable {m m' : State}

/-- Lookups, and ids and handles that are only made, change nothing of it. -/
theorem Sound.sameSets (h : Sound m) (hfiles : SameSets m.files m'.files) (hdirs : SameSets m.dirs m'.dirs)
    (hrunning : m'.running = m.running) (hcreated : m.created ≤ m'.created)
    (hcounter : m.idCounter ≤ m'.idCounter) : Sound m' where
  key := hrunning ▸ h.key
  named := hrunning ▸ h.named
  filed := by
    intro t ht
    rw [hrunning] at ht
    have hbook : SameSets (m.book t.kind) (m'.book t.kind) := by
      cases t.kind with
      | incomingDirectory => exact hdirs
      | outgoing => exact hfiles
      | incomingFile => exact hfiles
    refine (h.filed t ht).mono ((inPlace_sameSets hbook).mpr (h.filed t ht).place) fun y hy => ?_
    exact .inl ((inScope_sameSets hbook).mp hy)
  distinct := hrunning ▸ h.distinct
  made := fun t ht => Nat.lt_of_lt_of_le (h.made t (hrunning ▸ ht)) hcreated
  numbered := by
    intro p x hx
    rw [hfiles.current] at hx
    exact (h.numbered p x hx).imp_right fun ⟨n,hn,hid⟩ => ⟨n,Nat.lt_of_lt_of_le hn hcounter,hid⟩

theorem created_changeBook (kind : Kind) (f : Book → Book) (m : State) :
    (m.changeBook kind f).created = m.created := by cases kind <;> rfl

theorem idCounter_changeBook (kind : Kind) (f : Book → Book) (m : State) :
    (m.changeBook kind f).idCounter = m.idCounter := by cases kind <;> rfl

theorem book_begin (kind kind' : Kind) (peer : PeerId) (key : Option PeerId) (id : List Char) (m : State) :
    (m.begin kind peer key id).book kind' =
      (m.changeBook kind fun b => b.addToCurrent key ⟨m.created,id⟩).book kind' := by
  cases kind' <;> rfl

/-- A transfer that is filed under its peer, with an id of its own. -/
theorem Sound.begin (h : Sound m) {kind : Kind} {peer : PeerId} {id : List Char} (hid : id ≠ [])
    (hfresh : Fresh kind peer id m)
    (hnumber : kind ≠ .incomingDirectory → ' ' ∈ id ∨ ∃ n < m.idCounter, id = Nat.toDigits 10 n) :
    Sound (m.begin kind peer (some peer) id) := by
  have hrunning : (m.begin kind peer (some peer) id).running =
      m.running ++ [⟨kind,peer,some peer,⟨m.created,id⟩⟩] := rfl
  have hmem : ∀ t ∈ (m.begin kind peer (some peer) id).running,
      t ∈ m.running ∨ t = ⟨kind,peer,some peer,⟨m.created,id⟩⟩ := by
    intro t ht
    rwa [hrunning, List.mem_append, List.mem_singleton] at ht
  have hnew : ∀ t ∈ m.running, t.handle ≠ ⟨m.created,id⟩ := by
    intro t ht he
    have := h.made t ht
    rw [he] at this
    exact Nat.lt_irrefl _ this
  constructor
  · intro t ht
    rcases hmem t ht with ht | rfl
    · exact h.key t ht
    · rfl
  · intro t ht
    rcases hmem t ht with ht | rfl
    · exact h.named t ht
    · exact hid
  · intro t ht
    rw [book_begin]
    rcases hmem t ht with ht | rfl
    · rcases book_changeBook kind t.kind (fun b => b.addToCurrent (some peer) ⟨m.created,id⟩) m with
        ⟨hsame,hbook⟩ | ⟨_,hbook⟩
      · rw [hbook]
        have hfiled := h.filed t ht
        refine hfiled.mono (inPlace_addToCurrent (hnew t ht) hfiled.place) fun y hy => ?_
        rcases inScope_addToCurrent hy with hy | ⟨hp,rfl⟩
        · exact .inl hy
        · refine .inr fun heq => hfresh t.handle ?_ heq.symm
          obtain rfl : t.peer = peer := Option.some.inj hp
          rw [inScope_sameManager hsame, book_sameManager hsame]
          exact hfiled.place.inScope
      · rw [hbook]
        exact h.filed t ht
    · rcases book_changeBook kind kind (fun b => b.addToCurrent (some peer) ⟨m.created,id⟩) m with
        ⟨_,hbook⟩ | ⟨hne,_⟩
      · rw [hbook]
        refine ⟨inPlace_begun,fun y hy hyid => ?_⟩
        rcases inScope_addToCurrent hy with hy | ⟨_,rfl⟩
        · exact absurd hyid (hfresh y hy)
        · rfl
      · exact absurd Iff.rfl hne
  · intro t ht t' ht' he
    rcases hmem t ht with ht | rfl <;> rcases hmem t' ht' with ht' | rfl
    · exact h.distinct t ht t' ht' he
    · exact absurd he (hnew t ht)
    · exact absurd he.symm (hnew t' ht')
    · rfl
  · intro t ht
    show _ < m.created+1
    rcases hmem t ht with ht | rfl
    · exact Nat.lt_succ_of_lt (h.made t ht)
    · exact Nat.lt_succ_self _
  · intro p x hx
    have hcounter : (m.begin kind peer (some peer) id).idCounter = m.idCounter := by cases kind <;> rfl
    rw [hcounter]
    by_cases hkind : kind = .incomingDirectory
    · subst hkind
      exact h.numbered p x hx
    · have hx' : x ∈ (m.files.addToCurrent (some peer) ⟨m.created,id⟩).current.item p := by
        cases kind with
        | incomingDirectory => exact absurd rfl hkind
        | outgoing => exact hx
        | incomingFile => exact hx
      rw [addToCurrent, DefaultDict.item_adjust] at hx'
      split at hx'
      next hp =>
        rcases Finset.mem_insert.mp hx' with rfl | hx'
        · exact hnumber hkind
        · exact h.numbered (some peer) x hx'
      next => exact h.numbered p x hx'

theorem current_file {key : Option PeerId} {y : TransferHandle} (filing : Option Filing) {b : Book}
    {p : Option PeerId} {x : TransferHandle} (h : x ∈ (Filing.file key y filing b).current.item p) :
    x ∈ b.current.item p := by
  rcases filing with _ | _ | _
  · exact h
  · simp only [Filing.file, addToCompleted, DefaultDict.item_adjust] at h
    split at h
    next hp => exact hp ▸ Finset.mem_of_mem_erase h
    next => exact h
  · simp only [Filing.file, addToContinued, DefaultDict.item_adjust] at h
    split at h
    next hp => exact hp ▸ Finset.mem_of_mem_erase h
    next => exact h

theorem Sound.finish (h : Sound m) (t : Running) (state : TransferState) (raised : Bool) :
    Sound (m.finish t state raised) := by
  unfold State.finish
  split
  next ht =>
    set f := Filing.file t.key t.handle (t.kind.filing state raised) with hf
    have hmem : ∀ t' ∈ m.running.filter (· ≠ t), t' ∈ m.running ∧ t' ≠ t := by
      intro t' ht'
      simpa using List.mem_filter.mp ht'
    constructor
    · exact fun t' ht' => h.key t' (hmem t' ht').1
    · exact fun t' ht' => h.named t' (hmem t' ht').1
    · intro t' ht'
      obtain ⟨hrunning,hne⟩ := hmem t' ht'
      have hother : t'.handle ≠ t.handle := fun he => hne (h.distinct t' hrunning t ht he)
      have hfiled := h.filed t' hrunning
      show FiledIn t'.kind ((m.changeBook t.kind f).book t'.kind) t'.peer t'.handle
      rcases book_changeBook t.kind t'.kind f m with ⟨hsame,hbook⟩ | ⟨_,hbook⟩
      · rw [hbook]
        refine hfiled.mono (inPlace_file _ hother hfiled.place) fun y hy => .inl ?_
        refine inScope_file _ (fun hp => ?_) hy
        rw [h.key t ht] at hp
        rw [Option.some.inj hp, ← book_sameManager hsame, ← inScope_sameManager hsame]
        exact (h.filed t ht).place.inScope
      · rw [hbook]
        exact hfiled
    · exact fun t₁ ht₁ t₂ ht₂ => h.distinct t₁ (hmem t₁ ht₁).1 t₂ (hmem t₂ ht₂).1
    · intro t' ht'
      have hmade := h.made t' (hmem t' ht').1
      rwa [← created_changeBook t.kind f m] at hmade
    · intro p x hx
      have hx' : x ∈ m.files.current.item p := by
        cases hk : t.kind with
        | incomingDirectory => rw [hk] at hx; exact hx
        | outgoing => rw [hk] at hx; exact current_file _ hx
        | incomingFile => rw [hk] at hx; exact current_file _ hx
      have hcounter := idCounter_changeBook t.kind f m
      exact (h.numbered p x hx').imp_right fun ⟨n,hn,hid⟩ => ⟨n,hcounter ▸ hn,hid⟩
  next => exact h

/-- What a pause does to the book of directories: a handle that it lists is to be continued, or it has only
been looked up. -/
theorem pauseTransfer_cases (order : SetOrder TransferHandle) (m : State) (peer : PeerId)
    (transferId : List Char) : ∃ dirs, SameSets m.dirs dirs ∧
      ((m.pauseTransfer order peer transferId).2 = { m with dirs := dirs } ∨
        ∃ y, m.dirs.Listed (some peer) y ∧ (m.pauseTransfer order peer transferId).2 =
          { m with dirs := dirs.addToContinued (some peer) y }) := by
  have hs := sameSets_getTransfer order TransferHandle.id (some peer) transferId m.dirs
  rcases hg : m.dirs.getTransfer order TransferHandle.id (some peer) transferId with ⟨found,dirs⟩
  rw [hg] at hs
  refine ⟨dirs,hs,?_⟩
  unfold State.pauseTransfer
  rw [hg]
  rcases found with y | (_ | ⟨y,ys⟩) | _
  · have hfound : (m.dirs.getTransfer order TransferHandle.id (some peer) transferId).1 = .handle y := by
      rw [hg]
    exact .inr ⟨y,listed_of_getTransfer order TransferHandle.id hfound,rfl⟩
  · exact .inl rfl
  · exact .inl rfl
  · exact .inl rfl

theorem Sound.pauseTransfer (order : SetOrder TransferHandle) (h : Sound m) (peer : PeerId)
    (transferId : List Char) : Sound (m.pauseTransfer order peer transferId).2 := by
  obtain ⟨dirs,hs,hcases⟩ := pauseTransfer_cases order m peer transferId
  have hsame : Sound { m with dirs := dirs } :=
    h.sameSets (.refl _) hs rfl (Nat.le_refl _) (Nat.le_refl _)
  rcases hcases with hr | ⟨y,hlisted,hr⟩
  · rw [hr]
    exact hsame
  · rw [hr]
    refine ⟨h.key,h.named,fun t ht => ?_,h.distinct,h.made,h.numbered⟩
    have hfiled := hsame.filed t ht
    cases hk : t.kind with
    | incomingDirectory =>
      rw [hk] at hfiled
      have hscope : InScope .incomingDirectory dirs peer y := (inScope_sameSets hs).mpr hlisted
      refine hfiled.mono (inPlace_paused hfiled.place) fun z hz => .inl ?_
      exact inScope_file (some .continued) (fun hp => Option.some.inj hp ▸ hscope) hz
    | outgoing => rw [hk] at hfiled; exact hfiled
    | incomingFile => rw [hk] at hfiled; exact hfiled

section
variable (order : SetOrder TransferHandle) (debug : Bool)

/-- An incoming transfer is filed only where assertions are switched off, and then under the peer's id
only if its packet has that id, or if its directory has no id of its own. -/
def Keyed : Event → Prop
  | .fileReceiver msgId peer _ => debug = false ∧ msgId = some peer
  | .dirConnection _ transferId => debug = false ∧ transferId = []
  | _ => True

/-- Its id is not in use yet. -/
def FreshId (m : State) : Event → Prop
  | .fileReceiver _ peer fileId => Fresh .incomingFile peer (receiverId peer fileId) m
  | .dirConnection peer _ => Fresh .incomingDirectory peer (receiverId peer peer) m
  | _ => True

/-- An event after which every transfer can be looked up. -/
def Proper (m : State) (e : Event) : Prop := Keyed debug e ∧ FreshId m e

theorem receiverId_ne_nil (peer fileId : List Char) : receiverId peer fileId ≠ [] := by
  simp [receiverId]

/-- Files are attached to a transfer that is running, or a new one begins, with a new id. -/
theorem sendFilesToPeer_cases (m : State) (peer : PeerId) : ∃ files, SameSets m.files files ∧
    (m.sendFilesToPeer order peer = { m with files := files } ∨
      m.sendFilesToPeer order peer = ({ m with files := files, idCounter := m.idCounter+1 } : State).begin
        .outgoing peer (some peer) (Nat.toDigits 10 m.idCounter)) := by
  have hs := sameSets_checkRunning order (some peer) m.files
  unfold State.sendFilesToPeer
  rcases hc : m.files.checkRunning order (some peer) with ⟨_ | y,files⟩
  all_goals
    rw [hc] at hs
    dsimp only at hs ⊢
  · exact ⟨files,hs,.inr rfl⟩
  · exact ⟨files,hs,.inl rfl⟩

theorem Sound.sendFilesToPeer (h : Sound m) (peer : PeerId) : Sound (m.sendFilesToPeer order peer) := by
  obtain ⟨files,hs,hr | hr⟩ := sendFilesToPeer_cases order m peer
  · rw [hr]
    exact h.sameSets hs (.refl _) rfl (Nat.le_refl _) (Nat.le_refl _)
  · rw [hr]
    have hready : Sound { m with files := files, idCounter := m.idCounter+1 } :=
      h.sameSets hs (.refl _) rfl (Nat.le_refl _) (Nat.le_succ _)
    refine hready.begin Nat.toDigits_ne_nil (fun x hx hid => ?_) fun _ =>
      .inr ⟨m.idCounter,Nat.lt_succ_self _,rfl⟩
    have hx' : x ∈ m.files.current.item (some peer) := (hs.current (some peer)) ▸ hx
    -- the id is a number that has not been given, and the ids of receivers are no numbers
    rcases h.numbered (some peer) x hx' with hspace | ⟨n,hn,hnumber⟩
    · rw [hid] at hspace
      exact absurd (Nat.isDigit_of_mem_toDigits (by decide) (by decide) hspace) (by decide)
    · have heq := toDigits_injective (hnumber.symm.trans hid)
      omega

/-- An incoming transfer with assertions switched off. -/
theorem receive_eq (kind : Kind) (peer : PeerId) (key : Option PeerId) (id : List Char) (m : State) :
    m.receive false kind peer key id = (.ok (),m.begin kind peer key id) := rfl

theorem Sound.step (h : Sound m) {e : Event} (hproper : Proper debug m e) : Sound (step order debug m e) := by
  cases e with
  | sendFiles peer => exact h.sendFilesToPeer order peer
  | fileReceiver msgId peer fileId =>
    obtain ⟨⟨rfl,rfl⟩,hfresh⟩ := hproper
    exact h.begin (receiverId_ne_nil peer fileId) hfresh fun _ => .inl (by simp [receiverId])
  | dirConnection peer transferId =>
    obtain ⟨⟨rfl,rfl⟩,hfresh⟩ := hproper
    simp only [State.step, handle, List.append_nil, receive_eq]
    exact h.begin (receiverId_ne_nil peer peer) hfresh fun hne => absurd rfl hne
  | sendDirectory =>
    exact h.sameSets (.refl _)
      (.refl _) rfl (Nat.le_refl _) (Nat.le_succ _)
  | finish t state raised => exact h.finish t state raised
  | pauseTransfer peer transferId => exact h.pauseTransfer order peer transferId
  | getTransfer kind peer fileId =>
    have hs := fun b : Book => sameSets_getTransfer order TransferHandle.id (some peer) fileId b
    cases kind with
    | incomingDirectory => exact h.sameSets (.refl _) (hs _) rfl (Nat.le_refl _) (Nat.le_refl _)
    | outgoing => exact h.sameSets (hs _) (.refl _) rfl (Nat.le_refl _) (Nat.le_refl _)
    | incomingFile => exact h.sameSets (hs _) (.refl _) rfl (Nat.le_refl _) (Nat.le_refl _)

end
end State
end PeerConnect.Managers.RunningTransfers
