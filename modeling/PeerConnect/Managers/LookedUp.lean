import PeerConnect.Managers.RunningTransfers

/-! Which running transfers can be looked up, and with that paused. -/
namespace PeerConnect.Managers.RunningTransfers
open Library Wire Transfers TransfersBook TransfersBook.TransfersBookKeeper

namespace State
variable {m m' : State}

section
variable (order : SetOrder TransferHandle) (debug : Bool)

/-- Running transfers can be looked up: an incoming one that gets its connection goes on, each running
one is what `get_transfer` answers for the other peer's id and its own, and `pause_transfer` reaches the
directories. -/
structure LookedUp (events : List Event) : Prop where
  begins : ∀ before e later, events = before ++ e::later → e.incoming = true →
    (handle order debug (after (step order debug) {} before) e).1 = .ok ()
  found : ∀ before later, events = before ++ later →
    ∀ t ∈ (after (step order debug) {} before).running,
      lookup order (after (step order debug) {} before) t = .handle t.handle
  paused : ∀ before later, events = before ++ later →
    ∀ t ∈ (after (step order debug) {} before).running, t.kind = .incomingDirectory →
      ((after (step order debug) {} before).pauseTransfer order t.peer t.handle.id).1 = .ok ()

theorem sound_new : Sound {} := by
  constructor <;> intro p hp
  case numbered => exact fun hx => absurd hx (Finset.notMem_empty _)
  all_goals cases hp

variable {order debug}

theorem Sound.lookup (order : SetOrder TransferHandle) (h : Sound m) {t : Running} (ht : t ∈ m.running) :
    lookup order m t = .handle t.handle := (h.filed t ht).found order (h.named t ht)

theorem Sound.paused (h : Sound m) {t : Running} (ht : t ∈ m.running) (hk : t.kind = .incomingDirectory) :
    (m.pauseTransfer order t.peer t.handle.id).1 = .ok () := by
  have hl := h.lookup order ht
  rw [State.lookup, hk] at hl
  rcases hg : m.dirs.getTransfer order TransferHandle.id (some t.peer) t.handle.id with ⟨found,dirs⟩
  have hfound : found = .handle t.handle := by
    rw [← hl]
    exact (congrArg Prod.fst hg).symm
  rw [State.pauseTransfer, hg, hfound]

theorem handle_incoming {e : Event} (he : e.incoming = true) (m : State) :
    (handle order debug m e).1 = connectionMade debug .connectSender .connectReceiver := by
  cases e with
  | fileReceiver msgId peer fileId => cases debug <;> rfl
  | dirConnection peer transferId => cases debug <;> rfl
  | _ => cases he

/-- If every event is proper, every transfer can be looked up at any time. -/
theorem lookedUp_of_proper {events : List Event}
    (h : Along (step order debug) (Proper debug) {} events) : LookedUp order debug events := by
  have hsound : ∀ before later, events = before ++ later → Sound (after (step order debug) {} before) := by
    rintro before later rfl
    exact (along_append.mp h).1.invariant (fun m e hproper hm => hm.step order debug hproper) sound_new
  refine ⟨?_,fun before later he t ht => (hsound before later he).lookup order ht,
    fun before later he t ht hk => (hsound before later he).paused ht hk⟩
  rintro before e later rfl hincoming
  have hproper := (along_append.mp h).2.1
  have hdebug : debug = false := by
    cases e with
    | fileReceiver msgId peer fileId => exact hproper.1.1
    | dirConnection peer transferId => exact hproper.1.1
    | _ => cases hincoming
  rw [handle_incoming hincoming, hdebug]
  rfl

/-- No handle is in a book before it has been made. -/
structure Made (m : State) : Prop where
  listed : ∀ kind p h, (m.book kind).Listed p h → h.number < m.created
  running : ∀ t ∈ m.running, t.handle.number < m.created

theorem listed_sameSets {b b' : Book} (hs : SameSets b b') {p : Option PeerId} {x : TransferHandle} :
    b'.Listed p x ↔ b.Listed p x := by
  simp [Listed, hs.current, hs.completed, hs.continued]

/-- Only the handle that is filed comes to a book, and only under its key. -/
theorem listed_addToCurrent {b : Book} {p key : Option PeerId} {x y : TransferHandle}
    (h : (b.addToCurrent key y).Listed p x) : b.Listed p x ∨ p = key ∧ x = y := by
  by_cases hp : p = key <;>
    simp only [Listed, addToCurrent, DefaultDict.item_adjust, hp, if_true, if_false, Finset.mem_insert,
      Finset.mem_erase] at h ⊢ <;> tauto

theorem listed_file {b : Book} {p key : Option PeerId} {x y : TransferHandle} (filing : Option Filing)
    (h : (Filing.file key y filing b).Listed p x) : b.Listed p x ∨ x = y := by
  rcases filing with _ | _ | _
  · exact .inl h
  all_goals
    by_cases hp : p = key <;>
      simp only [Listed, Filing.file, addToCompleted, addToContinued, DefaultDict.item_adjust, hp, if_true,
        if_false, Finset.mem_insert, Finset.mem_erase] at h ⊢ <;> tauto

/-- A change of one book that brings no handle but known ones. -/
theorem Made.changeBook (h : Made m) (kind : Kind) {f : Book → Book}
    (hf : ∀ p x, (f (m.book kind)).Listed p x → x.number < m.created) :
    ∀ kind' p x, ((m.changeBook kind f).book kind').Listed p x → x.number < m.created := by
  intro kind' p x hx
  rcases book_changeBook kind kind' f m with ⟨hsame,hbook⟩ | ⟨_,hbook⟩
  · rw [hbook, ← book_sameManager hsame] at hx
    exact hf p x hx
  · rw [hbook] at hx
    exact h.listed kind' p x hx

theorem Made.begin (h : Made m) (kind : Kind) (peer : PeerId) (key : Option PeerId) (id : List Char) :
    Made (m.begin kind peer key id) where
  listed := by
    intro kind' p x hx
    show x.number < m.created+1
    rw [book_begin] at hx
    rcases book_changeBook kind kind' (fun b => b.addToCurrent key ⟨m.created,id⟩) m with
      ⟨_,hbook⟩ | ⟨_,hbook⟩
    · rw [hbook] at hx
      rcases listed_addToCurrent hx with hx | ⟨_,rfl⟩
      · exact Nat.lt_succ_of_lt (h.listed kind' p x hx)
      · exact Nat.lt_succ_self _
    · rw [hbook] at hx
      exact Nat.lt_succ_of_lt (h.listed kind' p x hx)
  running := by
    intro t ht
    show t.handle.number < m.created+1
    rcases List.mem_append.mp ht with ht | ht
    · exact Nat.lt_succ_of_lt (h.running t ht)
    · obtain rfl := List.mem_singleton.mp ht
      exact Nat.lt_succ_self _

theorem Made.receive (h : Made m) (kind : Kind) (peer : PeerId) (key : Option PeerId) (id : List Char) :
    Made (m.receive debug kind peer key id).2 := by
  cases debug with
  | false => exact h.begin kind peer key id
  | true =>
    exact ⟨fun kind' p x hx => Nat.lt_succ_of_lt (h.listed kind' p x (by cases kind' <;> exact hx)),
      fun t ht => Nat.lt_succ_of_lt (h.running t ht)⟩

theorem Made.finish (h : Made m) (t : Running) (state : TransferState) (raised : Bool) :
    Made (m.finish t state raised) := by
  unfold State.finish
  split
  next ht =>
    have hlisted := h.changeBook t.kind (f := Filing.file t.key t.handle (t.kind.filing state raised))
      fun p x hx => by
        rcases listed_file _ hx with hx | rfl
        · exact h.listed t.kind p x hx
        · exact h.running t ht
    refine ⟨fun kind' p x hx => ?_,fun t' ht' => ?_⟩
    · show x.number < (m.changeBook t.kind _).created
      rw [created_changeBook]
      exact hlisted kind' p x (by cases kind' <;> exact hx)
    · show t'.handle.number < (m.changeBook t.kind _).created
      rw [created_changeBook]
      exact h.running t' (List.mem_filter.mp ht').1
  next => exact h

theorem Made.sameSets (h : Made m) (hfiles : SameSets m.files m'.files) (hdirs : SameSets m.dirs m'.dirs)
    (hrunning : m'.running = m.running) (hcreated : m'.created = m.created) : Made m' where
  listed := by
    intro kind p x hx
    rw [hcreated]
    refine h.listed kind p x ?_
    cases kind with
    | incomingDirectory => exact (listed_sameSets hdirs).mp hx
    | outgoing => exact (listed_sameSets hfiles).mp hx
    | incomingFile => exact (listed_sameSets hfiles).mp hx
  running := fun t ht => hcreated ▸ h.running t (hrunning ▸ ht)

theorem Made.sendFilesToPeer (h : Made m) (peer : PeerId) : Made (m.sendFilesToPeer order peer) := by
  obtain ⟨files,hs,hr | hr⟩ := sendFilesToPeer_cases order m peer
  · rw [hr]
    exact h.sameSets hs (.refl _) rfl rfl
  · rw [hr]
    have hready : Made { m with files := files, idCounter := m.idCounter+1 } :=
      h.sameSets hs (.refl _) rfl rfl
    exact hready.begin .outgoing peer (some peer) _

theorem Made.pauseTransfer (h : Made m) (peer : PeerId) (transferId : List Char) :
    Made (m.pauseTransfer order peer transferId).2 := by
  obtain ⟨dirs,hs,hcases⟩ := pauseTransfer_cases order m peer transferId
  have hsame : Made { m with dirs := dirs } := h.sameSets (.refl _) hs rfl rfl
  rcases hcases with hr | ⟨y,hlisted,hr⟩
  · rw [hr]
    exact hsame
  · rw [hr]
    refine ⟨fun kind p x hx => ?_,h.running⟩
    cases kind with
    | incomingDirectory =>
      rcases listed_file (some .continued) hx with hx | rfl
      · exact hsame.listed .incomingDirectory p x hx
      · exact h.listed .incomingDirectory (some peer) x hlisted
    | outgoing => exact hsame.listed .outgoing p x hx
    | incomingFile => exact hsame.listed .incomingFile p x hx

theorem Made.step (h : Made m) (e : Event) : Made (step order debug m e) := by
  cases e with
  | sendFiles peer => exact h.sendFilesToPeer peer
  | fileReceiver msgId peer fileId => exact h.receive _ _ _ _
  | dirConnection peer transferId => exact h.receive _ _ _ _
  | sendDirectory => exact h.sameSets (.refl _) (.refl _) rfl rfl
  | finish t state raised => exact h.finish t state raised
  | pauseTransfer peer transferId => exact h.pauseTransfer peer transferId
  | getTransfer kind peer fileId =>
    have hs := fun b : Book => sameSets_getTransfer order TransferHandle.id (some peer) fileId b
    cases kind with
    | incomingDirectory => exact h.sameSets (.refl _) (hs _) rfl rfl
    | outgoing => exact h.sameSets (hs _) (.refl _) rfl rfl
    | incomingFile => exact h.sameSets (hs _) (.refl _) rfl rfl

theorem made_new : Made {} :=
  ⟨fun kind p x hx => by cases kind <;> simp [Listed, book] at hx,fun t ht => by cases ht⟩

/-- A transfer that begins is found only if it is filed under its peer. -/
theorem key_of_lookup (h : Made m) {kind : Kind} {peer : PeerId} {key : Option PeerId} {id : List Char}
    (hfound : lookup order (m.begin kind peer key id) ⟨kind,peer,key,⟨m.created,id⟩⟩ =
      .handle ⟨m.created,id⟩) : key = some peer := by
  have hlisted := listed_of_getTransfer order TransferHandle.id hfound
  rw [book_begin] at hlisted
  rcases book_changeBook kind kind (fun b => b.addToCurrent key ⟨m.created,id⟩) m with
    ⟨_,hbook⟩ | ⟨hne,_⟩
  · rw [hbook] at hlisted
    rcases listed_addToCurrent hlisted with hlisted | ⟨hkey,_⟩
    · exact absurd (h.listed kind (some peer) _ hlisted) (Nat.lt_irrefl _)
    · exact hkey.symm
  · exact absurd Iff.rfl hne

/-- The keys are necessary. -/
theorem keyed_of_lookedUp {events : List Event} (h : LookedUp order debug events) :
    ∀ e ∈ events, Keyed debug e := by
  intro e he
  obtain ⟨before,later,rfl⟩ := List.append_of_mem he
  have hstep : ∀ m e, Made m → Made (step order debug m e) := fun m e hm => hm.step e
  have hmade := after_invariant hstep made_new before
  have hdebug : e.incoming = true → debug = false := by
    intro hincoming
    have hbegins := h.begins before e later rfl hincoming
    rw [handle_incoming hincoming] at hbegins
    cases debug with
    | false => rfl
    | true => cases hbegins
  have hfound := h.found (before ++ [e]) later (by simp)
  rw [after_append, after_cons, after_nil] at hfound
  cases e with
  | fileReceiver msgId peer fileId =>
    obtain rfl := hdebug rfl
    exact ⟨rfl,key_of_lookup hmade (hfound _ (List.mem_append_right _ (List.mem_singleton_self _)))⟩
  | dirConnection peer transferId =>
    obtain rfl := hdebug rfl
    have hkey := key_of_lookup hmade (hfound _ (List.mem_append_right _ (List.mem_singleton_self _)))
    exact ⟨rfl,List.append_right_eq_self.mp (Option.some.inj hkey)⟩
  | _ => trivial

/-- Every transfer can be looked up at any time if every event is proper, and only if every incoming one
is filed under its peer. -/
theorem lookedUp_if_proper_only_if_keyed (order : SetOrder TransferHandle) (debug : Bool)
    (events : List Event) :
    (Along (step order debug) (Proper debug) {} events → LookedUp order debug events) ∧
      (LookedUp order debug events → ∀ e ∈ events, Keyed debug e) :=
  ⟨lookedUp_of_proper,keyed_of_lookedUp⟩

/-- A file whose packet has the peer's id, a directory with no id of its own, and files sent to both
peers. -/
theorem three_transfers_lookedUp : LookedUp .arbitrary false
    [.fileReceiver (some ['p']) ['p'] ['0'],.dirConnection ['q'] [],.sendFiles ['q'],.sendFiles ['p']] := by
  refine (lookedUp_if_proper_only_if_keyed _ _ _).1
    ⟨⟨⟨rfl,rfl⟩,fun h hh => ?_⟩,⟨⟨rfl,rfl⟩,fun h hh => ?_⟩,⟨trivial,trivial⟩,⟨trivial,trivial⟩,trivial⟩
  · exact absurd hh (Finset.notMem_empty _)
  · rcases hh with hh | hh | hh
    all_goals exact absurd hh (Finset.notMem_empty _)

/-- A file that comes in with no id of its packet, and a directory with an id of its own, cannot be looked
up, with assertions or without. -/
theorem incoming_not_lookedUp :
    ¬ LookedUp .arbitrary true [.fileReceiver none ['p'] ['0']] ∧
      ¬ LookedUp .arbitrary false [.fileReceiver none ['p'] ['0']] ∧
      ¬ LookedUp .arbitrary true [.dirConnection ['p'] ['1']] ∧
      ¬ LookedUp .arbitrary false [.dirConnection ['p'] ['1']] := by
  have hfile : ∀ debug, ¬ Keyed debug (.fileReceiver none ['p'] ['0']) := fun _ h => by simp [Keyed] at h
  have hdir : ∀ debug, ¬ Keyed debug (.dirConnection ['p'] ['1']) := fun _ h => by simp [Keyed] at h
  exact ⟨fun h => hfile _ (keyed_of_lookedUp h _ (List.mem_singleton_self _)),
    fun h => hfile _ (keyed_of_lookedUp h _ (List.mem_singleton_self _)),
    fun h => hdir _ (keyed_of_lookedUp h _ (List.mem_singleton_self _)),
    fun h => hdir _ (keyed_of_lookedUp h _ (List.mem_singleton_self _))⟩

end
end State
end PeerConnect.Managers.RunningTransfers
