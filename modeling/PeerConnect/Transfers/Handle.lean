import PeerConnect.Transfers.SendingTask
import PeerConnect.Library.Run

/-! The calls on the handle of a transfer, at any moment and among the steps of its coroutines: what they
may do to its state. -/
namespace PeerConnect.Transfers
open Library Wire

/-- The calls that are made on a handle, besides `continue_transfer`. -/
inductive HandleCall
  | pause
  | resume
  | cancel
  | attachFiles (pathsList : List LocalFile)

/-- What happens to a handle: it is called, its transfer starts or continues, it gets its connection, one
of its coroutines gets an answer, or something is raised where that is suspended. -/
inductive HandleEvent (α : Type)
  | call (c : HandleCall)
  | start
  | continueTransfer
  | connectionMade
  | goOn (i : ℕ) (answer : α)
  | interrupted (i : ℕ) (x : Raised)

/-- The handles of a kind: their state `η`, the points `π` where their coroutines are suspended, and the
answers `α` that these wait for. One that has yielded is closed when something is raised, and raises
nothing itself. -/
structure HandleKind (η π α : Type) where
  state : η → TransferState
  made : η → Bool
  connectionMade : η → η
  call : HandleCall → Coro Exn η Unit
  start : Coro Exn η (Option π)
  continueTransfer : Coro Exn η (Option π)
  goOn : (continued : Bool) → α → π → Coro Exn η (Option π)
  interrupt : π → Raised → Coro Exn η Unit
  yielded : π → Bool

/-- A coroutine of a handle. That of `continue_transfer` has the state of the handle before the call; one
that has ended has no point. -/
structure HandleTask (π : Type) where
  before : Option TransferState
  point : Option π

structure Transfer (η π : Type) where
  handle : η
  tasks : List (HandleTask π) := []

/-- The state of a handle that no later call is to change. -/
def TransferState.Final (st : TransferState) : Prop := st = .completed ∨ st = .aborting

instance (st : TransferState) : Decidable st.Final := inferInstanceAs (Decidable (_ ∨ _))

/-- What comes of an event, with the state before the call that raises in it. -/
structure HandleOutcome (η π : Type) where
  next : Transfer η π
  failed : Option TransferState := none

namespace HandleKind
variable {η π α : Type} (k : HandleKind η π α)

/-- The coroutine that a call leaves suspended. -/
def opened (before : Option TransferState) : Run Exn η (Option π) → List (HandleTask π)
  | .done (some p) _ => [⟨before,some p⟩]
  | _ => []

/-- Where a step leaves a coroutine. -/
def pointAfter (p : π) : Run Exn η (Option π) → Option π
  | .done q _ => q
  | .raised _ _ => none
  | .blocked _ => some p

def failedFrom {β : Type} (before : Option TransferState) : Run Exn η β → Option TransferState
  | .raised _ _ => before
  | _ => none

def act (t : Transfer η π) : HandleEvent α → HandleOutcome η π
  | .call c =>
    let run := k.call c t.handle
    ⟨{ t with handle := run.state },failedFrom (some (k.state t.handle)) run⟩
  | .start =>
    let run := k.start t.handle
    ⟨⟨run.state,t.tasks ++ opened none run⟩,none⟩
  | .continueTransfer =>
    let run := k.continueTransfer t.handle
    let before := some (k.state t.handle)
    ⟨⟨run.state,t.tasks ++ opened before run⟩,failedFrom before run⟩
  | .connectionMade => ⟨{ t with handle := k.connectionMade t.handle },none⟩
  | .goOn i answer =>
    match t.tasks[i]? with
    | some ⟨before,some p⟩ =>
      let run := k.goOn before.isSome answer p t.handle
      ⟨⟨run.state,t.tasks.set i ⟨before,pointAfter p run⟩⟩,failedFrom before run⟩
    | _ => ⟨t,none⟩
  | .interrupted i x =>
    match t.tasks[i]? with
    | some ⟨before,some p⟩ =>
      let run := k.interrupt p x t.handle
      ⟨⟨run.state,t.tasks.set i ⟨before,none⟩⟩,if k.yielded p then none else before⟩
    | _ => ⟨t,none⟩

def step (t : Transfer η π) (e : HandleEvent α) : Transfer η π := (k.act t e).next

/-- A call leaves a final state as it is, and if it raises, at once or later, any state. -/
def Respects (t : Transfer η π) (e : HandleEvent α) : Prop :=
  (∀ st ∈ (k.act t e).failed, k.state (k.step t e).handle = st) ∧
    match e with
    | .call _ | .continueTransfer =>
      (k.state t.handle).Final → k.state (k.step t e).handle = k.state t.handle
    | _ => True

end HandleKind

/-- Where `continue_transfer` raises something that leaves the handle in another state than paused: at
its call, at an answer, and where it is suspended. -/
structure HandleFaults (η π α : Type) where
  atCall : η → Prop
  atAnswer : η → α → π → Prop
  atInterrupt : π → Raised → Prop

namespace HandleKind
variable {η π α : Type} (k : HandleKind η π α) (f : HandleFaults η π α)

/-- A handle is paused while it has a connection and has not come to its end, and nothing is raised in
`continue_transfer` that its handlers do not know. -/
def Regular (t : Transfer η π) : HandleEvent α → Prop
  | .call .pause => k.state t.handle = .paused ∨ k.made t.handle = true ∧ ¬ (k.state t.handle).Final
  | .call .resume => k.state t.handle = .paused → k.made t.handle = true
  | .continueTransfer => ¬ f.atCall t.handle
  | .goOn i answer => ∀ before p, t.tasks[i]? = some ⟨some before,some p⟩ →
    f.atAnswer t.handle answer p → k.state t.handle = .paused
  | .interrupted i x => ∀ before p, t.tasks[i]? = some ⟨some before,some p⟩ →
    f.atInterrupt p x → k.state t.handle = .paused
  | _ => True

/-- The start of `continue_transfer`: refused, failed, or begun on a paused handle. -/
inductive Continues (Known : η → π → Prop) (fault : Prop) (h : η) : Run Exn η (Option π) → Prop
  | refused {e} (hf : ¬ fault) : Continues Known fault h (.raised e h)
  | failed {e h'} (hf : fault) (hs : k.state h = .paused) (hs' : k.state h' ≠ .paused) :
    Continues Known fault h (.raised e h')
  | begun {p h'} (hf : ¬ fault) (hs : k.state h = .paused) (hp : Known h' p) :
    Continues Known fault h (.done (some p) h')

/-- A step of `continue_transfer` fails if a fault is there, and leaves the state; or it goes on, or
pauses the handle. -/
inductive Answers (Known : η → π → Prop) (fault : Prop) (h : η) : Run Exn η (Option π) → Prop
  | done {q h'} (hf : ¬ fault) (hq : ∀ p ∈ q, Known h' p) : Answers Known fault h (.done q h')
  | failed {e h'} (hf : fault) (hs : k.state h' = k.state h) : Answers Known fault h (.raised e h')
  | paused {e h'} (hf : ¬ fault) (hs : k.state h' = .paused) : Answers Known fault h (.raised e h')
  | blocked {h'} (hf : ¬ fault) : Answers Known fault h (.blocked h')

/-- What the operations of a kind do. The points of `continue_transfer` are those that `Known` holds of,
and it goes on to hold as a handle develops. -/
structure Lawful (Known : η → π → Prop) (Develops : η → η → Prop) : Prop where
  known : ∀ {h h' p}, Develops h h' → Known h p → Known h' p
  call : ∀ c h, Develops h (k.call c h).state
  connectionMade : ∀ h, Develops h (k.connectionMade h)
  start : ∀ h, Develops h (k.start h).state
  continueTransfer : ∀ h, Develops h (k.continueTransfer h).state
  goOn : ∀ b a p h, Develops h (k.goOn b a p h).state
  interrupt : ∀ p x h, Develops h (k.interrupt p x h).state
  pause_state : ∀ h, k.state (k.call .pause h).state = .paused
  pause_raises : ∀ h, (∃ e h', k.call .pause h = .raised e h') ↔ k.made h = false
  resume_idle : ∀ h, k.state h ≠ .paused → k.call .resume h = .done () h
  resume_state : ∀ h, k.state h = .paused → k.state (k.call .resume h).state ≠ .paused
  resume_raises : ∀ h, k.state h = .paused →
    ((∃ e h', k.call .resume h = .raised e h') ↔ k.made h = false)
  cancel : ∀ h, k.state (k.call .cancel h).state = k.state h
  attachFiles : ∀ paths h, k.state (k.call (.attachFiles paths) h).state = k.state h
  continues : ∀ h, k.Continues Known (f.atCall h) h (k.continueTransfer h)
  answers : ∀ h a p, Known h p → k.Answers Known (f.atAnswer h a p) h (k.goOn true a p h)
  interrupt_yielded : ∀ p x, k.yielded p = true → ¬ f.atInterrupt p x
  interrupt_state : ∀ h p x, Known h p → k.yielded p = false →
    (k.state (k.interrupt p x h).state = .paused ↔ (f.atInterrupt p x → k.state h = .paused))

/-- The coroutines of `continue_transfer` have begun on a paused handle and are where its kind knows. -/
def Begun (Known : η → π → Prop) (t : Transfer η π) : Prop :=
  ∀ c ∈ t.tasks, ∀ before, c.before = some before →
    before = .paused ∧ ∀ p, c.point = some p → Known t.handle p

theorem mem_failedFrom {β : Type} {before : Option TransferState} {run : Run Exn η β}
    {st : TransferState} :
    st ∈ failedFrom before run ↔ before = some st ∧ ∃ e h', run = .raised e h' := by
  cases run <;> simp [failedFrom]

/-- A call that does not raise is only asked about final states. -/
theorem respects_call (t : Transfer η π) (c : HandleCall) : k.Respects t (.call c) ↔
    ((∃ e h', k.call c t.handle = .raised e h') ∨ (k.state t.handle).Final →
      k.state (k.call c t.handle).state = k.state t.handle) := by
  simp only [Respects, step, act, mem_failedFrom, or_imp]
  refine and_congr_left' ⟨fun h hr => h _ ⟨rfl,hr⟩,fun h st hst => ?_⟩
  obtain ⟨hst,hr⟩ := hst
  rw [h hr, Option.some.inj hst]

section Begun
variable {Known : η → π → Prop} {t : Transfer η π}

/-- One more coroutine. -/
theorem begun_append (h : Begun Known t) {c : HandleTask π}
    (hc : ∀ before, c.before = some before → before = .paused ∧ ∀ p, c.point = some p → Known t.handle p) :
    Begun Known { t with tasks := t.tasks ++ [c] } := by
  intro c' hc' before hb
  rcases List.mem_append.mp hc' with hc' | hc'
  · exact h c' hc' before hb
  · obtain rfl := List.mem_singleton.mp hc'
    exact hc before hb

/-- One coroutine has gone on. -/
theorem begun_set (h : Begun Known t) {i : ℕ} {c : HandleTask π}
    (hc : ∀ before, c.before = some before → before = .paused ∧ ∀ p, c.point = some p → Known t.handle p) :
    Begun Known { t with tasks := t.tasks.set i c } := by
  intro c' hc' before hb
  rcases List.mem_or_eq_of_mem_set hc' with hc' | rfl
  · exact h c' hc' before hb
  · exact hc before hb

end Begun

section Lawful
variable {k f} {Known : η → π → Prop} {Develops : η → η → Prop} (hk : k.Lawful f Known Develops)
  {t : Transfer η π}
include hk

theorem begun_develops (h : Begun Known t) {h' : η} (hd : Develops t.handle h') :
    Begun Known { t with handle := h' } := by
  intro c hc before hb
  obtain ⟨hpaused,hknown⟩ := h c hc before hb
  exact ⟨hpaused,fun p hp => hk.known hd (hknown p hp)⟩

theorem begun_goOn (h : Begun Known t) {i : ℕ} {before : Option TransferState} {p : π}
    (hget : t.tasks[i]? = some ⟨before,some p⟩) (a : α) :
    Begun Known ⟨(k.goOn before.isSome a p t.handle).state,
      t.tasks.set i ⟨before,pointAfter p (k.goOn before.isSome a p t.handle)⟩⟩ := by
  have hd := hk.goOn before.isSome a p t.handle
  refine begun_set (begun_develops hk h hd) fun st hst => ?_
  obtain ⟨hpaused,hknown⟩ := h _ (List.mem_of_getElem? hget) st hst
  refine ⟨hpaused,fun q hq => ?_⟩
  have hp := hknown p rfl
  obtain rfl : before = some st := hst
  have hanswers := hk.answers _ a p hp
  cases hr : k.goOn true a p t.handle with
  | done q' h' =>
    rw [hr] at hanswers
    simp only [Option.isSome_some, hr, pointAfter] at hq ⊢
    cases hanswers with
    | done _ hknown' => exact hknown' q hq
  | raised e h' =>
    simp only [Option.isSome_some, hr, pointAfter] at hq
    cases hq
  | blocked h' =>
    simp only [Option.isSome_some, hr, pointAfter] at hq hd ⊢
    cases hq
    exact hk.known hd hp

theorem begun_step (h : Begun Known t) (e : HandleEvent α) : Begun Known (k.step t e) := by
  cases e with
  | call c => exact begun_develops hk h (hk.call c t.handle)
  | start =>
    have hd := begun_develops hk h (hk.start t.handle)
    simp only [step, act]
    cases hr : k.start t.handle with
    | done q h' =>
      rw [hr] at hd
      cases q with
      | none => simpa [opened] using hd
      | some p => exact begun_append hd nofun
    | raised e h' => rw [hr] at hd; simpa [opened] using hd
    | blocked h' => rw [hr] at hd; simpa [opened] using hd
  | continueTransfer =>
    have hd := begun_develops hk h (hk.continueTransfer t.handle)
    simp only [step, act]
    cases hr : k.continueTransfer t.handle with
    | done q h' =>
      rw [hr] at hd
      cases q with
      | none => simpa [opened] using hd
      | some p =>
        have hcontinues := hk.continues t.handle
        rw [hr] at hcontinues
        cases hcontinues with
        | begun _ hpaused hknown =>
          refine begun_append hd fun before hb => ⟨?_,fun q hq => ?_⟩
          · obtain rfl := Option.some.inj hb
            exact hpaused
          · obtain rfl := Option.some.inj hq
            exact hknown
    | raised e h' => rw [hr] at hd; simpa [opened] using hd
    | blocked h' => rw [hr] at hd; simpa [opened] using hd
  | connectionMade => exact begun_develops hk h (hk.connectionMade t.handle)
  | goOn i a =>
    simp only [step, act]
    split
    next before p hget => exact begun_goOn hk h hget a
    next => exact h
  | interrupted i x =>
    simp only [step, act]
    split
    next before p hget =>
      refine begun_set (begun_develops hk h (hk.interrupt p x t.handle)) fun st hst => ?_
      exact ⟨(h _ (List.mem_of_getElem? hget) st hst).1,nofun⟩
    next => exact h

theorem respects_pause : k.Respects t (.call .pause) ↔ k.Regular f t (.call .pause) := by
  rw [respects_call, hk.pause_raises, hk.pause_state, Regular]
  by_cases hp : k.state t.handle = .paused
  · simp [hp]
  · have hp' : ¬ TransferState.paused = k.state t.handle := fun h => hp h.symm
    cases k.made t.handle <;> simp [hp, hp']

theorem respects_resume : k.Respects t (.call .resume) ↔ k.Regular f t (.call .resume) := by
  rw [respects_call, Regular]
  by_cases hp : k.state t.handle = .paused
  · have hfinal : ¬ (k.state t.handle).Final := by rw [hp]; decide
    have hstate := hk.resume_state t.handle hp
    rw [hk.resume_raises t.handle hp, hp] at *
    cases k.made t.handle <;> simp [hstate, TransferState.Final]
  · rw [hk.resume_idle t.handle hp]
    simp [hp]

theorem respects_continueTransfer :
    k.Respects t .continueTransfer ↔ k.Regular f t .continueTransfer := by
  have hcontinues := hk.continues t.handle
  simp only [Respects, Regular, step, act, mem_failedFrom]
  cases hr : k.continueTransfer t.handle with
  | blocked h' => rw [hr] at hcontinues; cases hcontinues
  | done q h' =>
    rw [hr] at hcontinues
    cases hcontinues with
    | begun hf hs _ =>
      refine iff_of_true ⟨fun st hst => ?_,fun hfinal => ?_⟩ hf
      · obtain ⟨_,_,_,h⟩ := hst
        cases h
      · rw [hs] at hfinal
        exact absurd hfinal (by decide)
  | raised e h' =>
    rw [hr] at hcontinues
    cases hcontinues with
    | refused hf =>
      exact iff_of_true ⟨fun st hst => Option.some.inj hst.1,fun _ => rfl⟩ hf
    | failed hf hs hs' =>
      refine iff_of_false (fun h => ?_) (not_not_intro hf)
      exact hs' ((h.1 _ ⟨rfl,e,h',rfl⟩).trans hs)

theorem respects_goOn (hb : Begun Known t) (i : ℕ) (a : α) :
    k.Respects t (.goOn i a) ↔ k.Regular f t (.goOn i a) := by
  simp only [Respects, Regular, step, act, and_true]
  split
  next before p hget =>
    simp only [mem_failedFrom]
    cases before with
    | none => simp [hget]
    | some st =>
      obtain ⟨rfl,hknown⟩ := hb _ (List.mem_of_getElem? hget) st rfl
      have hanswers := hk.answers _ a p (hknown p rfl)
      have hregular : (∀ before p', t.tasks[i]? = some ⟨some before,some p'⟩ →
          f.atAnswer t.handle a p' → k.state t.handle = .paused) ↔
          (f.atAnswer t.handle a p → k.state t.handle = .paused) := by
        refine ⟨fun h => h _ p hget,fun h before' p' hget' => ?_⟩
        rw [hget] at hget'
        cases hget'
        exact h
      rw [hregular, Option.isSome_some]
      generalize k.goOn true a p t.handle = r at hanswers ⊢
      cases hanswers with
      | done hf _ | blocked hf => simp [hf]
      | failed hf hs => simp [hf, hs]
      | paused hf hs => simp [hf, hs]
  next hget =>
    refine iff_of_true nofun fun before p hget' => ?_
    exact absurd hget' (hget (some before) p)

theorem respects_interrupted (hb : Begun Known t) (i : ℕ) (x : Raised) :
    k.Respects t (.interrupted i x) ↔ k.Regular f t (.interrupted i x) := by
  simp only [Respects, Regular, step, act, and_true]
  split
  next before p hget =>
    cases before with
    | none => simp [hget]
    | some st =>
      obtain ⟨rfl,hknown⟩ := hb _ (List.mem_of_getElem? hget) st rfl
      cases hy : k.yielded p with
      | true =>
        refine iff_of_true nofun fun before' p' hget' hf => ?_
        rw [hget] at hget'
        cases hget'
        exact absurd hf (hk.interrupt_yielded p x hy)
      | false =>
        have hstate := hk.interrupt_state _ p x (hknown p rfl) hy
        refine ⟨fun h before' p' hget' hf => ?_,fun h st' hst => ?_⟩
        · rw [hget] at hget'
          cases hget'
          exact hstate.mp (h _ rfl) hf
        · cases hst
          exact hstate.mpr (h _ p hget)
  next hget =>
    refine iff_of_true nofun fun before p hget' => ?_
    exact absurd hget' (hget (some before) p)

theorem respects_step_iff (hb : Begun Known t) (e : HandleEvent α) :
    k.Respects t e ↔ k.Regular f t e := by
  cases e with
  | call c =>
    cases c with
    | pause => exact respects_pause hk
    | resume => exact respects_resume hk
    | cancel => exact iff_of_true ((respects_call k t _).mpr fun _ => hk.cancel t.handle) trivial
    | attachFiles paths =>
      exact iff_of_true ((respects_call k t _).mpr fun _ => hk.attachFiles paths t.handle) trivial
  | start => exact iff_of_true ⟨nofun,trivial⟩ trivial
  | continueTransfer => exact respects_continueTransfer hk
  | connectionMade => exact iff_of_true ⟨nofun,trivial⟩ trivial
  | goOn i a => exact respects_goOn hk hb i a
  | interrupted i x => exact respects_interrupted hk hb i x

/-- A run respects the states of its handle just if it is regular. -/
theorem respects_iff_regular (ht : t.tasks = []) (es : List (HandleEvent α)) :
    Along k.step k.Respects t es ↔ Along k.step (k.Regular f) t es :=
  along_congr (I := Begun Known) (fun _ e hb => begun_step hk hb e)
    (fun _ e hb => respects_step_iff hk hb e) (fun c hc => by rw [ht] at hc; cases hc)

end Lawful

end HandleKind
end PeerConnect.Transfers
