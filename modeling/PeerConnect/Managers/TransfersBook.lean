import PeerConnect.Library.Run
import PeerConnect.Library.Sets
import PeerConnect.Wire.Value

/-! The book of transfers with all that lookups leave behind in it, and what stopping all files makes of
it. -/
namespace PeerConnect.Managers.TransfersBook
open Library Wire

/-- The handles of each peer. -/
structure TransfersBookKeeper (π η : Type) where
  continued : DefaultDict π η := .empty
  completed : DefaultDict π η := .empty
  current : DefaultDict π η := .empty

/-- What a lookup answers: a handle, all that are running, or nothing. -/
inductive Found (η : Type)
  | handle (h : η)
  | running (hs : List η)
  | nothing
  deriving DecidableEq, Repr

namespace TransfersBookKeeper

variable {π η : Type} [DecidableEq π] [DecidableEq η]

def addToCurrent (peerId : π) (handle : η) (b : TransfersBookKeeper π η) : TransfersBookKeeper π η :=
  { b with
    current := b.current.adjust peerId (insert handle)
    continued := b.continued.adjust peerId fun s => s.erase handle }

def addToCompleted (peerId : π) (handle : η) (b : TransfersBookKeeper π η) : TransfersBookKeeper π η where
  current := b.current.adjust peerId fun s => s.erase handle
  continued := b.continued.adjust peerId fun s => s.erase handle
  completed := b.completed.adjust peerId (insert handle)

def addToContinued (peerId : π) (handle : η) (b : TransfersBookKeeper π η) : TransfersBookKeeper π η :=
  { b with
    current := b.current.adjust peerId fun s => s.erase handle
    continued := b.continued.adjust peerId (insert handle) }

/-- `remove` raises where the handle is not, but the key stays. -/
def swap (peerId : π) (handle : η) (b : TransfersBookKeeper π η) :
    Except Exn Unit × TransfersBookKeeper π η :=
  if handle ∈ b.continued.item peerId then
    (.ok (),{ b with
      continued := b.continued.adjust peerId fun s => s.erase handle
      completed := b.completed.adjust peerId (insert handle) })
  else (.error .keyError,{ b with continued := b.continued.touch peerId })

section
variable (order : SetOrder η) (id : η → List Char)

def getTransfer (peerId : π) (fileId : List Char) (b : TransfersBookKeeper π η) :
    Found η × TransfersBookKeeper π η :=
  let hasId := fun h => decide (id h = fileId)
  let b := { b with current := b.current.touch peerId }
  if fileId = [] then (.running (order.toList (b.current.item peerId)),b)
  else
    match order.find? hasId (b.current.item peerId) with
    | some h => (.handle h,b)
    | none =>
      let b := { b with completed := b.completed.touch peerId }
      match order.find? hasId (b.completed.item peerId) with
      | some h => (.handle h,b)
      | none =>
        let b := { b with continued := b.continued.touch peerId }
        match order.find? hasId (b.continued.item peerId) with
        | some h => (.handle h,b)
        | none => (.nothing,b)

def checkRunning (peerId : π) (b : TransfersBookKeeper π η) : Option η × TransfersBookKeeper π η :=
  ((order.toList (b.current.item peerId)).head?,{ b with current := b.current.touch peerId })

end

/-- `break_loop` of every running handle has returned. -/
def stopAllFiles (b : TransfersBookKeeper π η) : TransfersBookKeeper π η :=
  { b with continued := b.continued.update b.current, current := .empty }

end TransfersBookKeeper

/-- A call of the book before all files are stopped. -/
inductive Call (π η : Type)
  | addToCurrent (peerId : π) (handle : η)
  | addToContinued (peerId : π) (handle : η)
  | addToCompleted (peerId : π) (handle : η)
  | swap (peerId : π) (handle : η)
  | getTransfer (peerId : π) (fileId : List Char)
  | checkRunning (peerId : π)

namespace TransfersBookKeeper

variable {π η : Type} [DecidableEq π] [DecidableEq η] (order : SetOrder η) (id : η → List Char)

def call (b : TransfersBookKeeper π η) : Call π η → TransfersBookKeeper π η
  | .addToCurrent peerId handle => b.addToCurrent peerId handle
  | .addToContinued peerId handle => b.addToContinued peerId handle
  | .addToCompleted peerId handle => b.addToCompleted peerId handle
  | .swap peerId handle => (b.swap peerId handle).2
  | .getTransfer peerId fileId => (b.getTransfer order id peerId fileId).2
  | .checkRunning peerId => (b.checkRunning order peerId).2

/-- What a lookup changes: keys may come to the book, but no handle moves. -/
structure SameSets (b b' : TransfersBookKeeper π η) : Prop where
  current : ∀ p, b'.current.item p = b.current.item p
  completed : ∀ p, b'.completed.item p = b.completed.item p
  continued : ∀ p, b'.continued.item p = b.continued.item p
  keys : b.current.keys ⊆ b'.current.keys

omit [DecidableEq π] [DecidableEq η] in
theorem SameSets.refl (b : TransfersBookKeeper π η) : SameSets b b :=
  ⟨fun _ => rfl,fun _ => rfl,fun _ => rfl,fun _ h => h⟩

omit [DecidableEq η] in
theorem sameSets_getTransfer (peerId : π) (fileId : List Char) (b : TransfersBookKeeper π η) :
    SameSets b (b.getTransfer order id peerId fileId).2 := by
  have hkeys : b.current.keys ⊆ insert peerId b.current.keys := Finset.subset_insert _ _
  unfold getTransfer
  dsimp only
  split
  · exact ⟨fun _ => rfl,fun _ => rfl,fun _ => rfl,hkeys⟩
  · split
    · exact ⟨fun _ => rfl,fun _ => rfl,fun _ => rfl,hkeys⟩
    · split
      · exact ⟨fun _ => rfl,fun _ => rfl,fun _ => rfl,hkeys⟩
      · split <;> exact ⟨fun _ => rfl,fun _ => rfl,fun _ => rfl,hkeys⟩

omit [DecidableEq η] in
theorem sameSets_checkRunning (peerId : π) (b : TransfersBookKeeper π η) :
    SameSets b (b.checkRunning order peerId).2 :=
  ⟨fun _ => rfl,fun _ => rfl,fun _ => rfl,Finset.subset_insert _ _⟩

/-- The handle is somewhere in the book, under this key. -/
def Listed (b : TransfersBookKeeper π η) (p : π) (h : η) : Prop :=
  h ∈ b.current.item p ∨ h ∈ b.completed.item p ∨ h ∈ b.continued.item p

omit [DecidableEq η] in
theorem listed_of_getTransfer {peerId : π} {fileId : List Char} {b : TransfersBookKeeper π η} {h : η}
    (hfound : (b.getTransfer order id peerId fileId).1 = .handle h) : Listed b peerId h := by
  unfold getTransfer at hfound
  dsimp only at hfound
  split at hfound
  · cases hfound
  · split at hfound
    next hf =>
      cases hfound
      exact .inl (order.mem_of_find? hf).1
    next =>
      split at hfound
      next hf =>
        cases hfound
        exact .inr (.inl (order.mem_of_find? hf).1)
      next =>
        split at hfound
        next hf =>
          cases hfound
          exact .inr (.inr (order.mem_of_find? hf).1)
        next => cases hfound

omit [DecidableEq η] in
/-- A running handle is found if no other one that is running has its id. -/
theorem getTransfer_of_current {peerId : π} {b : TransfersBookKeeper π η} {h : η} (hne : id h ≠ [])
    (hmem : h ∈ b.current.item peerId) (hunique : ∀ h' ∈ b.current.item peerId, id h' = id h → h' = h) :
    (b.getTransfer order id peerId (id h)).1 = .handle h := by
  have hfind := order.find?_of_unique (p := fun h' => decide (id h' = id h)) hmem (by simp)
    fun h' hh' hid => hunique h' hh' (by simpa using hid)
  simp only [getTransfer, if_neg hne, DefaultDict.item_touch, hfind]

omit [DecidableEq η] in
/-- A handle that is running or to be continued is found if no other one in the book has its id. -/
theorem getTransfer_of_unique {peerId : π} {b : TransfersBookKeeper π η} {h : η} (hne : id h ≠ [])
    (hmem : h ∈ b.current.item peerId ∨ h ∈ b.continued.item peerId)
    (hunique : ∀ h', Listed b peerId h' → id h' = id h → h' = h) :
    (b.getTransfer order id peerId (id h)).1 = .handle h := by
  have hfound : ∀ s : Finset η, (∀ h' ∈ s, id h' = id h → h' = h) → ∀ h',
      order.find? (fun h' => decide (id h' = id h)) s = some h' → h' = h := fun s hs h' hf =>
    hs h' (order.mem_of_find? hf).1 (by simpa using (order.mem_of_find? hf).2)
  have hcur := hfound (b.current.item peerId) fun h' hh' => hunique h' (.inl hh')
  have hcomp := hfound (b.completed.item peerId) fun h' hh' => hunique h' (.inr (.inl hh'))
  have hcont := hfound (b.continued.item peerId) fun h' hh' => hunique h' (.inr (.inr hh'))
  simp only [getTransfer, if_neg hne, DefaultDict.item_touch]
  split
  next h' hf => rw [hcur h' hf]
  next hf =>
    split
    next h' hf => rw [hcomp h' hf]
    next =>
      split
      next h' hf => rw [hcont h' hf]
      next hf' =>
        rcases hmem with hmem | hmem
        · simpa using order.find?_eq_none.mp hf h hmem
        · simpa using order.find?_eq_none.mp hf' h hmem

/-- What holds of every book: a handle that is to be continued is not running, and its peer has been
looked up among the running ones. -/
def Kept (b : TransfersBookKeeper π η) : Prop :=
  ∀ p, ∀ h ∈ b.continued.item p, h ∉ b.current.item p ∧ p ∈ b.current.keys

variable {order id} {b b' : TransfersBookKeeper π η}

omit [DecidableEq π] [DecidableEq η] in
theorem Kept.sameSets (h : Kept b) (hs : SameSets b b') : Kept b' := by
  intro p x hx
  rw [hs.continued] at hx
  rw [hs.current]
  exact ⟨(h p x hx).1,hs.keys (h p x hx).2⟩

theorem Kept.addToCurrent (h : Kept b) (peerId : π) (handle : η) : Kept (b.addToCurrent peerId handle) := by
  intro p x hx
  simp only [TransfersBookKeeper.addToCurrent, DefaultDict.item_adjust] at hx ⊢
  split at hx
  next hp =>
    subst hp
    obtain ⟨hne,hx⟩ := Finset.mem_erase.mp hx
    simp [hne, (h p x hx).1]
  next hp => simp [hp, h p x hx]

theorem Kept.addToCompleted (h : Kept b) (peerId : π) (handle : η) :
    Kept (b.addToCompleted peerId handle) := by
  intro p x hx
  simp only [TransfersBookKeeper.addToCompleted, DefaultDict.item_adjust] at hx ⊢
  split at hx
  next hp =>
    subst hp
    obtain ⟨hne,hx⟩ := Finset.mem_erase.mp hx
    simp [(h p x hx).1]
  next hp => simp [hp, h p x hx]

theorem Kept.addToContinued (h : Kept b) (peerId : π) (handle : η) :
    Kept (b.addToContinued peerId handle) := by
  intro p x hx
  simp only [TransfersBookKeeper.addToContinued, DefaultDict.item_adjust] at hx ⊢
  split at hx
  next hp =>
    subst hp
    rcases Finset.mem_insert.mp hx with rfl | hx
    · simp
    · simp [(h p x hx).1]
  next hp => simp [hp, h p x hx]

theorem Kept.swap (h : Kept b) (peerId : π) (handle : η) : Kept (b.swap peerId handle).2 := by
  intro p x hx
  unfold TransfersBookKeeper.swap at hx ⊢
  split at hx
  next hmem =>
    rw [if_pos hmem]
    refine h p x ?_
    simp only [DefaultDict.item_adjust] at hx
    split at hx
    next hp => exact hp ▸ Finset.mem_of_mem_erase hx
    next hp => exact hx
  next hmem =>
    rw [if_neg hmem]
    exact h p x hx

/-- Every call keeps it. -/
theorem Kept.call (h : Kept b) (c : Call π η) : Kept (b.call order id c) := by
  cases c with
  | addToCurrent peerId handle => exact h.addToCurrent peerId handle
  | addToContinued peerId handle => exact h.addToContinued peerId handle
  | addToCompleted peerId handle => exact h.addToCompleted peerId handle
  | swap peerId handle => exact h.swap peerId handle
  | getTransfer peerId fileId => exact h.sameSets (sameSets_getTransfer order id peerId fileId b)
  | checkRunning peerId => exact h.sameSets (sameSets_checkRunning order peerId b)

variable (order id) in
/-- The book after some calls. -/
def afterCalls (calls : List (Call π η)) : TransfersBookKeeper π η := after (call order id) {} calls

theorem kept_afterCalls (calls : List (Call π η)) : Kept (afterCalls order id calls) :=
  after_invariant (fun _ c h => h.call c) (fun _ _ hx => absurd hx (Finset.notMem_empty _)) calls

/-- Stopping all files loses no transfer: nothing is running any more, what is completed stays, and what
was running or to be continued is to be continued. -/
structure LosesNothing (b : TransfersBookKeeper π η) : Prop where
  current : b.stopAllFiles.current = .empty
  completed : b.stopAllFiles.completed = b.completed
  continued : ∀ p h, h ∈ b.current.item p ∨ h ∈ b.continued.item p →
    h ∈ b.stopAllFiles.continued.item p

omit [DecidableEq η] in
theorem stopAllFiles_continued (p : π) : b.stopAllFiles.continued.item p =
    if p ∈ b.current.keys then b.current.item p else b.continued.item p :=
  DefaultDict.item_update b.continued b.current p

/-- The running handles of a peer take the place of those that were to be continued, and there are
running ones, if none at all, for each peer that has some to be continued. -/
theorem losesNothing_iff (order : SetOrder η) (id : η → List Char) (calls : List (Call π η)) :
    LosesNothing (afterCalls order id calls) ↔ ∀ p, (afterCalls order id calls).continued.item p = ∅ := by
  have hkept : Kept (afterCalls order id calls) := kept_afterCalls calls
  set b := afterCalls order id calls
  constructor
  · intro h p
    by_contra hne
    obtain ⟨x,hx⟩ := Finset.nonempty_iff_ne_empty.mpr hne
    obtain ⟨hnot,hkey⟩ := hkept p x hx
    have hcontinued := h.continued p x (.inr hx)
    rw [stopAllFiles_continued, if_pos hkey] at hcontinued
    exact hnot hcontinued
  · intro hempty
    refine ⟨rfl,rfl,fun p x hx => ?_⟩
    have hrunning : x ∈ b.current.item p := hx.resolve_right fun hx => by simp [hempty p] at hx
    rw [stopAllFiles_continued, if_pos (DefaultDict.mem_keys_of_mem_item hrunning)]
    exact hrunning

/-- A paused transfer is lost. -/
theorem paused_is_lost : ¬ LosesNothing
    (afterCalls SetOrder.byNumber (fun _ => ['f']) [Call.addToCurrent 0 7,.addToContinued 0 7]) := by
  intro h
  have hcontinued := h.continued 0 7 (.inr (by decide))
  revert hcontinued
  decide

end TransfersBookKeeper
end PeerConnect.Managers.TransfersBook
