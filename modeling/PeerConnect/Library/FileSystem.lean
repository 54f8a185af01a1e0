import PeerConnect.Library.ByteOrder
import PeerConnect.Library.Coroutine
import PeerConnect.Library.Path
import Mathlib.Data.Finmap

/-! A hierarchical file system without links. Besides its nodes it keeps the list of the
locations that have been created, opened for writing or touched so far, the latest first. -/
namespace PeerConnect.Library

inductive Node
  | dir
  | file (content : Bytes)
  deriving DecidableEq, Repr

inductive FsError
  | notFound
  | exists
  | notADirectory
  | isADirectory
  | invalidSeek
  | embeddedNul
  deriving DecidableEq, Repr

/-- The root is a directory, and so is whatever has something below it. -/
structure FileSystem where
  nodes : Finmap fun _ : Loc => Node
  changed : List Loc
  root_dir : nodes.lookup [] = some .dir
  parent_dir : ∀ c l, (c::l) ∈ nodes → nodes.lookup l = some .dir

namespace FileSystem

/-- Nothing but the root. -/
def bare : FileSystem where
  nodes := Finmap.singleton [] .dir
  changed := []
  root_dir := Finmap.lookup_singleton_eq
  parent_dir := by
    intro c l h
    cases (Finmap.mem_singleton _ _ _).mp h

def lookup (fs : FileSystem) (l : Loc) : Option Node := fs.nodes.lookup l

def isDir (fs : FileSystem) (l : Loc) : Bool := fs.lookup l = some .dir

@[ext] theorem ext {fs fs' : FileSystem} (hn : ∀ l, fs.lookup l = fs'.lookup l)
    (hc : fs.changed = fs'.changed) : fs = fs' := by
  cases fs with | mk nodes changed h₁ h₂ =>
  cases fs' with | mk nodes' changed' h₁' h₂' =>
  have : nodes = nodes' := Finmap.ext_lookup hn
  subst this
  cases hc
  rfl

/-- Note a change that leaves all nodes as they are. -/
def note (fs : FileSystem) (l : Loc) : FileSystem := { fs with changed := l::fs.changed }

/-- Put a node that has nothing below it yet into a directory. -/
def add (fs : FileSystem) (c : Name) (d : Loc) (node : Node) (hd : fs.lookup d = some .dir)
    (hn : fs.lookup (c::d) = none) : FileSystem where
  nodes := fs.nodes.insert (c::d) node
  changed := (c::d)::fs.changed
  root_dir := by
    rw [Finmap.lookup_insert_of_ne _ (by simp)]
    exact fs.root_dir
  parent_dir := by
    intro c' l h
    rcases Finmap.mem_insert.mp h with h | h
    · obtain ⟨rfl,rfl⟩ := List.cons.inj h
      rw [Finmap.lookup_insert_of_ne _ (by simp)]
      exact hd
    · have hl := fs.parent_dir c' l h
      rw [Finmap.lookup_insert_of_ne _ ?_]
      · exact hl
      · rintro rfl
        rw [lookup, hl] at hn
        cases hn

/-- Replace the contents of a file. -/
def setContent (fs : FileSystem) (l : Loc) (old new : Bytes)
    (h : fs.lookup l = some (.file old)) : FileSystem where
  nodes := fs.nodes.insert l (.file new)
  changed := fs.changed
  root_dir := by
    have hl : ([] : Loc) ≠ l := by
      rintro rfl
      have := fs.root_dir.symm.trans h
      cases this
    rw [Finmap.lookup_insert_of_ne _ hl]
    exact fs.root_dir
  parent_dir := by
    intro c l' hm
    have hm' : (c::l') ∈ fs.nodes := by
      rcases Finmap.mem_insert.mp hm with rfl | hm
      · exact Finmap.mem_of_lookup_eq_some h
      · exact hm
    have hl := fs.parent_dir c l' hm'
    rw [Finmap.lookup_insert_of_ne _ ?_]
    · exact hl
    · rintro rfl
      have := hl.symm.trans h
      cases this

@[simp] theorem note_lookup (fs : FileSystem) (l l' : Loc) :
    (fs.note l).lookup l' = fs.lookup l' := rfl
@[simp] theorem note_changed (fs : FileSystem) (l : Loc) :
    (fs.note l).changed = l::fs.changed := rfl
@[simp] theorem add_changed (fs : FileSystem) (c : Name) (d : Loc) (node : Node) (hd hn) :
    (fs.add c d node hd hn).changed = (c::d)::fs.changed := rfl
@[simp] theorem setContent_changed (fs : FileSystem) (l : Loc) (old new : Bytes) (h) :
    (fs.setContent l old new h).changed = fs.changed := rfl

theorem add_lookup (fs : FileSystem) (c : Name) (d : Loc) (node : Node) (hd hn) (l : Loc) :
    (fs.add c d node hd hn).lookup l = if l = c::d then some node else fs.lookup l := by
  unfold lookup add
  split
  next h => subst h; exact Finmap.lookup_insert _
  next h => exact Finmap.lookup_insert_of_ne _ h

theorem setContent_lookup (fs : FileSystem) (l : Loc) (old new : Bytes) (h) (l' : Loc) :
    (fs.setContent l old new h).lookup l' =
      if l' = l then some (.file new) else fs.lookup l' := by
  unfold lookup setContent
  split
  next h => subst h; exact Finmap.lookup_insert _
  next h => exact Finmap.lookup_insert_of_ne _ h

theorem lookup_tail_dir (fs : FileSystem) {c : Name} {l : Loc} {n : Node}
    (h : fs.lookup (c::l) = some n) : fs.lookup l = some .dir :=
  fs.parent_dir c l (Finmap.mem_of_lookup_eq_some h)

/-- Everything above what exists is a directory. -/
theorem lookup_suffix_dir (fs : FileSystem) {l l' : Loc} (hs : l <:+ l') (hne : l ≠ l') {n : Node}
    (h : fs.lookup l' = some n) : fs.lookup l = some .dir := by
  induction l' generalizing n with
  | nil => exact absurd (List.suffix_nil.mp hs) hne
  | cons c t ih =>
    rcases List.suffix_cons_iff.mp hs with rfl | ht
    · exact absurd rfl hne
    · have hd := fs.lookup_tail_dir h
      by_cases he : l = t
      · rwa [he]
      · exact ih ht he hd

/-- Follow components from a directory; all of them must exist. -/
def walk (fs : FileSystem) : Loc → Path → Except FsError Loc
  | l,[] => .ok l
  | l,c::cs =>
    if fs.isDir l then
      if c = dotdot then fs.walk l.tail cs
      else if (fs.lookup (c::l)).isSome then fs.walk (c::l) cs
      else .error .notFound
    else .error .notADirectory

/-- Where a path leads, and whether there is anything: everything above it must exist. -/
def locate (fs : FileSystem) (p : Path) : Except FsError (Loc × Bool) :=
  if p.hasNul then .error .embeddedNul
  else match fs.walk [] p.dropLast, p.getLast? with
    | .error e, _ => .error e
    | .ok d, none => .ok (d,true)
    | .ok d, some c =>
      if fs.isDir d then
        if c = dotdot then .ok (d.tail,true) else .ok (c::d,(fs.lookup (c::d)).isSome)
      else .error .notADirectory

def pathExists (fs : FileSystem) (p : Path) : Bool :=
  match fs.locate p with
  | .ok (_,b) => b
  | .error _ => false

/-- The contents of the file a path leads to. -/
def content (fs : FileSystem) (p : Path) : Option Bytes :=
  match fs.locate p with
  | .ok (l,true) => match fs.lookup l with
    | some (.file bs) => some bs
    | _ => none
  | _ => none

theorem content_eq_some {fs : FileSystem} {p : Path} {bs : Bytes} (h : fs.content p = some bs) :
    ∃ l, fs.locate p = .ok (l,true) ∧ fs.lookup l = some (.file bs) := by
  unfold content at h
  split at h
  next l hloc =>
    split at h
    next bs' hl =>
      cases h
      exact ⟨l,hloc,hl⟩
    · cases h
  · cases h

/-- Create a node that must not exist yet. -/
def create (p : Path) (node : Node) : Coro FsError FileSystem Loc := fun fs =>
  match fs.locate p with
  | .error e => .raised e fs
  | .ok (_,true) => .raised .exists fs
  | .ok (l,false) =>
    match l with
    | [] => .raised .exists fs
    | c::d =>
      if h : fs.lookup d = some .dir ∧ fs.lookup (c::d) = none then
        .done (c::d) (fs.add c d node h.1 h.2)
      else .raised .exists fs

/-- Open a file that must exist, for reading and writing. -/
def openExisting (p : Path) : Coro FsError FileSystem Loc := fun fs =>
  match fs.locate p with
  | .error e => .raised e fs
  | .ok (_,false) => .raised .notFound fs
  | .ok (l,true) =>
    match fs.lookup l with
    | some (.file _) => .done l (fs.note l)
    | _ => .raised .isADirectory fs

/-- Renew the time stamp of what is there, or create an empty file. -/
def touch (p : Path) : Coro FsError FileSystem Unit := fun fs =>
  match fs.locate p with
  | .error e => .raised e fs
  | .ok (l,true) => .done () (fs.note l)
  | .ok (_,false) => (create p (.file []) fs).bind fun _ fs' => .done () fs'

def overwrite (old : Bytes) (position : ℕ) (data : Bytes) : Bytes :=
  old.take position ++ List.replicate (position-old.length) 0 ++ data ++
    old.drop (position+data.length)

/-- Write into an open file at a position. -/
def writeAt (fs : FileSystem) (l : Loc) (position : ℕ) (data : Bytes) : FileSystem :=
  match h : fs.lookup l with
  | some (.file old) => fs.setContent l old (overwrite old position data) h
  | _ => fs

/-- `mkdir` on a path, and with `parents` on the missing directories above it first; these may
then exist, and so may the directory itself with `existOk`. The path is given innermost component
first, as the recursion goes upwards. -/
def makeDirectories : Path → (existOk : Bool) → Coro FsError FileSystem Unit
  | [],existOk => fun fs => if existOk then .done () fs else .raised .exists fs
  | c::up,existOk => fun fs =>
    match create (c::up).reverse .dir fs with
    | .done _ fs' => .done () fs'
    | .raised .notFound fs' =>
      (makeDirectories up true fs').bind fun _ fs'' => again (c::up).reverse existOk fs''
    | .raised e fs' => settle (c::up).reverse existOk e fs'
    | .blocked fs' => .blocked fs'
where
  /-- An existing directory is accepted where it may exist. -/
  settle (p : Path) (existOk : Bool) (e : FsError) : Coro FsError FileSystem Unit := fun fs =>
    match existOk, fs.locate p with
    | true, .ok (l,true) => if fs.isDir l then .done () fs else .raised e fs
    | _, _ => .raised e fs
  /-- The second attempt, made without `parents`. -/
  again (p : Path) (existOk : Bool) : Coro FsError FileSystem Unit := fun fs =>
    match create p .dir fs with
    | .done _ fs' => .done () fs'
    | .raised .notFound fs' => .raised .notFound fs'
    | .raised e fs' => settle p existOk e fs'
    | .blocked fs' => .blocked fs'

end FileSystem
end PeerConnect.Library
