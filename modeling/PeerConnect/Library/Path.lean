import Mathlib.Data.List.Infix
import Mathlib.Tactic.Linarith

/-! Pure POSIX paths. An absolute path is the list of its components, outermost first; `.` and
empty components are dropped when text is read, `..` is kept, as the operating system resolves
it. A location is where a path leads once `..` is resolved, innermost component first, so that
the parent of a location is its tail and the locations below one have it as a suffix. -/
namespace PeerConnect.Library

abbrev Name := List Char
abbrev Path := List Name
abbrev Loc := List Name

def dot : Name := ['.']
def dotdot : Name := ['.','.']

/-- The components a text contributes to a path. -/
def components (text : List Char) : Path :=
  (text.splitOn '/').filter fun c => c ≠ [] ∧ c ≠ dot

def isAbsolute (text : List Char) : Bool := text.head? = some '/'

namespace Path

/-- Joining an absolute text discards the path on its left. -/
def join (p : Path) (text : List Char) : Path :=
  if isAbsolute text then components text else p ++ components text

/-- The last component, empty for the root. -/
def name (p : Path) : Name := p.getLast?.getD []

def parent (p : Path) : Path := p.dropLast

/-- Replace the last component. The root has none. -/
def withName (p : Path) (n : Name) : Option Path :=
  if p = [] then none else some (p.dropLast ++ [n])

/-- No operating system call accepts a path with a null character. -/
def hasNul (p : Path) : Bool := p.any fun c => decide (Char.ofNat 0 ∈ c)

end Path

/-- The part of a name before its last dot and the part from there on, which is empty when the
name has no dot, or has its last one at its start or at its end. -/
def splitSuffix (n : Name) : Name × Name :=
  match n.reverse.span (· ≠ '.') with
  | (after,_::before) =>
    if after = [] ∨ before = [] then (n,[]) else (before.reverse,'.'::after.reverse)
  | (_,[]) => (n,[])

def stem (n : Name) : Name := (splitSuffix n).1
def suffix (n : Name) : Name := (splitSuffix n).2

/-- Another suffix for the last component, or one if it has none. A suffix begins with a dot, which is
not all of it. -/
def Path.withSuffix (p : Path) (s : Name) : Option Path :=
  if '/' ∈ s ∨ (s ≠ [] ∧ s.head? ≠ some '.') ∨ s = dot ∨ p.name = [] then none
  else some (p.parent.join (stem p.name ++ s))

theorem stem_append_suffix (n : Name) : stem n ++ suffix n = n := by
  unfold stem suffix splitSuffix
  have hs := List.takeWhile_append_dropWhile (p := fun c => decide (c ≠ '.')) (l := n.reverse)
  rw [List.span_eq_takeWhile_dropWhile]
  cases hd : n.reverse.dropWhile (fun c => decide (c ≠ '.')) with
  | nil => simp
  | cons c before =>
    have hc : c = '.' := by
      have h := List.head?_dropWhile_not (fun c => decide (c ≠ '.')) n.reverse
      rw [hd] at h
      simpa using h
    rw [hd, hc] at hs
    dsimp only
    split
    · simp
    · have := congrArg List.reverse hs
      simpa using this

/-- One component of the walk from a location. -/
def descend (l : Loc) (c : Name) : Loc := if c = dotdot then l.tail else c::l

/-- Where a path leads, `..` resolved. -/
def resolve (p : Path) : Loc := p.foldl descend []

@[simp] theorem resolve_nil : resolve [] = [] := rfl

theorem resolve_concat (p : Path) (c : Name) :
    resolve (p ++ [c]) = descend (resolve p) c := by simp [resolve]

@[simp] theorem descend_dotdot (l : Loc) : descend l dotdot = l.tail := by simp [descend]

theorem descend_of_ne {c : Name} (l : Loc) (h : c ≠ dotdot) : descend l c = c::l := by
  simp [descend, h]

/-- The location is the root's own or lies below it. -/
def Inside (root l : Loc) : Prop := root <:+ l

instance (root l : Loc) : Decidable (Inside root l) := inferInstanceAs (Decidable (_ <:+ _))

theorem Inside.refl (root : Loc) : Inside root root := List.suffix_rfl

theorem Inside.cons {root l : Loc} (h : Inside root l) (c : Name) : Inside root (c::l) :=
  h.trans (List.suffix_cons c l)

theorem inside_cons_iff {root l : Loc} {c : Name} :
    Inside root (c::l) ↔ root = c::l ∨ Inside root l := List.suffix_cons_iff

/-- What a path read from text has between its slashes. -/
structure Component (c : Name) : Prop where
  ne_nil : c ≠ []
  ne_dot : c ≠ dot
  no_slash : '/' ∉ c

namespace Component

theorem components_eq {c : Name} (h : Component c) : components c = [c] := by
  simp [components, List.splitOn_eq_singleton h.no_slash, h.ne_nil, h.ne_dot]

theorem not_absolute {c : Name} (h : Component c) : isAbsolute c = false := by
  simp only [isAbsolute, decide_eq_false_iff_not]
  intro hh
  exact h.no_slash (List.mem_of_mem_head? hh)

theorem join_eq {c : Name} (h : Component c) (p : Path) : p.join c = p ++ [c] := by
  simp [Path.join, h.not_absolute, h.components_eq]

end Component

theorem dotdot_component : Component dotdot := ⟨by decide,by decide,by decide⟩

theorem not_mem_splitOn {text : List Char} {c : Name} (h : c ∈ text.splitOn '/') : '/' ∉ c := by
  induction text generalizing c with
  | nil =>
    rw [List.splitOn_nil, List.mem_singleton] at h
    simp [h]
  | cons x text ih =>
    rw [List.splitOn_cons_eq_if_modifyHead] at h
    split at h
    · rcases List.mem_cons.mp h with rfl | h
      · simp
      · exact ih h
    next hx =>
      cases hs : text.splitOn '/' with
      | nil => exact absurd hs (List.splitOn_ne_nil _ _)
      | cons first others =>
        rw [hs] at h ih
        rcases List.mem_cons.mp h with rfl | h
        · intro hm
          rcases List.mem_cons.mp hm with rfl | hm
          · exact hx (beq_self_eq_true _)
          · exact ih List.mem_cons_self hm
        · exact ih (List.mem_cons_of_mem _ h)

theorem components_component {text : List Char} {c : Name} (h : c ∈ components text) :
    Component c := by
  obtain ⟨hs,hc⟩ := List.mem_filter.mp h
  have hc : c ≠ [] ∧ c ≠ dot := by simpa using hc
  exact ⟨hc.1,hc.2,not_mem_splitOn hs⟩

/-- A path as it is read from text. -/
def Path.Proper (p : Path) : Prop := ∀ c ∈ p, Component c

theorem Path.Proper.join {p : Path} (h : p.Proper) (text : List Char) : (p.join text).Proper := by
  intro c hc
  unfold Path.join at hc
  split at hc
  · exact components_component hc
  · exact (List.mem_append.mp hc).elim (h c) components_component

theorem Path.parent_concat_name {p : Path} (h : p ≠ []) : p.parent ++ [p.name] = p := by
  rcases List.eq_nil_or_concat p with rfl | ⟨q,c,rfl⟩
  · exact absurd rfl h
  · simp [Path.parent, Path.name]

theorem Path.hasNul_append (p q : Path) : Path.hasNul (p ++ q) = (p.hasNul || q.hasNul) :=
  List.any_append

theorem Path.hasNul_of_prefix {p q : Path} (hq : q <+: p) (hn : p.hasNul = false) :
    q.hasNul = false := by
  obtain ⟨r,rfl⟩ := hq
  rw [Path.hasNul_append] at hn
  exact (Bool.or_eq_false_iff.mp hn).1

theorem Path.not_mem_of_hasNul {p : Path} (hn : p.hasNul = false) {c : Name} (hc : c ∈ p) :
    Char.ofNat 0 ∉ c := fun hm => by
  have : p.hasNul = true := List.any_eq_true.mpr ⟨c,hc,by simpa using hm⟩
  rw [hn] at this
  cases this

theorem Path.name_mem {p : Path} (h : p ≠ []) : p.name ∈ p := by
  have hp := parent_concat_name h
  rw [← hp]
  simp [Path.name]

/-- A name that a directory entry can have. -/
structure Entry (n : Name) : Prop where
  ne_nil : n ≠ []
  no_slash : '/' ∉ n
  no_nul : Char.ofNat 0 ∉ n
  ne_dot : n ≠ dot
  ne_dotdot : n ≠ dotdot

namespace Entry

theorem component {n : Name} (h : Entry n) : Component n := ⟨h.ne_nil,h.ne_dot,h.no_slash⟩

theorem join_eq {n : Name} (h : Entry n) (p : Path) : p.join n = p ++ [n] := h.component.join_eq p

end Entry

/-- A file name of a real file. -/
structure FileName where
  chars : Name
  entry : Entry chars

end PeerConnect.Library
