import PeerConnect.Library.Dict
import PeerConnect.Library.Text

/-! Configurations in sections of options, as `configparser` writes and reads them. -/
namespace PeerConnect.Library
open Text

/-- White space, and what is ASCII and no letter. -/
def caseless (c : Char) : Bool := isSpace c || (decide (c.toNat < 128) && !c.isAlpha)

/-- What a text may become in lower case. -/
inductive Lowered : Text → Text → Prop
  | nil : Lowered [] []
  | caseless {c t t'} (hc : caseless c = true) (h : Lowered t t') : Lowered (c::t) (c::t')
  | cased {c l t t'} (hc : caseless c = false) (hl : l ≠ []) (hd : ∀ d ∈ l, caseless d = false)
      (h : Lowered t t') : Lowered (c::t) (l ++ t')

/-- `str.lower`. What becomes of a letter that is not ASCII is a matter of its tables and of the
characters around it. -/
structure Lowercase where
  lower : Text → Text
  lowered : ∀ t, Lowered t (lower t)
  lower_lower : ∀ t, lower (lower t) = lower t
  lower_ascii : ∀ t, (∀ c ∈ t, c.toNat < 128 ∧ c.isUpper = false) → lower t = t

namespace Ini

inductive Error
  | duplicateSection
  | duplicateOption
  | missingSectionHeader
  | parsing
  | attribute
  | noSection
  | value
  | interpolation
  deriving DecidableEq, Repr

/-- The options of each section, with those of the default section apart. -/
structure Config (α : Type) where
  defaults : Dict Text α := []
  sections : Dict Text (Dict Text α) := []

def defaultSection : Text := "DEFAULT".toList

namespace Config
variable {α β : Type}

def options (s : Text) (c : Config α) : Dict Text α :=
  if s = defaultSection then c.defaults else (c.sections.get? s).getD []

def update (s : Text) (f : Dict Text α → Dict Text α) (c : Config α) : Config α :=
  if s = defaultSection then { c with defaults := f c.defaults }
  else { c with sections := c.sections.modify s f }

def map (f : α → β) (c : Config α) : Config β :=
  ⟨c.defaults.mapValues f,c.sections.mapValues (Dict.mapValues f)⟩

/-- There is a section of this name. -/
def Has (s : Text) (c : Config α) : Prop := s = defaultSection ∨ s ∈ c.sections.keys

instance (s : Text) (c : Config α) : Decidable (c.Has s) := inferInstanceAs (Decidable (_ ∨ _))

/-- The names that iterating over a section gives. -/
def optionNames (s : Text) (c : Config α) : List Text := ((c.options s).update c.defaults).keys

/-- `set` of an option without a value. -/
def setOption (L : Lowercase) (s o : Text) (c : Config (Option α)) : Except Error (Config (Option α)) :=
  if c.Has s then .ok (c.update s (Dict.set (L.lower o) none)) else .error .noSection

def removeOption (L : Lowercase) (s o : Text) (c : Config α) : Config α :=
  c.update s (Dict.remove (L.lower o))

def removeSection (s : Text) (c : Config α) : Config α := { c with sections := Dict.remove s c.sections }

def addSection (s : Text) (c : Config α) : Except Error (Config α) :=
  if s = defaultSection then .error .value
  else if s ∈ c.sections.keys then .error .duplicateSection
  else .ok { c with sections := c.sections ++ [(s,[])] }

end Config

section Writing

/-- The lines of an option; those of its value behind the first are indented. An option without a value
is one of a configuration that allows for it. -/
def optionText (noValue : Bool) (key : Text) : Option Text → Text
  | some v => key ++ " = ".toList ++ ['\n','\t'].intercalate (v.splitOn '\n') ++ ['\n']
  | none => key ++ (if noValue then [] else " = None".toList) ++ ['\n']

def sectionText (noValue : Bool) (name : Text) (options : Dict Text (Option Text)) : Text :=
  '['::name ++ "]\n".toList ++ options.flatMap (fun p => optionText noValue p.1 p.2) ++ ['\n']

def write (noValue : Bool) (c : Config (Option Text)) : Text :=
  (if c.defaults = [] then [] else sectionText noValue defaultSection c.defaults) ++
    c.sections.flatMap fun p => sectionText noValue p.1 p.2

end Writing

section Reading

/-- A configuration that is being read: its values in lines, where its last line belongs, and how far
that is indented. -/
structure Reading where
  config : Config (Option (List Text)) := {}
  cursect : Option Text := none
  optname : Option Text := none
  indentLevel : ℕ := 0

def isComment (value : Text) : Bool := value.head? == some '#' || value.head? == some ';'

/-- The name between the first bracket and the last. -/
def header? : Text → Option Text
  | '['::t =>
    let name := (t.rdropWhile (· != ']')).dropLast
    if name = [] then none else some name
  | _ => none

def isDelimiter (c : Char) : Bool := c == '=' || c == ':'

/-- The name in front of the first delimiter, and what is behind it. -/
def splitOption (value : Text) : Text × Option Text :=
  (rstrip (value.takeWhile fun c => !isDelimiter c),
    match value.dropWhile fun c => !isDelimiter c with
    | [] => none
    | _::optval => some optval)

namespace Reading
variable (L : Lowercase) (noValue : Bool)

/-- One more line of the value of the last option, if it has a value. -/
def append (value : Text) (r : Reading) : Except Error Reading :=
  match r.cursect,r.optname with
  | some s,some o =>
    match (r.config.options s).get? o with
    | some (some _) =>
      .ok { r with config := r.config.update s (Dict.modify o (Option.map (· ++ [value]))) }
    | _ => .error .attribute
  | _,_ => .ok r

/-- An empty line does not mind an option that has no value. -/
def blank (r : Reading) : Reading :=
  match r.append [] with
  | .ok r => r
  | .error _ => r

def startSection (level : ℕ) (name : Text) (r : Reading) : Except Error Reading :=
  if name = defaultSection then .ok ⟨r.config,some name,none,level⟩
  else if name ∈ r.config.sections.keys then .error .duplicateSection
  else .ok ⟨{ r.config with sections := r.config.sections ++ [(name,[])] },some name,none,level⟩

def startOption (level : ℕ) (s value : Text) (r : Reading) : Except Error Reading :=
  let (name,optval) := splitOption value
  let key := L.lower name
  if name = [] ∨ (optval = none ∧ ¬ noValue) then .error .parsing
  else if key ∈ (r.config.options s).keys then .error .duplicateOption
  else .ok ⟨r.config.update s (· ++ [(key,optval.map fun v => [strip v])]),some s,some key,level⟩

/-- The parser. A line that is no option makes it raise behind the last line, whatever else it reads. -/
def readLine (r : Reading) (line : Text) : Except Error Reading :=
  let value := strip line
  if isComment value then .ok r
  else if value = [] then .ok r.blank
  else
    let level := (line.takeWhile isSpace).length
    if r.cursect.isSome ∧ r.optname.isSome ∧ r.indentLevel < level then r.append value
    else match header? value with
      | some name => r.startSection level name
      | none =>
        match r.cursect with
        | none => .error .missingSectionHeader
        | some s => r.startOption L noValue level s value

end Reading

/-- `'\n'.join(val).rstrip()` -/
def joinLines (ls : List Text) : Text := rstrip (['\n'].intercalate ls)

def read (L : Lowercase) (noValue : Bool) (t : Text) : Except Error (Config (Option Text)) := do
  let r ← (lines t).foldlM (Reading.readLine L noValue) {}
  pure (r.config.map (Option.map joinLines))

end Reading

end Ini
end PeerConnect.Library
