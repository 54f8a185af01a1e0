import PeerConnect.Library.ByteOrder
import PeerConnect.Library.FileSystem
import Mathlib.Data.Rat.Defs
import Mathlib.Data.List.FinRange

/-! What MessagePack decodes to, and the exceptions the program meets. -/
namespace PeerConnect.Wire
open Library

/-- A double, as far as the program looks at one. -/
inductive Float64
  | finite (q : ℚ)
  | inf (negative : Bool)
  | nan
  deriving DecidableEq

/-- Tuples and lists are not told apart. -/
inductive Value
  | nil
  | bool (b : Bool)
  | int (n : ℤ)
  | float (x : Float64)
  | str (s : List Char)
  | bin (b : Bytes)
  | array (xs : List Value)
  | map (kvs : List (Value × Value))
  | ext (type : ℤ) (data : Bytes)
  | timestamp (seconds : ℤ) (nanoseconds : ℕ)

/-- The exceptions that are told apart somewhere, each with its subclasses, and all others by a
number. -/
inductive Exn
  | osError
  | connectionReset
  | fileNotFound
  | fileExists
  | isADirectory
  | notADirectory
  | timeoutError
  | valueError
  | overflowError
  | typeError
  | keyError
  | indexError
  | runtimeError
  | structError
  | packException
  | unpackException
  | invalidPacket
  | transferIncomplete
  | invalidStateError
  | other (code : ℕ)
  deriving DecidableEq, Repr

namespace Exn

/-- Reading an attribute that an object does not have. -/
def attributeError : Exn := .other 0

def assertionError : Exn := .other 1

def cancelledError : Exn := .other 3

/-- The stack of the interpreter is full. -/
def recursionError : Exn := .other 5

/-- The subclasses of `OSError`. -/
def isOSError : Exn → Bool
  | osError | connectionReset | fileNotFound | fileExists | isADirectory | notADirectory
  | timeoutError => true
  | _ => false

def ofFsError : FsError → Exn
  | .notFound => fileNotFound
  | .exists => fileExists
  | .notADirectory => notADirectory
  | .isADirectory => isADirectory
  | .invalidSeek => osError
  | .embeddedNul => valueError

end Exn

namespace Value

/-- Lists and dictionaries have no hash. -/
def hashable : Value → Bool
  | array _ | map _ => false
  | _ => true

/-- The integer of an `int` or a `bool`, which is one of two integers. -/
def int? : Value → Option ℤ
  | int n => some n
  | bool b => some (if b then 1 else 0)
  | _ => none

/-- `value == 0` -/
def isZero : Value → Bool
  | int n => n = 0
  | bool b => !b
  | float (.finite q) => q = 0
  | _ => false

/-- `value == n` -/
def equals (n : ℤ) : Value → Bool
  | int m => m = n
  | bool b => (if b then 1 else 0) = n
  | float (.finite q) => q = n
  | _ => false

theorem equals_zero (v : Value) : v.equals 0 = v.isZero := by
  cases v with
  | bool b => cases b <;> rfl
  | float x => cases x <;> simp [equals, isZero]
  | _ => simp [equals, isZero]

/-- Whether a value is at most zero, `none` where the comparison raises a `TypeError`. -/
def atMostZero : Value → Option Bool
  | int n => some (n ≤ 0)
  | bool b => some !b
  | float (.finite q) => some (q ≤ 0)
  | float (.inf negative) => some negative
  | float .nan => some false
  | _ => none

/-- Whether a value is greater than zero, `none` where the comparison raises a `TypeError`. -/
def isPositive : Value → Option Bool
  | int n => some (0 < n)
  | bool b => some b
  | float (.finite q) => some (0 < q)
  | float (.inf negative) => some !negative
  | float .nan => some false
  | _ => none

/-- Iterating over a value, as an unpacking assignment does; `none` is a `TypeError`. -/
def elements : Value → Option (List Value)
  | array xs => some xs
  | str s => some (s.map fun c => str [c])
  | bin b => some (b.map fun x => int x.toNat)
  | map kvs => some (kvs.map Prod.fst)
  | _ => none

/-- An unpacking assignment to `n` targets. -/
def unpack (n : ℕ) (v : Value) : Except Exn {xs : List Value // xs.length = n} :=
  match v.elements with
  | none => .error .typeError
  | some xs => if h : xs.length = n then .ok ⟨xs,h⟩ else .error .valueError

theorem unpack_error {n : ℕ} {v : Value} {e : Exn} (h : v.unpack n = .error e) :
    e = .typeError ∨ e = .valueError := by
  unfold unpack at h
  split at h
  · cases h; exact .inl rfl
  · split at h
    · cases h
    · cases h; exact .inr rfl

theorem unpack_ok {n : ℕ} {v : Value} {xs : {xs : List Value // xs.length = n}}
    (h : v.unpack n = .ok xs) : v.elements = some xs.1 := by
  unfold unpack at h
  split at h
  · cases h
  next ys hy =>
    split at h
    · cases h
      exact hy
    · cases h

end Value

/-- The MessagePack package. Packing refuses values it has no encoding for. Unpacking returns a
value or raises an `UnpackException`; it gives back what was packed, and it does not take a
proper initial part of an encoding for a whole one. -/
structure Umsgpack where
  dumps : Value → Option Bytes
  loads : Bytes → Option Value
  loads_dumps : ∀ {v bs}, dumps v = some bs → loads bs = some v
  loads_truncated : ∀ {v bs part}, dumps v = some bs → part <+: bs → part ≠ bs → loads part = none

/-- A package that knows one value and its encoding. -/
def Umsgpack.single (v : Value) (bs : Bytes) (known : Value → Bool)
    (h : ∀ w, known w = true → w = v) : Umsgpack where
  dumps w := if known w then some bs else none
  loads part := if part = bs then some v else none
  loads_dumps := by
    intro w cs hw
    split at hw
    next hk =>
      cases hw
      rw [if_pos rfl, h w hk]
    · cases hw
  loads_truncated := by
    intro w cs part hw _ hne
    split at hw
    · cases hw
      exact if_neg hne
    · cases hw

/-- A package that knows some values, each by a number, and their encodings, none of which begins with
another. -/
def Umsgpack.table {n : ℕ} (known : Value → Option (Fin n)) (value : Fin n → Value) (bytes : Fin n → Bytes)
    (hknown : ∀ v i, known v = some i → v = value i) (hbytes : ∀ i j, bytes i <+: bytes j → i = j) :
    Umsgpack where
  dumps v := (known v).map bytes
  loads part := (List.finRange n).findSome? fun i => if bytes i = part then some (value i) else none
  loads_dumps := by
    intro v bs h
    obtain ⟨i,hi,rfl⟩ := Option.map_eq_some_iff.mp h
    cases hf : (List.finRange n).findSome? fun j => if bytes j = bytes i then some (value j) else none with
    | none =>
      have hnone := List.findSome?_eq_none_iff.mp hf i (List.mem_finRange i)
      rw [if_pos rfl] at hnone
      cases hnone
    | some w =>
      obtain ⟨j,-,hj⟩ := List.exists_of_findSome?_eq_some hf
      split at hj
      next he =>
        cases hj
        rw [hbytes j i (by rw [he]), hknown v i hi]
      · cases hj
  loads_truncated := by
    intro v bs part h hpart hne
    obtain ⟨i,-,rfl⟩ := Option.map_eq_some_iff.mp h
    refine List.findSome?_eq_none_iff.mpr fun j _ => if_neg fun he => hne ?_
    subst he
    rw [hbytes j i hpart]

end PeerConnect.Wire
