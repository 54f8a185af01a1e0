import PeerConnect.Wire.Value
import PeerConnect.Library.Double
import PeerConnect.Library.FreshName
import Mathlib.Data.Finset.Insert

/-! File items, their header on the wire, the names they are received under, and the chunk size. -/
namespace PeerConnect.Transfers
open Library Wire

/-- The steps of a transfer handle. -/
inductive TransferState
  | preparing
  | connecting
  | sending
  | receiving
  | paused
  | aborting
  | completed
  deriving DecidableEq, Repr

/-- `CommonExceptionHandlersMixIn.handle_exception`, on a handle whose state `setState` sets. An
`OSError` and an incomplete transfer leave it paused. -/
def handleException {σ α : Type} (setState : TransferState → σ → σ) (e : Exn) : Coro Exn σ α :=
  if e = .transferIncomplete ∨ e.isOSError then do
    Coro.modify (setState .paused)
    Coro.raise .transferIncomplete
  else Coro.raise e

/-- The largest `Py_ssize_t`, which is also the largest offset in a file. -/
def maxOffset : ℤ := 2^63-1

/-- What setting up the progress bar refuses: a limit that is no integer or too large for a range,
an offset that is no number or not a finite one. -/
def statusSetup (initialLimit finalLimit : Value) : Except Exn Unit :=
  match finalLimit.int? with
  | none => .error .typeError
  | some final =>
    if maxOffset < final then .error .overflowError
    else match initialLimit with
      | .int _ | .bool _ | .float (.finite _) => .ok ()
      | .float _ => .error .valueError
      | _ => .error .typeError

theorem statusSetup_int {n : ℤ} (hmax : n ≤ maxOffset) (k : ℤ) : statusSetup (.int k) (.int n) = .ok () := by
  simp [statusSetup, Value.int?, not_lt.mpr hmax]

/-- A received file item. Its size and offset are what the header says, of whatever type. -/
structure FileItem where
  name : Name
  path : Path
  size : Value
  seeked : Value

/-- Setting the name replaces the last component of the path. -/
def FileItem.renamed (item : FileItem) (n : Name) : FileItem :=
  { item with name := n, path := item.path.parent ++ [n] }

/-- `tuple(file_item)` -/
def FileItem.header (name : Name) (size seeked : Value) : Value := .array [.str name,size,seeked]

def FileItem.loadFrom (u : Umsgpack) (data : Bytes) (fileParentPath : Path) :
    Except Exn FileItem :=
  match u.loads data with
  | none => .error .unpackException
  | some v =>
    match v.unpack 3 with
    | .error e => .error e
    | .ok ⟨[.str name,size,seeked],_⟩ => .ok ⟨name,fileParentPath.join name,size,seeked⟩
    | .ok _ => .error .typeError

theorem FileItem.loadFrom_path {u : Umsgpack} {data : Bytes} {root : Path} {item : FileItem}
    (h : FileItem.loadFrom u data root = .ok item) : item.path = root.join item.name := by
  unfold FileItem.loadFrom at h
  split at h
  · cases h
  · split at h
    · cases h
    · cases h
      rfl
    · cases h

theorem FileItem.loadFrom_header (u : Umsgpack) {data : Bytes} {name : Name} {size seeked : Value}
    (h : u.loads data = some (FileItem.header name size seeked)) (root : Path) :
    FileItem.loadFrom u data root = .ok ⟨name,root.join name,size,seeked⟩ := by
  simp [FileItem.loadFrom, h, FileItem.header, Value.unpack, Value.elements]

/-- Whatever is wrong with a header, it is not an `OSError`. -/
theorem FileItem.loadFrom_error {u : Umsgpack} {data : Bytes} {root : Path} {e : Exn}
    (h : FileItem.loadFrom u data root = .error e) :
    e = .unpackException ∨ e = .typeError ∨ e = .valueError := by
  unfold FileItem.loadFrom at h
  split at h
  · cases h; exact .inl rfl
  · split at h
    next he =>
      cases h
      exact .inr (Value.unpack_error he)
    · cases h
    · cases h; exact .inr (.inl rfl)

/-- Names tried one after the other: a first one, then those with a counter in brackets. -/
def numbered (first before opening after : Name) : ℕ → Name
  | 0 => first
  | k+1 => before ++ opening ++ Nat.toDigits 10 (k+1) ++ [')'] ++ after

/-- As many rounds as the names in a directory can take, and a few for the special ones. -/
def nameRounds (fs : FileSystem) : ℕ := fs.nodes.keys.card+4

/-- The first of the names that a directory does not have. -/
def freeName (fs : FileSystem) (root : Path) (names : ℕ → Name) : Name :=
  names (firstFree (fun n => fs.pathExists (root.join n)) names (nameRounds fs) 0)

def candidate (original : Name) : ℕ → Name :=
  numbered original (stem original) " (".toList (suffix original)

/-- The name `validatename` ends with. -/
def validName (fs : FileSystem) (root : Path) (original : Name) : Name :=
  freeName fs root (candidate original)

def minSize : ℕ := 64*1024
def maxSize : ℕ := 2^20*2
def minFileSize : ℤ := 2^10
def maxFileSize : ℤ := 2^30*10

/-- `buffer_size % 1024` on doubles, which is exact. -/
def modKiB (q : ℚ) : ℚ := q - 1024*⌊q/1024⌋

/-- Linear scaling between the smallest and the largest buffer, in doubles. -/
def bufferSize (fileSize : ℤ) : ℚ :=
  toDouble (minSize + toDouble ((((maxSize:ℤ)-minSize)*(fileSize-minFileSize) : ℤ) /
    (maxFileSize-minFileSize : ℤ)))

def calculateChunkSize (fileSize : ℤ) : ℕ :=
  if fileSize ≤ minFileSize then minSize
  else if maxFileSize ≤ fileSize then maxSize
  else ⌊bufferSize fileSize - modKiB (bufferSize fileSize)⌋.toNat

theorem toDouble_nonneg {q : ℚ} (h : 0 ≤ q) : 0 ≤ toDouble q := by
  rcases eq_or_lt_of_le h with rfl | hq
  · simp [toDouble]
  · simpa using mul_ulp_le_toDouble hq.ne' (k := 0) (by simpa using h)

theorem minSize_le_bufferSize {n : ℤ} (h : minFileSize ≤ n) : (minSize:ℚ) ≤ bufferSize n := by
  unfold bufferSize
  refine le_toDouble (by decide) (by decide) (le_add_of_nonneg_right (toDouble_nonneg ?_))
  refine div_nonneg ?_ (by norm_num [maxFileSize, minFileSize])
  have hp : (0:ℤ) ≤ ((maxSize:ℤ)-minSize)*(n-minFileSize) :=
    mul_nonneg (by decide) (sub_nonneg.mpr h)
  exact_mod_cast hp

theorem minSize_le_calculateChunkSize (n : ℤ) : minSize ≤ calculateChunkSize n := by
  unfold calculateChunkSize
  split
  · exact le_rfl
  next hmin =>
    split
    · decide
    · have hb := minSize_le_bufferSize (n := n) (by omega)
      have hfloor : (64:ℤ) ≤ ⌊bufferSize n/1024⌋ := by
        rw [Int.le_floor, le_div_iff₀ (by norm_num)]
        refine le_trans ?_ hb
        norm_num [minSize]
      have hval : bufferSize n-modKiB (bufferSize n) = ((1024*⌊bufferSize n/1024⌋ : ℤ) : ℚ) := by
        unfold modKiB
        push_cast
        ring
      rw [hval, Int.floor_intCast]
      have : (minSize:ℤ) = 65536 := rfl
      omega

theorem calculateChunkSize_pos (n : ℤ) : 0 < calculateChunkSize n :=
  lt_of_lt_of_le (by decide) (minSize_le_calculateChunkSize n)

end PeerConnect.Transfers
