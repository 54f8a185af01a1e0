import PeerConnect.Transfers.Fidelity

/-! The pair that names an item of a directory on its way from one platform to the same platform. -/
namespace PeerConnect.Transfers
open Library Wire

/-- The setting of `IS_WINDOWS` and `IS_LINUX` at both ends. -/
inductive Platform
  | windows
  | linux
  deriving DecidableEq, Repr

namespace Platform

/-- Where a backslash is a separator too, it is read as the other one. -/
def unify : Platform → List Char → List Char
  | windows,text => text.map fun c => if c = '\\' then '/' else c
  | linux,text => text

/-- A text with a root or a drive, behind which nothing to its left is kept. -/
def anchored (platform : Platform) (text : List Char) : Bool :=
  isAbsolute (platform.unify text) || decide (platform = windows ∧ text[1]? = some ':')

/-- The relative path that a pair of texts is joined to. -/
def joined (platform : Platform) : Value × Value → Option Path
  | (.str parent,.str itemName) =>
    if platform.anchored parent || platform.anchored itemName then none
    else some (components (platform.unify parent) ++ components (platform.unify itemName))
  | _ => none

/-- A name that the files of the platform can have. -/
structure Allows (platform : Platform) (c : Name) : Prop where
  entry : Entry c
  windows : platform = windows → '\\' ∉ c ∧ ':' ∉ c

end Platform

/-- `name.replace('\\', '_')` -/
def replaceBackslash (name : List Char) : List Char := name.map fun c => if c = '\\' then '_' else c

theorem replaceBackslash_eq {name : List Char} (h : '\\' ∉ name) : replaceBackslash name = name := by
  unfold replaceBackslash
  rw [List.map_congr_left fun c hc => if_neg (by rintro rfl; exact h hc), List.map_id']

/-- What `umsgpack.dumps` is given: a plain value, or a path, for which the package has no form. -/
inductive Argument
  | plain (v : Value)
  | path (p : Path)

/-- `umsgpack.dumps((parent, name))` -/
def dumpsPair (u : Umsgpack) : Argument × Argument → Except Exn Bytes
  | (.plain parent,.plain name) =>
    match u.dumps (.array [parent,name]) with
    | some dumpedCode => .ok dumpedCode
    | none => .error .packException
  | _ => .error .packException

namespace DirSender

/-- The parent and the name of a relative path. Only on Windows is the parent made a text. -/
def partsOn (platform : Platform) (relPath : Path) : Argument × Argument :=
  let parent := match platform with
    | .windows => .plain (.str (asPosix relPath.parent))
    | .linux => .path relPath.parent
  let name := match platform with
    | .windows => relPath.name
    | .linux => replaceBackslash relPath.name
  (parent,.plain (.str name))

/-- `__send_code_parts` on one of the platforms. -/
def sendPartsOn (u : Umsgpack) (platform : Platform) (code : Bytes) (relPath : Path) :
    Coro Exn Sender Unit :=
  match dumpsPair u (partsOn platform relPath) with
  | .error e => Coro.raise e
  | .ok dumpedCode =>
    Coro.tryCatch
      (do
        Sender.sendFunc code
        let length ← Coro.ofExcept (structPack 4 dumpedCode.length)
        Sender.sendFunc (length ++ dumpedCode))
      Sender.handleException

end DirSender

namespace DirReceiver

/-- `_recv_parts` on one of the platforms; what has no `replace` of texts is refused on Windows. -/
def recvPartsOn (u : Umsgpack) (platform : Platform) : Coro Exn World (Value × Value) := do
  let parts ← recvParts u
  match platform,parts with
  | .windows,(parent,.str itemName) => pure (parent,.str (replaceBackslash itemName))
  | .windows,(_,.bin _) => Coro.raise .typeError
  | .windows,_ => Coro.raise .attributeError
  | .linux,_ => pure parts

end DirReceiver

/-- A world to whose receiver some bytes come uncut. -/
def World.arriving (bytes : Bytes) (w : World) : World :=
  { w with source := { w.source with pending := bytes, cut := Cut.whole } }

/-- What the receiver reads of what the sender writes for a path, once it has taken the code; more
comes behind the parts. -/
def receivedParts (u : Umsgpack) (platform : Platform) (code rest : Bytes) (s : Sender) (w : World)
    (relPath : Path) : Option (Value × Value) :=
  match DirSender.sendPartsOn u platform code relPath s with
  | .done _ s' =>
    match DirReceiver.recvPartsOn u platform
      (w.arriving (s'.out.drop (s.out ++ code).length ++ rest)) with
    | .done parts _ => some parts
    | _ => none
  | _ => none

/-- The relative path that a sent one has become. -/
def receivedPath (u : Umsgpack) (platform : Platform) (code rest : Bytes) (s : Sender) (w : World)
    (relPath : Path) : Option Path :=
  (receivedParts u platform code rest s w relPath).bind platform.joined

/-- Each path of a tree is received as it is, and no two of them as one. -/
structure KeepsPaths (u : Umsgpack) (platform : Platform) (code rest : Bytes) (s : Sender) (w : World)
    (tree : Set Path) : Prop where
  same : ∀ p ∈ tree, receivedPath u platform code rest s w p = some p
  apart : ∀ p ∈ tree, ∀ q ∈ tree, ∀ r, receivedPath u platform code rest s w p = some r →
    receivedPath u platform code rest s w q = some r → p = q

/-- The relative paths of a tree on a platform. -/
def TreeOn (platform : Platform) (tree : Set Path) : Prop :=
  ∀ p ∈ tree, p ≠ [] ∧ ∀ c ∈ p, platform.Allows c

/-- A path of the tree as a pair of texts can be packed, in fewer than `2^32` bytes. -/
def PairsPackable (u : Umsgpack) (tree : Set Path) : Prop :=
  ∀ p ∈ tree, ∃ dumpedCode length,
    u.dumps (.array [.str (asPosix p.parent),.str p.name]) = some dumpedCode ∧
      packUInt 4 dumpedCode.length = some length

variable {u : Umsgpack} {platform : Platform} {code rest : Bytes} {s : Sender} {w : World} {p : Path}

theorem notMem_intercalate {c : Char} (hc : c ≠ '/') (hp : ∀ n ∈ p, c ∉ n) :
    c ∉ ['/'].intercalate p := by
  induction p with
  | nil => simp
  | cons n p ih =>
    have hn := hp n List.mem_cons_self
    have htail := ih fun m hm => hp m (List.mem_cons_of_mem n hm)
    by_cases hne : p = []
    · subst hne
      simpa using hn
    · rw [List.intercalate_cons_of_ne_nil hne]
      simp [hn, htail, hc]

theorem notMem_asPosix {c : Char} (hc : c ≠ '/') (hdot : c ≠ '.') (hp : ∀ n ∈ p, c ∉ n) :
    c ∉ asPosix p := by
  unfold asPosix
  split
  · simp [dot, hdot]
  · exact notMem_intercalate hc hp

theorem unify_windows {text : List Char} (h : '\\' ∉ text) : Platform.windows.unify text = text := by
  change text.map (fun c => if c = '\\' then '/' else c) = text
  rw [List.map_congr_left fun c hc => if_neg (by rintro rfl; exact h hc), List.map_id']

theorem anchored_windows {text : List Char} (hb : '\\' ∉ text) (hd : ':' ∉ text)
    (ha : isAbsolute text = false) : Platform.windows.anchored text = false := by
  have hdrive : text[1]? ≠ some ':' := fun h => hd (List.mem_of_getElem? h)
  unfold Platform.anchored
  rw [unify_windows hb, ha]
  simp [hdrive]

/-- The records of a directory are those of Windows, where names hold no backslash. -/
theorem sendPartsOn_windows {item : DirItem} (h : '\\' ∉ item.name.chars) (code : Bytes) :
    DirSender.sendPartsOn u .windows code item.path = DirSender.sendCodeParts u code item := by
  have hparent : Path.parent item.path = item.parentPath := List.dropLast_concat
  have hname : Path.name item.path = item.name.chars := by simp [DirItem.path, Path.name]
  have hcode : DirSender.codeParts item =
      .array [.str (asPosix item.parentPath),.str item.name.chars] := by
    rw [DirSender.codeParts, ← replaceBackslash, replaceBackslash_eq h]
  unfold DirSender.sendPartsOn DirSender.sendCodeParts DirSender.partsOn dumpsPair
  dsimp only
  rw [hparent, hname, hcode]
  cases u.dumps (.array [.str (asPosix item.parentPath),.str item.name.chars]) <;> rfl

/-- The parent as a POSIX text and the name are joined to the path again. -/
theorem joined_windows (hne : p ≠ []) (hp : ∀ c ∈ p, Platform.windows.Allows c) :
    Platform.windows.joined (.str (asPosix p.parent),.str p.name) = some p := by
  have hname := hp p.name (Path.name_mem hne)
  have hparent : ∀ c ∈ p.parent, Platform.windows.Allows c := fun c hc =>
    hp c (List.mem_of_mem_dropLast hc)
  have hentry : ∀ c ∈ p.parent, Entry c := fun c hc => (hparent c hc).entry
  have hback : '\\' ∉ asPosix p.parent :=
    notMem_asPosix (by decide) (by decide) fun c hc => ((hparent c hc).windows rfl).1
  have hdrive : ':' ∉ asPosix p.parent :=
    notMem_asPosix (by decide) (by decide) fun c hc => ((hparent c hc).windows rfl).2
  have hname' := hname.windows rfl
  unfold Platform.joined
  dsimp only
  rw [anchored_windows hback hdrive (isAbsolute_asPosix hentry),
    anchored_windows hname'.1 hname'.2 hname.entry.component.not_absolute, Bool.or_self,
    if_neg Bool.false_ne_true, unify_windows hback, unify_windows hname'.1, components_asPosix hentry,
    hname.entry.component.components_eq, Path.parent_concat_name hne]

/-- On Windows the pair is packed, sent and read. -/
theorem receivedParts_windows (hs : s.sends = none) (hrest : rest ≠ []) {dumpedCode length : Bytes}
    (hd : u.dumps (.array [.str (asPosix p.parent),.str p.name]) = some dumpedCode)
    (hl : packUInt 4 dumpedCode.length = some length) (hback : '\\' ∉ p.name) :
    receivedParts u .windows code rest s w p = some (.str (asPosix p.parent),.str p.name) := by
  have hsend : DirSender.sendPartsOn u .windows code p s =
      .done () { s with out := s.out ++ (code ++ (length ++ dumpedCode)) } := by
    unfold DirSender.sendPartsOn DirSender.partsOn dumpsPair
    dsimp only
    rw [hd]
    exact DirSender.sendFramed_ok hs hl code
  have hdrop : (s.out ++ (code ++ (length ++ dumpedCode))).drop (s.out ++ code).length =
      length ++ dumpedCode := by
    rw [← List.append_assoc, List.drop_left]
  obtain ⟨s',-,hread⟩ := DirReceiver.recvParts_framed_pair
    (w := w.arriving (length ++ dumpedCode ++ rest)) (u.loads_dumps hd) hl rfl
    (List.append_assoc _ _ _) hrest
  have hrecv : DirReceiver.recvPartsOn u .windows (w.arriving (length ++ dumpedCode ++ rest)) =
      .done (.str (asPosix p.parent),.str p.name)
        { w.arriving (length ++ dumpedCode ++ rest) with source := s' } := by
    unfold DirReceiver.recvPartsOn
    rw [Coro.bind_apply, hread, Run.bind_done]
    dsimp only
    rw [replaceBackslash_eq hback]
    rfl
  unfold receivedParts
  rw [hsend]
  dsimp only
  rw [hdrop, hrecv]

/-- On Linux the parent is a path, and nothing is ever sent. -/
theorem receivedPath_linux : receivedPath u .linux code rest s w p = none := rfl

/-- The paths of a tree are kept on Windows, and on Linux not one of them. -/
theorem keepsPaths_iff_windows {tree : Set Path} (hs : s.sends = none) (hrest : rest ≠ [])
    (htree : TreeOn platform tree) (hpack : PairsPackable u tree) :
    KeepsPaths u platform code rest s w tree ↔ platform = .windows ∨ tree = ∅ := by
  cases platform with
  | windows =>
    refine iff_of_true ?_ (.inl rfl)
    have hsame : ∀ p ∈ tree, receivedPath u .windows code rest s w p = some p := by
      intro p hp
      obtain ⟨hpne,hallows⟩ := htree p hp
      obtain ⟨dumpedCode,length,hd,hl⟩ := hpack p hp
      have hback := ((hallows p.name (Path.name_mem hpne)).windows rfl).1
      unfold receivedPath
      rw [receivedParts_windows hs hrest hd hl hback, Option.bind_some, joined_windows hpne hallows]
    refine ⟨hsame,fun p hp q hq r hr hr' => ?_⟩
    rw [hsame p hp] at hr
    rw [hsame q hq] at hr'
    exact (Option.some.inj hr).trans (Option.some.inj hr').symm
  | linux =>
    constructor
    · intro h
      refine .inr (Set.eq_empty_iff_forall_notMem.mpr fun p hp => ?_)
      have hsame := h.same p hp
      rw [receivedPath_linux] at hsame
      cases hsame
    · rintro (h | rfl)
      · cases h
      · exact ⟨fun p hp => hp.elim,fun p hp => hp.elim⟩

def fileBInA : Path := [['a'],['b']]

theorem fileBInA_packable : PairsPackable pairCodec {fileBInA} := by
  intro p hp
  rw [Set.mem_singleton_iff.mp hp]
  exact ⟨_,_,rfl,rfl⟩

theorem fileBInA_on (platform : Platform) : TreeOn platform {fileBInA} := by
  intro p hp
  rw [Set.mem_singleton_iff.mp hp]
  refine ⟨by decide,fun c hc => ?_⟩
  rcases List.mem_cons.mp hc with rfl | hc
  · exact ⟨nameA.entry,fun _ => ⟨by decide,by decide⟩⟩
  · rw [List.mem_singleton.mp hc]
    exact ⟨nameB.entry,fun _ => ⟨by decide,by decide⟩⟩

def idleSender : Sender := { fileList := [] }

def bareWorld : World := World.start bareDirectory.path bareDirectory.fs [] .silent Cut.whole

theorem fileBInA_kept_iff :
    KeepsPaths pairCodec .windows DirReceiver.fileCode [0] idleSender bareWorld {fileBInA} ↔
      Platform.windows = .windows ∨ ({fileBInA} : Set Path) = ∅ :=
  keepsPaths_iff_windows rfl (by decide) (fileBInA_on _) fileBInA_packable

/-- Not even a file `b` in a directory `a` is named to the receiver. -/
theorem fileBInA_not_kept :
    ¬ KeepsPaths pairCodec .linux DirReceiver.fileCode [0] idleSender bareWorld {fileBInA} := by
  intro h
  have hsame := h.same fileBInA rfl
  rw [receivedPath_linux] at hsame
  cases hsame

end PeerConnect.Transfers
