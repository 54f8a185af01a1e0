import PeerConnect.Transfers.DirectoryRecords

/-! A directory sent and received: both sides answer each other, and what arrives is compared with
what was listed. -/
namespace PeerConnect.Transfers
open Library Wire FileSystem Receiver

/-- The entries of a directory tree, listed with each directory before its contents. Their names
hold no backslash. -/
structure Listing where
  items : List DirItem
  nodup : (items.map DirItem.path).Nodup
  parents : ∀ {pre item post}, items = pre ++ item::post → item.parentPath = [] ∨
    ∃ dir ∈ pre, dir.node = .dir ∧ dir.path = item.parentPath
  backslash : ∀ item ∈ items, '\\' ∉ item.name.chars

/-- The tree below a directory is that of the items. -/
def Mirrors (fs : FileSystem) (dir : Loc) (items : List DirItem) : Prop :=
  ∀ l ≠ [], ∀ node, fs.lookup (l ++ dir) = some node ↔ ∃ item ∈ items, item.loc = l ∧ item.node = node

/-- The items listed before one. -/
def earlier (items : List DirItem) (item : DirItem) : List DirItem :=
  items.takeWhile fun other => other.path ≠ item.path

/-- A file of a subdirectory that is not empty and has the name of an entry of the root listed before
it. -/
def Shadowed (items : List DirItem) (item : DirItem) : Prop :=
  item.parentPath ≠ [] ∧ item.node ≠ .dir ∧ item.node ≠ .file [] ∧
    ∃ other ∈ earlier items item, other.path = [item.name.chars]

theorem loc_inj {item item' : DirItem} : item.loc = item'.loc ↔ item.path = item'.path :=
  List.reverse_inj

theorem Listing.eq_of_path (L : Listing) {item item' : DirItem} (hi : item ∈ L.items)
    (hi' : item' ∈ L.items) (h : item.path = item'.path) : item = item' :=
  List.inj_on_of_nodup_map L.nodup hi hi' h

/-- No item listed before another one has its path. -/
theorem Listing.ne_path (L : Listing) {pre post : List DirItem} {item : DirItem}
    (h : L.items = pre ++ item::post) : ∀ other ∈ pre, other.path ≠ item.path := by
  have hnodup := L.nodup
  rw [h, List.map_append, List.map_cons, List.nodup_append] at hnodup
  intro other ho
  exact hnodup.2.2 _ (List.mem_map_of_mem ho) _ List.mem_cons_self

theorem Listing.earlier_eq (L : Listing) {pre post : List DirItem} {item : DirItem}
    (h : L.items = pre ++ item::post) : earlier L.items item = pre := by
  have hne := L.ne_path h
  rw [earlier, h, List.takeWhile_append_of_pos (by simpa using hne),
    List.takeWhile_cons_of_neg (by simp), List.append_nil]

/-- One more item of the tree. -/
theorem Mirrors.put {fs fs' : FileSystem} {dir : Loc} {items : List DirItem} {item : DirItem}
    (h : Mirrors fs dir items) (hput : Put fs fs' (item.loc ++ dir) item.node)
    (hne : ∀ other ∈ items, other.path ≠ item.path) : Mirrors fs' dir (items ++ [item]) := by
  intro l hl node
  by_cases he : l = item.loc
  · subst he
    rw [hput.here]
    constructor
    · intro hn
      exact ⟨item,by simp,rfl,Option.some.inj hn⟩
    · rintro ⟨other,ho,hloc,rfl⟩
      rcases List.mem_append.mp ho with ho | ho
      · exact absurd (loc_inj.mp hloc) (hne other ho)
      · rw [List.mem_singleton.mp ho]
  · rw [hput.elsewhere _ (fun hc => he (List.append_cancel_right hc)), h l hl node]
    constructor
    · rintro ⟨other,ho,hloc⟩
      exact ⟨other,List.mem_append_left _ ho,hloc⟩
    · rintro ⟨other,ho,hloc⟩
      rcases List.mem_append.mp ho with ho | ho
      · exact ⟨other,ho,hloc⟩
      · exact absurd (by rw [← hloc.1, List.mem_singleton.mp ho]) he

theorem DirItem.loc_ne_nil (item : DirItem) : item.loc ≠ [] := by simp [DirItem.loc, DirItem.path]

theorem Mirrors.here {fs : FileSystem} {dir : Loc} {items : List DirItem} {item : DirItem}
    (h : Mirrors fs dir items) (hi : item ∈ items) : fs.lookup (item.loc ++ dir) = some item.node :=
  (h _ item.loc_ne_nil _).mpr ⟨item,hi,rfl,rfl⟩

theorem Mirrors.absent {fs : FileSystem} {dir : Loc} {items : List DirItem} (h : Mirrors fs dir items)
    {l : Loc} (hl : l ≠ []) (hne : ∀ item ∈ items, item.loc ≠ l) : fs.lookup (l ++ dir) = none := by
  cases hn : fs.lookup (l ++ dir) with
  | none => rfl
  | some node =>
    obtain ⟨item,hi,hloc,_⟩ := (h l hl node).mp hn
    exact absurd hloc (hne item hi)

namespace DirReceiver

variable {u : Umsgpack} {d : DownloadDirectory} {L : Listing}

/-- The receiver's parent directory of the next item is there, with all directories before it. -/
theorem isDirectory_parent {pre post : List DirItem} {item : DirItem} {fs : FileSystem}
    (h : L.items = pre ++ item::post) (hd : fs.IsDirectory d.path d.loc)
    (hdirs : ∀ dir ∈ pre, dir.node = .dir → fs.lookup (dir.loc ++ d.loc) = some .dir) :
    fs.IsDirectory (d.path ++ item.parentPath) (parentLoc d item) := by
  refine isDirectory_below hd item.parent_entry ?_
  rcases L.parents h with hnil | ⟨dir,hmem,hnode,hpath⟩
  · rw [hnil]
    exact hd.dir
  · rw [← hpath]
    exact hdirs dir hmem hnode

/-- A name that the root does not have is kept. -/
theorem target_eq {w : World} (hd : w.fs.IsDirectory d.path d.loc) (item : DirItem)
    (h : item.node = .dir ∨ item.node = .file [] ∨
      w.fs.lookup (item.name.chars::d.loc) = none) : target d w item = item.name.chars := by
  cases item with
  | directory parent name => rfl
  | file parent f =>
    by_cases hc : f.contents = []
    · exact if_pos hc
    · rw [target, if_neg hc]
      have hname := f.name.entry
      rcases h with h | h | h
      · cases h
      · exact absurd (Node.file.inj h) hc
      · refine freeName_eq hd (candidate_candidates ⟨hname.no_slash,hname.no_nul⟩ hname.ne_dot)
          (k := 0) ?_ (by simp)
        rw [show candidate f.name.chars 0 = f.name.chars from rfl, hname.join_eq,
          pathExists_entry hd hname.ne_dotdot hname.no_nul]
        simpa [DirItem.name] using h

/-- Where nothing is shadowed, an item arrives in its place. -/
theorem recvLoop_mirrors (hpack : ∀ item ∈ L.items, DirSender.Packable u item)
    (hun : ∀ item ∈ L.items, ¬ Shadowed L.items item) {pre post : List DirItem} {item : DirItem}
    (hL : L.items = pre ++ item::post) {w : World} {rest : Bytes}
    (hb : Between w d (DirSender.record u item ++ rest)) (hrest : item.node = .dir → rest ≠ [])
    (hm : Mirrors w.fs d.loc pre) :
    ∃ w', Between w' d rest ∧ w'.sent = w.sent ++ ack item ∧
      Mirrors w'.fs d.loc (pre ++ [item]) ∧ recvLoop u w = recvLoop u w' := by
  have hmem : item ∈ L.items := by rw [hL]; simp
  have hne := L.ne_path hL
  have habsent : w.fs.lookup (item.loc ++ d.loc) = none :=
    hm.absent item.loc_ne_nil fun other ho => mt loc_inj.mp (hne other ho)
  have htarget : target d w item = item.name.chars := by
    refine target_eq hb.isDirectory item ?_
    by_cases hdir : item.node = .dir
    · exact .inl hdir
    by_cases hempty : item.node = .file []
    · exact .inr (.inl hempty)
    refine .inr (.inr ?_)
    by_cases hparent : item.parentPath = []
    · simpa [DirItem.loc, DirItem.path, hparent] using habsent
    · refine hm.absent (l := [item.name.chars]) (by simp) fun other ho hloc => ?_
      refine hun item hmem ⟨hparent,hdir,hempty,other,by rwa [L.earlier_eq hL],?_⟩
      simpa [DirItem.loc] using congrArg List.reverse hloc
  have hfree : w.fs.lookup (target d w item::parentLoc d item) = none := by
    rw [htarget, ← loc_eq, habsent]
  obtain ⟨w',hb',hsent,hput,hrun⟩ := recvLoop_free (hpack item hmem) (L.backslash item hmem) hb hrest
    (isDirectory_parent hL hb.isDirectory fun dir hd hn => by rw [hm.here hd, hn]) hfree
  rw [htarget, ← loc_eq] at hput
  exact ⟨w',hb',hsent,hm.put hput hne,hrun⟩

/-- The same for several items with something behind them. -/
theorem recvLoop_listed (hpack : ∀ item ∈ L.items, DirSender.Packable u item)
    (hun : ∀ item ∈ L.items, ¬ Shadowed L.items item) {rest : Bytes} (hrest : rest ≠ [])
    {pre mid post : List DirItem} (hL : L.items = pre ++ (mid ++ post)) {w : World}
    (hb : Between w d (DirSender.records u mid ++ rest)) (hm : Mirrors w.fs d.loc pre) :
    ∃ w', Between w' d rest ∧
      w'.sent = w.sent ++ List.replicate (mid.countP DirSender.isFile) 1 ∧
      Mirrors w'.fs d.loc (pre ++ mid) ∧ recvLoop u w = recvLoop u w' := by
  induction mid generalizing pre w with
  | nil => exact ⟨w,hb,by simp,by simpa using hm,rfl⟩
  | cons item mid ih =>
    have hb₁ : Between w d (DirSender.record u item ++ (DirSender.records u mid ++ rest)) := by
      simpa [DirSender.records] using hb
    obtain ⟨w₁,hb₁,hsent₁,hm₁,hrun₁⟩ := recvLoop_mirrors hpack hun hL hb₁
      (fun _ => List.append_ne_nil_of_right_ne_nil _ hrest) hm
    obtain ⟨w',hb',hsent,hm',hrun⟩ := ih (by rw [hL]; simp) hb₁ hm₁
    refine ⟨w',hb',?_,by simpa using hm',hrun₁.trans hrun⟩
    rw [hsent, hsent₁]
    cases item with
    | directory parent name =>
      rw [List.countP_cons_of_neg (by simp [DirSender.isFile])]
      simp [ack]
    | file parent f =>
      rw [List.countP_cons_of_pos rfl, List.replicate_succ]
      simp [ack, fileCode]

end DirReceiver

/-- A sender of a directory that is given some acknowledgements. -/
def sendDirectory (u : Umsgpack) (L : Listing) (acks : Bytes) : Run Exn Sender Unit :=
  DirSender.sendFiles u L.items { fileList := [], incoming := ⟨acks,.silent,Cut.whole,0⟩ }

/-- A receiver of a directory that is given some of its stream. -/
def receiveDirectory (u : Umsgpack) (d : DownloadDirectory) (stream : Bytes) : Run Exn World Unit :=
  DirReceiver.recvFiles u (World.start d.path d.fs stream .silent Cut.whole)

/-- What the receiver has acknowledged after some rounds. In each the sender runs until it waits for
more acknowledgements, and the receiver until it waits for more of the stream. Run again from the start
with more to read, either side does again what it did. -/
def acks (u : Umsgpack) (d : DownloadDirectory) (L : Listing) : ℕ → Bytes
  | 0 => []
  | n+1 => (receiveDirectory u d (sendDirectory u L (acks u d L n)).state.out).state.sent

/-- Both sides come to their end, and the tree that has arrived is the one listed. -/
def Replicates (u : Umsgpack) (d : DownloadDirectory) (L : Listing) : Prop :=
  ∃ n s w, sendDirectory u L (acks u d L n) = .done () s ∧ receiveDirectory u d s.out = .done () w ∧
    Mirrors w.fs d.loc L.items

/-- There is nothing in the directory. -/
def DownloadDirectory.Bare (d : DownloadDirectory) : Prop :=
  ∀ name, d.fs.lookup (name::d.loc) = none

theorem DownloadDirectory.Bare.absent {d : DownloadDirectory} (h : d.Bare) {l : Loc} (hl : l ≠ []) :
    d.fs.lookup (l ++ d.loc) = none := by
  obtain ⟨q,name,rfl⟩ := (List.eq_nil_or_concat l).resolve_left hl
  cases hn : d.fs.lookup (q.concat name ++ d.loc) with
  | none => rfl
  | some node =>
    -- whatever is below the directory is below one of its entries
    have hs : name::d.loc <:+ q.concat name ++ d.loc := by simp
    by_cases he : name::d.loc = q.concat name ++ d.loc
    · rw [← he, h name] at hn
      cases hn
    · have := d.fs.lookup_suffix_dir hs he hn
      rw [h name] at this
      cases this

theorem mirrors_bare {d : DownloadDirectory} (h : d.Bare) : Mirrors d.fs d.loc [] := by
  intro l hl node
  simp [h.absent hl]

theorem exists_nth_file {items : List DirItem} {n : ℕ} (h : n < items.countP DirSender.isFile) :
    ∃ pre parent f post, items = pre ++ DirItem.file parent f::post ∧
      pre.countP DirSender.isFile = n := by
  induction items generalizing n with
  | nil => simp at h
  | cons item items ih =>
    cases item with
    | directory parent name =>
      rw [List.countP_cons_of_neg (by simp [DirSender.isFile])] at h
      obtain ⟨pre,parent',f,post,rfl,hn⟩ := ih h
      exact ⟨.directory parent name::pre,parent',f,post,rfl,by
        rw [List.countP_cons_of_neg (by simp [DirSender.isFile]), hn]⟩
    | file parent f =>
      cases n with
      | zero => exact ⟨[],parent,f,items,rfl,rfl⟩
      | succ n =>
        rw [List.countP_cons_of_pos rfl] at h
        obtain ⟨pre,parent',f',post,rfl,hn⟩ := ih (Nat.lt_of_succ_lt_succ h)
        exact ⟨.file parent f::pre,parent',f',post,rfl,by rw [List.countP_cons_of_pos rfl, hn]⟩

section Rounds
open DirReceiver

variable {u : Umsgpack} {d : DownloadDirectory} {L : Listing}

theorem recvFiles_eq_loop (u : Umsgpack) (w : World) :
    DirReceiver.recvFiles u w = DirReceiver.recvLoop u (w.setState .receiving) := rfl

theorem between_start (d : DownloadDirectory) (stream : Bytes) :
    Between ((World.start d.path d.fs stream .silent Cut.whole).setState .receiving) d stream :=
  ⟨rfl,d.isDirectory,rfl,rfl,rfl,rfl⟩

/-- Where nothing is shadowed, each round ends with one more file acknowledged. -/
theorem acks_eq (hpack : ∀ item ∈ L.items, DirSender.Packable u item)
    (hun : ∀ item ∈ L.items, ¬ Shadowed L.items item) (hbare : d.Bare) {n : ℕ}
    (hn : n ≤ L.items.countP DirSender.isFile) : acks u d L n = List.replicate n 1 := by
  induction n with
  | zero => rfl
  | succ n ih =>
    obtain ⟨pre,parent,f,post,hL,hcount⟩ := exists_nth_file (Nat.lt_of_succ_le hn)
    have hitem : DirItem.file parent f ∈ L.items := by rw [hL]; simp
    -- the sender gets to the next file and waits
    obtain ⟨s,hout,hsend⟩ : ∃ s : Sender,
        s.out = DirSender.records u pre ++ DirSender.record u (.file parent f) ∧
        sendDirectory u L (acks u d L n) = .blocked s := by
      obtain ⟨s₁,h₁,hout₁,hin₁,he₁,hrun₁⟩ := DirSender.sendLoop_append (u := u)
        (.file parent f::post)
        (s := { fileList := [], incoming := ⟨acks u d L n,.silent,Cut.whole,0⟩ }) ⟨rfl,rfl⟩
        (fun i hi => hpack i (by rw [hL]; exact List.mem_append_left _ hi))
        (by rw [ih (by omega), hcount, List.append_nil])
      obtain ⟨s₂,hout₂,hrun₂⟩ := DirSender.sendLoop_waits h₁ (hpack _ hitem) hin₁ he₁
      refine ⟨s₂,by rw [hout₂, hout₁]; rfl,?_⟩
      rw [sendDirectory, DirSender.sendFiles, Coro.bind_apply, hL, hrun₁, hrun₂]
      rfl
    -- the receiver gets through it and waits
    obtain ⟨w₁,hb₁,hsent₁,hm₁,hrun₁⟩ := recvLoop_listed (d := d) hpack hun
      (by simp [DirSender.record, fileCode] : DirSender.record u (.file parent f) ≠ []) hL
      (between_start d _)
      (mirrors_bare hbare)
    rw [← List.append_nil (DirSender.record u _)] at hb₁
    obtain ⟨w₂,hb₂,hsent₂,_,hrun₂⟩ := recvLoop_mirrors hpack hun hL hb₁ (fun h => by cases h) hm₁
    have hblocked : DirReceiver.recvLoop u w₂ = .blocked w₂ := by
      have hr : recvFunc 1 w₂ = .blocked w₂ := by
        simp [recvFunc, sockRecv, Source.recv_silent w₂.source Nat.one_ne_zero hb₂.pending hb₂.ending]
      have hs : shouldProceed w₂ = .blocked w₂ := by simp [shouldProceed, hb₂.toStop, hr]
      rw [DirReceiver.recvLoop_eq, hs, Run.bind_blocked]
    rw [acks, hsend, Run.state_blocked, hout, receiveDirectory, recvFiles_eq_loop, hrun₁, hrun₂,
      hblocked, Run.state_blocked, hsent₂, hsent₁, hcount, List.replicate_succ']
    rfl

/-- Where nothing is shadowed, the directory arrives as it is. -/
theorem replicates_of_not_shadowed (hpack : ∀ item ∈ L.items, DirSender.Packable u item)
    (hun : ∀ item ∈ L.items, ¬ Shadowed L.items item) (hbare : d.Bare) : Replicates u d L := by
  set n := L.items.countP DirSender.isFile with hn
  obtain ⟨s₁,h₁,hout₁,_,_,hrun₁⟩ := DirSender.sendLoop_append (u := u) []
    (s := { fileList := [], incoming := ⟨acks u d L n,.silent,Cut.whole,0⟩ }) ⟨rfl,rfl⟩ hpack
    (by rw [acks_eq hpack hun hbare le_rfl, List.append_nil])
  have hsend : sendDirectory u L (acks u d L n) = .done () { s₁ with out := s₁.out ++ [0] } := by
    rw [List.append_nil] at hrun₁
    rw [sendDirectory, DirSender.sendFiles, Coro.bind_apply, hrun₁]
    exact Sender.sendFunc_apply [0] s₁ h₁.sends
  obtain ⟨w₁,hb₁,_,hm₁,hloop₁⟩ := recvLoop_listed (d := d) hpack hun
    (by simp : ([0] : Bytes) ≠ []) (by simp : L.items = [] ++ (L.items ++ [])) (between_start d _)
    (mirrors_bare hbare)
  refine ⟨n,_,{ w₁ with source := w₁.source.advance 1 },hsend,?_,hm₁⟩
  have hout : ({ s₁ with out := s₁.out ++ [0] } : Sender).out = DirSender.records u L.items ++ [0] := by
    show s₁.out ++ [0] = _
    rw [hout₁]
    rfl
  rw [hout, receiveDirectory, recvFiles_eq_loop, hloop₁, DirReceiver.recvLoop_eq,
    shouldProceed_tag w₁ 0 [] hb₁.toStop hb₁.pending]
  rfl

end Rounds

/-- What is there below the directory once some items have been received, whatever has become of their
names: a shadowed file is there under a longer name only. -/
structure Reached (fs : FileSystem) (dir : Loc) (L : Listing) (pre : List DirItem) : Prop where
  dirs : ∀ i ∈ pre, i.node = .dir → fs.lookup (i.loc ++ dir) = some .dir
  root : ∀ i ∈ pre, i.parentPath = [] → fs.lookup (i.loc ++ dir) ≠ none
  made : ∀ l ≠ [], fs.lookup (l ++ dir) ≠ none → ∃ i ∈ pre,
    (i.loc = l ∧ ¬ Shadowed L.items i) ∨
    (Shadowed L.items i ∧ ∃ n : Name, l = n::i.parentPath.reverse ∧ i.name.chars.length < n.length)

/-- An entry of the root is one of the items. -/
theorem Reached.root_item {fs : FileSystem} {dir : Loc} {L : Listing} {pre : List DirItem}
    (h : Reached fs dir L pre) {name : Name} (hn : fs.lookup (name::dir) ≠ none) :
    ∃ i ∈ pre, i.path = [name] := by
  obtain ⟨i,hi,⟨hloc,_⟩ | ⟨hs,n,hl,_⟩⟩ := h.made [name] (by simp) hn
  · exact ⟨i,hi,by simpa [DirItem.loc] using congrArg List.reverse hloc⟩
  · have hnil : i.parentPath = [] := by simpa using (List.cons.inj hl).2.symm
    exact absurd hnil hs.1

/-- If everything listed is in its place, nothing was shadowed: the shadowed file with the shortest name
would be missing. -/
theorem Reached.not_shadowed {fs : FileSystem} {dir : Loc} {L : Listing}
    (h : Reached fs dir L L.items) (hall : ∀ i ∈ L.items, fs.lookup (i.loc ++ dir) ≠ none) :
    ∀ i ∈ L.items, ¬ Shadowed L.items i := by
  intro i hi
  induction hn : i.name.chars.length using Nat.strong_induction_on generalizing i with
  | _ n ih =>
    intro hs
    obtain ⟨j,hj,⟨hloc,hjs⟩ | ⟨hjs,name,hl,hlt⟩⟩ := h.made i.loc i.loc_ne_nil (hall i hi)
    · rw [L.eq_of_path hj hi (loc_inj.mp hloc)] at hjs
      exact hjs hs
    · have hname : i.name.chars = name := by
        have := (List.cons.inj (show i.name.chars::i.parentPath.reverse = _ by
          rw [← hl]; simp [DirItem.loc, DirItem.path])).1
        exact this
      exact ih _ (by rw [← hn, hname]; exact hlt) j hj rfl hjs

theorem validName_eq_or_longer (fs : FileSystem) (root : Path) (name : Name) :
    validName fs root name = name ∨ name.length < (validName fs root name).length := by
  unfold validName freeName
  cases firstFree (fun n => fs.pathExists (root.join n)) (candidate name) (nameRounds fs) 0 with
  | zero => exact .inl rfl
  | succ k => exact .inr (numbered_succ_length _ (stem_append_suffix name) k)

namespace DirReceiver

variable {u : Umsgpack} {d : DownloadDirectory} {L : Listing} {pre post : List DirItem}
  {item : DirItem} {w : World}

/-- A shadowed file is given a longer name, any other item its own. -/
theorem target_shadowed (hL : L.items = pre ++ item::post) (hd : w.fs.IsDirectory d.path d.loc)
    (h : Reached w.fs d.loc L pre) :
    (target d w item = item.name.chars ∧ ¬ Shadowed L.items item) ∨
      (Shadowed L.items item ∧ item.name.chars.length < (target d w item).length) := by
  by_cases hs : Shadowed L.items item
  · right
    refine ⟨hs,?_⟩
    obtain ⟨_,hdir,hempty,other,ho,hpath⟩ := hs
    rw [L.earlier_eq hL] at ho
    cases item with
    | directory parent name => exact absurd rfl hdir
    | file parent f =>
      have hc : f.contents ≠ [] := fun hc => hempty (by simp [DirItem.node, hc])
      have hname := f.name.entry
      rw [target, if_neg hc]
      refine (validName_eq_or_longer _ _ _).resolve_left
        fun (heq : validName w.fs d.path f.name.chars = f.name.chars) => ?_
      -- the name is taken by the entry of the root
      have hparts := List.append_eq_singleton_iff.mp hpath
      have hroot : other.parentPath = [] := by
        rcases hparts with h | h
        · exact h.1
        · exact absurd h.2 (by simp)
      have hfree := (validName_free hd ⟨hname.no_slash,hname.no_nul⟩ hname.ne_dot).2
      rw [heq] at hfree
      refine h.root other ho hroot ?_
      rw [DirItem.loc, hpath]
      exact hfree
  · refine .inl ⟨target_eq hd item ?_,hs⟩
    by_cases hdir : item.node = .dir
    · exact .inl hdir
    by_cases hempty : item.node = .file []
    · exact .inr (.inl hempty)
    refine .inr (.inr ?_)
    by_contra hn
    obtain ⟨other,ho,hpath⟩ := h.root_item hn
    by_cases hparent : item.parentPath = []
    · exact L.ne_path hL other ho (by rw [hpath, DirItem.path, hparent]; rfl)
    · exact hs ⟨hparent,hdir,hempty,other,by rwa [L.earlier_eq hL],hpath⟩

/-- Receiving one more item. -/
theorem reached_put (hL : L.items = pre ++ item::post) (hd : w.fs.IsDirectory d.path d.loc)
    (h : Reached w.fs d.loc L pre) (hfree : w.fs.lookup (target d w item::parentLoc d item) = none)
    {fs' : FileSystem} (hput : Put w.fs fs' (target d w item::parentLoc d item) item.node) :
    Reached fs' d.loc L (pre ++ [item]) := by
  have hkeep : ∀ l, w.fs.lookup l ≠ none → fs'.lookup l = w.fs.lookup l := fun l hl =>
    hput.elsewhere l (by rintro rfl; exact hl hfree)
  have htarget := target_shadowed hL hd h
  refine ⟨fun i hi hn => ?_,fun i hi hn => ?_,fun l hl hn => ?_⟩
  · rcases List.mem_append.mp hi with hi | hi
    · rw [hkeep _ (by rw [h.dirs i hi hn]; simp), h.dirs i hi hn]
    · obtain rfl := List.mem_singleton.mp hi
      obtain ⟨heq,_⟩ := htarget.resolve_right fun hs => hs.1.2.1 hn
      rw [loc_eq, ← heq, hput.here, hn]
  · rcases List.mem_append.mp hi with hi | hi
    · rw [hkeep _ (h.root i hi hn)]
      exact h.root i hi hn
    · obtain rfl := List.mem_singleton.mp hi
      obtain ⟨heq,_⟩ := htarget.resolve_right fun hs => hs.1.1 hn
      rw [loc_eq, ← heq, hput.here]
      simp
  · by_cases hplace : l ++ d.loc = target d w item::parentLoc d item
    · have hl' : l = target d w item::item.parentPath.reverse :=
        List.append_cancel_right (hplace.trans (by simp [parentLoc]))
      refine ⟨item,by simp,?_⟩
      rcases htarget with ⟨heq,hs⟩ | ⟨hs,hlt⟩
      · exact .inl ⟨by rw [hl', heq]; simp [DirItem.loc, DirItem.path],hs⟩
      · exact .inr ⟨hs,_,hl',hlt⟩
    · rw [hput.elsewhere _ hplace] at hn
      obtain ⟨i,hi,hmade⟩ := h.made l hl hn
      exact ⟨i,List.mem_append_left _ hi,hmade⟩

/-- An empty file that was already there under its name. -/
theorem reached_kept (hd : w.fs.IsDirectory d.path d.loc) (h : Reached w.fs d.loc L pre)
    (hempty : item.node = .file [])
    (htaken : w.fs.lookup (target d w item::parentLoc d item) ≠ none) {fs' : FileSystem}
    (hsame : ∀ l, fs'.lookup l = w.fs.lookup l) : Reached fs' d.loc L (pre ++ [item]) := by
  have htarget := target_eq hd item (.inr (.inl hempty))
  refine ⟨fun i hi hn => ?_,fun i hi hn => ?_,fun l hl hn => ?_⟩
  · rcases List.mem_append.mp hi with hi | hi
    · rw [hsame, h.dirs i hi hn]
    · rw [List.mem_singleton.mp hi, hempty] at hn
      cases hn
  · rcases List.mem_append.mp hi with hi | hi
    · rw [hsame]
      exact h.root i hi hn
    · rw [List.mem_singleton.mp hi, hsame, loc_eq, ← htarget]
      exact htaken
  · rw [hsame] at hn
    obtain ⟨i,hi,hmade⟩ := h.made l hl hn
    exact ⟨i,List.mem_append_left _ hi,hmade⟩

/-- Whatever is shadowed, the items are received one by one or the transfer fails. -/
theorem recvLoop_reached (hpack : ∀ item ∈ L.items, DirSender.Packable u item) {rest : Bytes}
    (hrest : rest ≠ []) {pre mid : List DirItem} (hL : L.items = pre ++ mid) {w : World}
    (hb : Between w d (DirSender.records u mid ++ rest)) (h : Reached w.fs d.loc L pre) :
    (∃ e w', recvLoop u w = .raised e w') ∨
      ∃ w', Between w' d rest ∧ Reached w'.fs d.loc L L.items ∧ recvLoop u w = recvLoop u w' := by
  induction mid generalizing pre w with
  | nil =>
    rw [List.append_nil] at hL
    exact .inr ⟨w,hb,hL ▸ h,rfl⟩
  | cons item mid ih =>
    have hmem : item ∈ L.items := by rw [hL]; simp
    have hb₁ : Between w d (DirSender.record u item ++ (DirSender.records u mid ++ rest)) := by
      simpa [DirSender.records] using hb
    have hdir := isDirectory_parent (d := d) hL hb.isDirectory h.dirs
    have hnext : ∀ _ : item.node = .dir, DirSender.records u mid ++ rest ≠ [] :=
      fun _ => List.append_ne_nil_of_right_ne_nil _ hrest
    have hone : (∃ e w', recvLoop u w = .raised e w') ∨
        ∃ w', Between w' d (DirSender.records u mid ++ rest) ∧
          Reached w'.fs d.loc L (pre ++ [item]) ∧ recvLoop u w = recvLoop u w' := by
      by_cases hfree : w.fs.lookup (target d w item::parentLoc d item) = none
      · obtain ⟨w',hb',_,hput,hrun⟩ :=
          recvLoop_free (hpack item hmem) (L.backslash item hmem) hb₁ hnext hdir hfree
        exact .inr ⟨w',hb',reached_put hL hb.isDirectory h hfree hput,hrun⟩
      · rcases recvLoop_taken (hpack item hmem) (L.backslash item hmem) hb₁ hnext hdir hfree with
          hr | ⟨hempty,w',hb',hsame,hrun⟩
        · exact .inl hr
        · exact .inr ⟨w',hb',reached_kept hb.isDirectory h hempty hfree hsame,hrun⟩
    rcases hone with hr | ⟨w₁,hb₁,h₁,hrun₁⟩
    · exact .inl hr
    · rw [hrun₁]
      exact ih (by rw [hL]; simp) hb₁ h₁

end DirReceiver

theorem reached_bare {d : DownloadDirectory} (h : d.Bare) (L : Listing) :
    Reached d.fs d.loc L [] where
  dirs := by simp
  root := by simp
  made := fun l hl hn => absurd (h.absent hl) hn

/-- A directory that has arrived as it is has no shadowed file. -/
theorem not_shadowed_of_replicates {u : Umsgpack} {d : DownloadDirectory} {L : Listing}
    (hbare : d.Bare) (hpack : ∀ item ∈ L.items, DirSender.Packable u item) (h : Replicates u d L) :
    ∀ item ∈ L.items, ¬ Shadowed L.items item := by
  obtain ⟨n,s,w,hsend,hrecv,hm⟩ := h
  have hout : s.out = DirSender.records u L.items ++ [0] := by
    obtain ⟨_,s₁,hloop,hend⟩ := Run.bind_eq_done hsend
    obtain ⟨h₁,hout₁⟩ := DirSender.sendLoop_done ⟨rfl,rfl⟩ hpack hloop
    have hend : Sender.sendFunc [0] s₁ = .done () s := hend
    rw [Sender.sendFunc_apply [0] s₁ h₁.sends] at hend
    cases hend
    show s₁.out ++ [0] = _
    rw [hout₁]
    rfl
  rw [receiveDirectory, recvFiles_eq_loop, hout] at hrecv
  rcases DirReceiver.recvLoop_reached (L := L) hpack
    (by simp : ([0] : Bytes) ≠ []) rfl (between_start d _) (reached_bare hbare L) with
    ⟨e,w',hraise⟩ | ⟨w₁,hb₁,h₁,hrun⟩
  · rw [hraise] at hrecv
    cases hrecv
  · rw [hrun, DirReceiver.recvLoop_eq, shouldProceed_tag w₁ 0 [] hb₁.toStop hb₁.pending] at hrecv
    cases hrecv
    exact h₁.not_shadowed fun i hi => by
      have hhere := hm.here hi
      simp only at hhere
      rw [hhere]
      simp

/-- A directory arrives as it is exactly if no file of a subdirectory is shadowed: the name of a file
that is not empty is looked up in the root of the download, not in the directory it goes to. -/
theorem replicates_iff_not_shadowed (u : Umsgpack) (d : DownloadDirectory) (L : Listing)
    (hbare : d.Bare) (hpack : ∀ item ∈ L.items, DirSender.Packable u item) :
    Replicates u d L ↔ ∀ item ∈ L.items, ¬ Shadowed L.items item :=
  ⟨not_shadowed_of_replicates hbare hpack,fun hun => replicates_of_not_shadowed hpack hun hbare⟩

/-- The MessagePack encoding of a pair of one-letter texts. -/
def pairCodec : Umsgpack where
  dumps
    | .array [.str [a],.str [b]] =>
      if a.toNat < 128 ∧ b.toNat < 128 then
        some [0x92,0xa1,UInt8.ofNat a.toNat,0xa1,UInt8.ofNat b.toNat]
      else none
    | _ => none
  loads
    | [0x92,0xa1,x,0xa1,y] =>
      some (.array [.str [Char.ofNat x.toNat],.str [Char.ofNat y.toNat]])
    | _ => none
  loads_dumps := by
    intro v bs h
    split at h
    next a b =>
      split at h
      next hlt =>
        cases h
        have ha : a.toNat % 256 = a.toNat := Nat.mod_eq_of_lt (hlt.1.trans (by decide))
        have hb : b.toNat % 256 = b.toNat := Nat.mod_eq_of_lt (hlt.2.trans (by decide))
        simp [ha, hb]
      · cases h
    · cases h
  loads_truncated := by
    intro v bs part h hpre hne
    split at h
    · split at h
      · cases h
        have hlen := lt_of_le_of_ne hpre.length_le fun he => hne (hpre.eq_of_length he)
        split
        · simp at hlen
        · rfl
      · cases h
    · cases h

/-- A directory `a` with one file in it. -/
def nested (name : FileName) (hbs : '\\' ∉ name.chars) : Listing where
  items := [.directory [] nameA,.file [nameA] ⟨name,[7],0,one_byte_fits⟩]
  nodup := by simp [DirItem.path, DirItem.parentPath, DirItem.parent, DirItem.name]
  parents := by
    intro pre item post h
    rcases pre with _ | ⟨x,_ | ⟨y,pre⟩⟩
    · obtain ⟨rfl,_⟩ := List.cons.inj h
      exact .inl rfl
    · simp only [List.cons_append, List.nil_append, List.cons.injEq] at h
      obtain ⟨rfl,rfl,_⟩ := h
      exact .inr ⟨_,List.mem_singleton_self _,rfl,rfl⟩
    · simp at h
  backslash := by
    intro item hi
    rcases List.mem_cons.mp hi with rfl | hi
    · decide
    · rw [List.mem_singleton.mp hi]
      exact hbs

theorem bareDirectory_bare : bareDirectory.Bare := fun _ => rfl

def nameB : FileName where
  chars := ['b']
  entry := by constructor <;> decide

theorem nested_packable {name : FileName} {hbs : '\\' ∉ name.chars} {c : Char}
    (hname : name.chars = [c]) (hc : c.toNat < 128) :
    ∀ item ∈ (nested name hbs).items, DirSender.Packable pairCodec item := by
  intro item hi
  rcases List.mem_cons.mp hi with rfl | hi
  · exact ⟨_,_,rfl,rfl⟩
  · rw [List.mem_singleton.mp hi]
    have hback : c ≠ '\\' := by
      rintro rfl
      exact hbs (by rw [hname]; exact List.mem_singleton_self _)
    refine ⟨[0x92,0xa1,0x61,0xa1,UInt8.ofNat c.toNat],_,?_,rfl⟩
    simp [pairCodec, DirSender.codeParts, asPosix, DirItem.parentPath, DirItem.parent, DirItem.name,
      hname, nameA, hback, hc, List.intercalate]

/-- A directory `a` with a file `b` in it arrives. -/
theorem nested_replicates : Replicates pairCodec bareDirectory (nested nameB (by decide)) := by
  refine (replicates_iff_not_shadowed pairCodec bareDirectory (nested nameB (by decide))
    bareDirectory_bare (nested_packable rfl (by decide))).mpr ?_
  rintro item hi ⟨hparent,_,_,other,ho,hpath⟩
  rcases List.mem_cons.mp hi with rfl | hi
  · exact hparent rfl
  · rw [List.mem_singleton.mp hi] at hpath
    rcases List.mem_cons.mp ((List.takeWhile_sublist _).subset ho) with rfl | ho
    · exact absurd hpath (by decide)
    · rw [List.mem_singleton.mp ho] at hpath
      exact absurd hpath (by decide)

/-- A directory `a` with a file `a` in it does not: the file is received as `a (1)`. -/
theorem nested_namesake_renamed :
    ¬ ∀ (u : Umsgpack) (d : DownloadDirectory) (L : Listing), d.Bare →
      (∀ item ∈ L.items, DirSender.Packable u item) → Replicates u d L := by
  intro h
  have hr := h pairCodec bareDirectory (nested nameA (by decide)) bareDirectory_bare
    (nested_packable rfl (by decide))
  exact not_shadowed_of_replicates bareDirectory_bare (nested_packable rfl (by decide)) hr _
    (List.mem_cons_of_mem _ (List.mem_singleton_self _))
    ⟨by decide,by decide,by decide,.directory [] nameA,List.mem_cons_self,rfl⟩

end PeerConnect.Transfers
