import PeerConnect.Library.Directory

/-! Where paths lead in a file system, and file systems made for given paths. -/
namespace PeerConnect.Library.FileSystem

/-- There are no links: a walk ends where the path leads by itself. -/
theorem walk_resolve {fs : FileSystem} {p : Path} {l l' : Loc} (h : fs.walk l p = .ok l') :
    l' = p.foldl descend l := by
  induction p generalizing l with
  | nil => cases h; rfl
  | cons c cs ih =>
    simp only [walk] at h
    split at h
    · split at h
      next hc =>
        rw [List.foldl_cons, hc, descend_dotdot]
        exact ih h
      next hc =>
        split at h
        · rw [List.foldl_cons, descend_of_ne l hc]
          exact ih h
        · cases h
    · cases h

/-- Every directory a walk to a directory passes is one. -/
theorem walk_dir {fs : FileSystem} {p q : Path} {l l' : Loc} (h : fs.walk l p = .ok l')
    (hl' : fs.lookup l' = some .dir) (hq : q <+: p) : fs.lookup (q.foldl descend l) = some .dir := by
  obtain ⟨r,rfl⟩ := hq
  rw [walk_append] at h
  cases hw : fs.walk l q with
  | error e => rw [hw] at h; cases h
  | ok m =>
    rw [hw] at h
    rw [← walk_resolve hw]
    exact (walk_mono (fun _ hd => hd) h hl').2

/-- A walk along directories arrives. -/
theorem walk_of_dirs {fs : FileSystem} {p : Path} {l : Loc}
    (h : ∀ q, q <+: p → fs.lookup (q.foldl descend l) = some .dir) :
    fs.walk l p = .ok (p.foldl descend l) := by
  induction p generalizing l with
  | nil => rfl
  | cons c cs ih =>
    have hl : fs.isDir l = true := (isDir_iff fs l).mpr (h [] List.nil_prefix)
    have hcs := ih (l := descend l c) fun q hq => h (c::q) (List.cons_prefix_cons.mpr ⟨rfl,hq⟩)
    rw [walk, if_pos hl]
    split
    next hc =>
      rw [hc, descend_dotdot] at hcs
      rw [hcs, List.foldl_cons, hc, descend_dotdot]
    next hc =>
      have hsome := h [c] (List.cons_prefix_cons.mpr ⟨rfl,List.nil_prefix⟩)
      rw [List.foldl_cons, List.foldl_nil, descend_of_ne l hc] at hsome
      rw [descend_of_ne l hc] at hcs
      rw [if_pos (by rw [hsome]; rfl), hcs, List.foldl_cons, descend_of_ne l hc]

theorem IsDirectory.loc_eq {fs : FileSystem} {p : Path} {l : Loc} (h : fs.IsDirectory p l) :
    l = resolve p := walk_resolve (walk_of_locate h.locate)

theorem IsDirectory.prefix_dir {fs : FileSystem} {p q : Path} {l : Loc} (h : fs.IsDirectory p l)
    (hq : q <+: p) : fs.lookup (resolve q) = some .dir :=
  walk_dir (walk_of_locate h.locate) h.dir hq

theorem IsDirectory.of_dirs {fs : FileSystem} {p : Path} (hn : p.hasNul = false)
    (h : ∀ q, q <+: p → fs.lookup (resolve q) = some .dir) : fs.IsDirectory p (resolve p) :=
  ⟨locate_of_walk hn (walk_of_dirs h) (h p List.prefix_rfl),h p List.prefix_rfl⟩

/-- What `..` leads to; from the root it is the root itself. -/
theorem IsDirectory.parent {fs : FileSystem} {p : Path} {l : Loc} (h : fs.IsDirectory p l) :
    fs.IsDirectory (p ++ [dotdot]) l.tail := by
  have hn : Path.hasNul (p ++ [dotdot]) = false := by
    have := locate_hasNul h.locate
    simp_all [Path.hasNul]
    decide
  have hw : fs.walk [] (p ++ [dotdot]) = .ok l.tail := by
    rw [walk_append, walk_of_locate h.locate]
    simp [Except.bind, walk, (isDir_iff fs l).mpr h.dir]
  have hd : fs.lookup l.tail = some .dir := by
    cases l with
    | nil => exact h.dir
    | cons c t => exact fs.lookup_tail_dir h.dir
  exact ⟨locate_of_walk hn hw hd,hd⟩

/-- Where a path leads to something, it leads there by itself. -/
theorem locate_true {fs : FileSystem} {p : Path} {l : Loc} (h : fs.locate p = .ok (l,true)) :
    l = resolve p := walk_resolve (walk_of_locate h)

/-- A path that leads to nothing ends in an entry its directory does not have. -/
theorem locate_false {fs : FileSystem} {p : Path} {l : Loc} (h : fs.locate p = .ok (l,false)) :
    ∃ q c, p = q ++ [c] ∧ c ≠ dotdot ∧ l = c::resolve q ∧ fs.lookup l = none := by
  unfold FileSystem.locate at h
  split at h
  · cases h
  · rcases List.eq_nil_or_concat p with rfl | ⟨q,c,rfl⟩
    · simp [walk] at h
    · rw [List.concat_eq_append] at h ⊢
      simp only [List.dropLast_concat, List.getLast?_concat] at h
      cases hw : fs.walk [] q with
      | error e => rw [hw] at h; cases h
      | ok d =>
        rw [hw] at h
        dsimp only at h
        split at h
        · split at h
          · cases h
          next hc =>
            simp only [Except.ok.injEq, Prod.mk.injEq, Option.isSome_eq_false_iff,
              Option.isNone_iff_eq_none] at h
            obtain ⟨rfl,hnone⟩ := h
            exact ⟨q,c,rfl,hc,by rw [walk_resolve hw]; rfl,hnone⟩
        · cases h

/-- A path that leads to no directory ends in an entry of one. -/
theorem locate_ends {fs : FileSystem} {p : Path} {l : Loc} {found : Bool}
    (h : fs.locate p = .ok (l,found)) (hl : fs.lookup l ≠ some .dir) :
    ∃ q c d, p = q ++ [c] ∧ fs.IsDirectory q d ∧ c ≠ dotdot ∧ Char.ofNat 0 ∉ c ∧ l = c::d := by
  have hn := locate_hasNul h
  unfold FileSystem.locate at h
  rw [if_neg (by simp [hn])] at h
  rcases List.eq_nil_or_concat p with rfl | ⟨q,c,rfl⟩
  · cases h
    exact absurd fs.root_dir hl
  · rw [List.concat_eq_append] at h hn ⊢
    simp only [List.dropLast_concat, List.getLast?_concat] at h
    cases hw : fs.walk [] q with
    | error e => rw [hw] at h; cases h
    | ok d =>
      rw [hw] at h
      dsimp only at h
      split at h
      next hd =>
        have hq : fs.IsDirectory q d :=
          ⟨locate_of_walk (Path.hasNul_of_prefix (List.prefix_append _ _) hn) hw
            ((isDir_iff fs d).mp hd),(isDir_iff fs d).mp hd⟩
        split at h
        · cases h
          exact absurd hq.parent.dir hl
        next hc =>
          cases h
          exact ⟨q,c,d,rfl,hq,hc,Path.not_mem_of_hasNul hn (by simp),rfl⟩
      · cases h

/-- Directories at the given places, and nothing but what they need. -/
structure Scaffold (fs : FileSystem) (ls : List Loc) : Prop where
  dirs : ∀ l ∈ ls, fs.lookup l = some .dir
  needed : ∀ l node, fs.lookup l = some node → node = .dir ∧ (l = [] ∨ ∃ l' ∈ ls, l <:+ l')

theorem Scaffold.bare : Scaffold .bare [] where
  dirs := by simp
  needed := by
    intro l node h
    have hl : l = [] := (Finmap.mem_singleton _ _ _).mp (Finmap.mem_of_lookup_eq_some h)
    subst hl
    exact ⟨Option.some.inj (h.symm.trans FileSystem.bare.root_dir),.inl rfl⟩

/-- One more directory, with the missing ones above it. -/
theorem Scaffold.exists_cons {fs : FileSystem} {ls : List Loc} (h : Scaffold fs ls) (l : Loc) :
    ∃ fs', Scaffold fs' (l::ls) := by
  induction l with
  | nil =>
    refine ⟨fs,⟨fun l hl => ?_,fun l node hn => ?_⟩⟩
    · rcases List.mem_cons.mp hl with rfl | hl
      · exact fs.root_dir
      · exact h.dirs l hl
    · obtain ⟨hd,hl⟩ := h.needed l node hn
      exact ⟨hd,hl.imp_right fun ⟨l',hl',hs⟩ => ⟨l',List.mem_cons_of_mem _ hl',hs⟩⟩
  | cons c t ih =>
    obtain ⟨fs₁,h₁⟩ := ih
    have ht : fs₁.lookup t = some .dir := h₁.dirs t List.mem_cons_self
    have hup : ∀ l, (l = [] ∨ ∃ l' ∈ t::ls, l <:+ l') → l = [] ∨ ∃ l' ∈ (c::t)::ls, l <:+ l' := by
      rintro l (rfl | ⟨l',hl',hs⟩)
      · exact .inl rfl
      · rcases List.mem_cons.mp hl' with rfl | hl'
        · exact .inr ⟨c::l',List.mem_cons_self,hs.trans (List.suffix_cons c l')⟩
        · exact .inr ⟨l',List.mem_cons_of_mem _ hl',hs⟩
    cases hnone : fs₁.lookup (c::t) with
    | some node =>
      refine ⟨fs₁,⟨fun l hl => ?_,fun l node hn => (h₁.needed l node hn).imp_right (hup l)⟩⟩
      rcases List.mem_cons.mp hl with rfl | hl
      · rw [hnone, (h₁.needed _ _ hnone).1]
      · exact h₁.dirs l (List.mem_cons_of_mem _ hl)
    | none =>
      refine ⟨fs₁.add c t .dir ht hnone,⟨fun l hl => ?_,fun l node hn => ?_⟩⟩
      · rw [add_lookup]
        split
        · rfl
        next hne => exact h₁.dirs l (List.mem_cons_of_mem _ ((List.mem_cons.mp hl).resolve_left hne))
      · rw [add_lookup] at hn
        split at hn
        next he =>
          subst he
          exact ⟨(Option.some.inj hn).symm,.inr ⟨_,List.mem_cons_self,List.suffix_rfl⟩⟩
        · exact (h₁.needed l node hn).imp_right (hup l)

theorem exists_scaffold (ls : List Loc) : ∃ fs, Scaffold fs ls := by
  induction ls with
  | nil => exact ⟨_,.bare⟩
  | cons l ls ih =>
    obtain ⟨fs,h⟩ := ih
    exact h.exists_cons l

/-- The places the initial parts of a path lead to. -/
def stops (p : Path) : List Loc := p.inits.map resolve

theorem mem_stops {p : Path} {l : Loc} : l ∈ stops p ↔ ∃ q, q <+: p ∧ resolve q = l := by
  simp [stops]

theorem Scaffold.isDirectory {fs : FileSystem} {ls : List Loc} (h : Scaffold fs ls) {p : Path}
    (hn : p.hasNul = false) (hp : ∀ l ∈ stops p, l ∈ ls) : fs.IsDirectory p (resolve p) :=
  .of_dirs hn fun q hq => h.dirs _ (hp _ (mem_stops.mpr ⟨q,hq,rfl⟩))

end PeerConnect.Library.FileSystem
