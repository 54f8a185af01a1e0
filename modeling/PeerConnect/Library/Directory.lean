import PeerConnect.Library.FileSystem

/-! A directory reached by a path, and what is in it. -/
namespace PeerConnect.Library.FileSystem

/-- The path leads to a directory at the location. -/
structure IsDirectory (fs : FileSystem) (p : Path) (l : Loc) : Prop where
  locate : fs.locate p = .ok (l,true)
  dir : fs.lookup l = some .dir

theorem isDir_iff (fs : FileSystem) (l : Loc) : fs.isDir l = true ↔ fs.lookup l = some .dir := by
  simp [isDir]

theorem walk_append (fs : FileSystem) (l : Loc) (p q : Path) :
    fs.walk l (p ++ q) = (fs.walk l p).bind fun l' => fs.walk l' q := by
  induction p generalizing l with
  | nil => rfl
  | cons c cs ih =>
    simp only [List.cons_append, walk]
    split
    · split
      · exact ih _
      · split
        · exact ih _
        · rfl
    · rfl

theorem locate_hasNul {fs : FileSystem} {p : Path} {x : Loc × Bool} (h : fs.locate p = .ok x) :
    p.hasNul = false := by
  unfold FileSystem.locate at h
  split at h
  · cases h
  next hn => simpa using hn

/-- Walking a path to what is there is locating it. -/
theorem walk_of_locate {fs : FileSystem} {p : Path} {l : Loc} (h : fs.locate p = .ok (l,true)) :
    fs.walk [] p = .ok l := by
  have hn := locate_hasNul h
  unfold FileSystem.locate at h
  rw [if_neg (by simp [hn])] at h
  rcases List.eq_nil_or_concat p with rfl | ⟨q,c,rfl⟩
  · simp only [List.dropLast_nil, List.getLast?_nil, walk] at h
    cases h
    rfl
  · rw [List.concat_eq_append] at h ⊢
    simp only [List.dropLast_concat, List.getLast?_concat] at h
    rw [walk_append]
    cases hw : fs.walk [] q with
    | error e => rw [hw] at h; cases h
    | ok d =>
      rw [hw] at h
      dsimp only at h
      split at h
      next hd =>
        split at h
        next hc =>
          cases h
          simp [Except.bind, walk, hd, hc]
        next hc =>
          simp only [Except.ok.injEq, Prod.mk.injEq] at h
          obtain ⟨rfl,hs⟩ := h
          simp [Except.bind, walk, hd, hc, hs]
      · cases h

/-- An entry of a directory: it is there or it is not. -/
theorem locate_entry {fs : FileSystem} {p : Path} {l : Loc} (h : fs.IsDirectory p l) {c : Name}
    (hc : c ≠ dotdot) (hnul : Char.ofNat 0 ∉ c) :
    fs.locate (p ++ [c]) = .ok (c::l,(fs.lookup (c::l)).isSome) := by
  have hn : Path.hasNul (p ++ [c]) = false := by
    have := locate_hasNul h.locate
    simp_all [Path.hasNul]
  simp only [FileSystem.locate, hn, List.dropLast_concat, List.getLast?_concat,
    walk_of_locate h.locate, (isDir_iff fs l).mpr h.dir, if_neg hc]
  simp

theorem locate_taken {fs : FileSystem} {p : Path} {l : Loc} (h : fs.IsDirectory p l) {c : Name}
    (hc : c ≠ dotdot) (hnul : Char.ofNat 0 ∉ c) (htaken : fs.lookup (c::l) ≠ none) :
    fs.locate (p ++ [c]) = .ok (c::l,true) := by
  rw [locate_entry h hc hnul, Option.isSome_iff_ne_none.mpr htaken]

theorem pathExists_entry {fs : FileSystem} {p : Path} {l : Loc} (h : fs.IsDirectory p l) {c : Name}
    (hc : c ≠ dotdot) (hnul : Char.ofNat 0 ∉ c) :
    fs.pathExists (p ++ [c]) = (fs.lookup (c::l)).isSome := by
  rw [pathExists, locate_entry h hc hnul]

/-- Where directories stay, a walk to a directory stays. -/
theorem walk_mono {fs fs' : FileSystem}
    (hd : ∀ l, fs.lookup l = some .dir → fs'.lookup l = some .dir) {p : Path} {l l' : Loc}
    (h : fs.walk l p = .ok l') (hl' : fs.lookup l' = some .dir) :
    fs'.walk l p = .ok l' ∧ fs.lookup l = some .dir := by
  induction p generalizing l with
  | nil =>
    cases h
    exact ⟨rfl,hl'⟩
  | cons c cs ih =>
    simp only [walk] at h ⊢
    split at h
    next hl =>
      have hl₁ := (isDir_iff fs l).mp hl
      rw [if_pos ((isDir_iff fs' l).mpr (hd l hl₁))]
      split at h
      next hc =>
        rw [if_pos hc]
        exact ⟨(ih h).1,hl₁⟩
      next hc =>
        split at h
        next hs =>
          obtain ⟨hw,hcl⟩ := ih h
          rw [if_neg hc, if_pos (by rw [hd _ hcl]; rfl)]
          exact ⟨hw,hl₁⟩
        · cases h
    · cases h

/-- A path whose walk ends in a directory leads there. -/
theorem locate_of_walk {fs : FileSystem} {p : Path} {l : Loc} (hn : p.hasNul = false)
    (h : fs.walk [] p = .ok l) (hl : fs.lookup l = some .dir) : fs.locate p = .ok (l,true) := by
  unfold FileSystem.locate
  rw [if_neg (by simp [hn])]
  rcases List.eq_nil_or_concat p with rfl | ⟨q,c,rfl⟩
  · cases h
    rfl
  · rw [List.concat_eq_append] at h ⊢
    simp only [List.dropLast_concat, List.getLast?_concat]
    rw [walk_append] at h
    cases hw : fs.walk [] q with
    | error e => rw [hw] at h; cases h
    | ok d =>
      rw [hw] at h
      simp only [Except.bind, walk] at h
      split at h
      next hd =>
        simp only [hd, if_true]
        split at h
        next hc =>
          cases h
          rw [if_pos hc]
        next hc =>
          split at h
          next hs =>
            cases h
            rw [if_neg hc, hs]
          · cases h
      · cases h

theorem IsDirectory.mono {fs fs' : FileSystem} {p : Path} {l : Loc} (h : fs.IsDirectory p l)
    (hd : ∀ l, fs.lookup l = some .dir → fs'.lookup l = some .dir) : fs'.IsDirectory p l :=
  ⟨locate_of_walk (locate_hasNul h.locate) (walk_mono hd (walk_of_locate h.locate) h.dir).1
    (hd l h.dir),hd l h.dir⟩

/-- A file system that differs from another at one location only. -/
structure Put (fs fs' : FileSystem) (l : Loc) (node : Node) : Prop where
  here : fs'.lookup l = some node
  elsewhere : ∀ l', l' ≠ l → fs'.lookup l' = fs.lookup l'

theorem Put.dirs {fs fs' : FileSystem} {l : Loc} {node : Node} (h : Put fs fs' l node)
    (hl : fs.lookup l ≠ some .dir) (l' : Loc) (hd : fs.lookup l' = some .dir) :
    fs'.lookup l' = some .dir := by
  rw [h.elsewhere l' (by rintro rfl; exact hl hd), hd]

theorem create_entry {fs : FileSystem} {p : Path} {l : Loc} (h : fs.IsDirectory p l) {c : Name}
    (hc : c ≠ dotdot) (hnul : Char.ofNat 0 ∉ c) (node : Node) (hnone : fs.lookup (c::l) = none) :
    ∃ fs', create (p ++ [c]) node fs = .done (c::l) fs' ∧ Put fs fs' (c::l) node ∧
      fs'.changed = (c::l)::fs.changed := by
  refine ⟨fs.add c l node h.dir hnone,?_,⟨?_,fun l' hl' => ?_⟩,rfl⟩
  · simp only [create, locate_entry h hc hnul, hnone, Option.isSome_none]
    rw [dif_pos ⟨h.dir,trivial⟩]
  · rw [add_lookup, if_pos rfl]
  · rw [add_lookup, if_neg hl']

theorem create_existing {fs : FileSystem} {p : Path} {l : Loc} (h : fs.locate p = .ok (l,true))
    (node : Node) : create p node fs = .raised .exists fs := by
  simp [create, h]

theorem create_error {fs : FileSystem} {p : Path} {e : FsError} (h : fs.locate p = .error e)
    (node : Node) : create p node fs = .raised e fs := by
  simp [create, h]

/-- Touching an entry notes it if it is there and creates an empty file if it is not. -/
theorem touch_entry {fs : FileSystem} {p : Path} {l : Loc} (h : fs.IsDirectory p l) {c : Name}
    (hc : c ≠ dotdot) (hnul : Char.ofNat 0 ∉ c) :
    ∃ fs', touch (p ++ [c]) fs = .done () fs' ∧ fs'.changed = (c::l)::fs.changed ∧
      fs'.lookup (c::l) = some ((fs.lookup (c::l)).getD (.file [])) ∧
      ∀ l', l' ≠ c::l → fs'.lookup l' = fs.lookup l' := by
  cases hl : fs.lookup (c::l) with
  | none =>
    obtain ⟨fs',hcreate,hput,hch⟩ := create_entry h hc hnul (.file []) hl
    refine ⟨fs',?_,hch,hput.here,hput.elsewhere⟩
    simp [touch, locate_entry h hc hnul, hl, hcreate]
  | some node =>
    refine ⟨fs.note (c::l),?_,rfl,?_,fun l' _ => rfl⟩
    · simp [touch, locate_entry h hc hnul, hl]
    · rw [note_lookup, hl]
      rfl

/-- Making a directory whose parent is there needs nothing else. -/
theorem makeDirectories_entry {fs fs' : FileSystem} {p : Path} {c : Name} {l : Loc}
    (h : create (p ++ [c]) .dir fs = .done l fs') (existOk : Bool) :
    makeDirectories (p ++ [c]).reverse existOk fs = .done () fs' := by
  rw [← List.reverse_reverse (p ++ [c]), List.reverse_append, List.reverse_singleton,
    List.singleton_append] at h
  rw [List.reverse_append, List.reverse_singleton, List.singleton_append]
  simp only [makeDirectories, h]

theorem makeDirectories_existing {fs : FileSystem} {p : Path} {c : Name}
    (h : create (p ++ [c]) .dir fs = .raised .exists fs) :
    makeDirectories (p ++ [c]).reverse false fs = .raised .exists fs := by
  rw [← List.reverse_reverse (p ++ [c]), List.reverse_append, List.reverse_singleton,
    List.singleton_append] at h
  rw [List.reverse_append, List.reverse_singleton, List.singleton_append]
  simp only [makeDirectories, h, makeDirectories.settle]

theorem writeAt_put {fs : FileSystem} {l : Loc} {old : Bytes} (h : fs.lookup l = some (.file old))
    (position : ℕ) (data : Bytes) :
    Put fs (fs.writeAt l position data) l (.file (overwrite old position data)) ∧
      (fs.writeAt l position data).changed = fs.changed := by
  unfold writeAt
  split
  next old' h' =>
    have : old' = old := by
      rw [h] at h'
      injection h' with h'
      injection h' with h'
      exact h'.symm
    subst this
    refine ⟨⟨?_,fun l' hl' => ?_⟩,rfl⟩
    · rw [setContent_lookup, if_pos rfl]
    · rw [setContent_lookup, if_neg hl']
  next hne => exact absurd h (hne old)

theorem overwrite_end (old data : Bytes) : overwrite old old.length data = old ++ data := by
  simp [overwrite]

/-- Writing on at the end of what has been written is writing it all at once. -/
theorem writeAt_writeAt {fs : FileSystem} {l : Loc} {old : Bytes}
    (h : fs.lookup l = some (.file old)) (data more : Bytes) :
    (fs.writeAt l old.length data).writeAt l (old.length+data.length) more =
      fs.writeAt l old.length (data ++ more) := by
  obtain ⟨hput,hch⟩ := writeAt_put h old.length data
  obtain ⟨hput',hch'⟩ := writeAt_put hput.here (old.length+data.length) more
  obtain ⟨hput'',hch''⟩ := writeAt_put h old.length (data ++ more)
  rw [overwrite_end] at hput' hput''
  rw [← List.length_append, overwrite_end] at hput'
  refine ext (fun l' => ?_) (by rw [← List.length_append] at hch' ⊢; rw [hch', hch, hch''])
  by_cases hl : l' = l
  · subst hl
    rw [← List.length_append, hput'.here, hput''.here, List.append_assoc]
  · rw [← List.length_append, hput'.elsewhere l' hl, hput.elsewhere l' hl, hput''.elsewhere l' hl]

/-- Writing nothing changes nothing. -/
theorem writeAt_nil {fs : FileSystem} {l : Loc} {old : Bytes}
    (h : fs.lookup l = some (.file old)) : fs.writeAt l old.length [] = fs := by
  obtain ⟨hput,hch⟩ := writeAt_put h old.length []
  rw [overwrite_end, List.append_nil] at hput
  refine ext (fun l' => ?_) hch
  by_cases hl : l' = l
  · subst hl
    rw [hput.here, h]
  · exact hput.elsewhere l' hl

end PeerConnect.Library.FileSystem
