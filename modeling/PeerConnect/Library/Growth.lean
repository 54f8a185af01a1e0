import PeerConnect.Library.Changes

/-! File systems from which nothing is removed: what a path has led to stays there. -/
namespace PeerConnect.Library.FileSystem

/-- What was there is there, and directories are directories. -/
structure Retains (fs fs' : FileSystem) : Prop where
  dirs : ∀ l, fs.lookup l = some .dir → fs'.lookup l = some .dir
  there : ∀ l, fs.lookup l ≠ none → fs'.lookup l ≠ none

variable {fs fs' fs'' : FileSystem} {p : Path} {l : Loc} {node : Node}

theorem Retains.of_eq (h : ∀ l, fs'.lookup l = fs.lookup l) : Retains fs fs' :=
  ⟨fun l hl => by rw [h l, hl],fun l hl => by rwa [h l]⟩

theorem Retains.trans (h : Retains fs fs') (h' : Retains fs' fs'') : Retains fs fs'' :=
  ⟨fun l hl => h'.dirs l (h.dirs l hl),fun l hl => h'.there l (h.there l hl)⟩

theorem Put.keeps (h : Put fs fs' l node) (hl : fs.lookup l ≠ some .dir) : Retains fs fs' := by
  refine ⟨h.dirs hl,fun l' hl' => ?_⟩
  by_cases he : l' = l
  · rw [he, h.here]
    exact Option.some_ne_none _
  · rwa [h.elsewhere l' he]

/-- Writing changes no file but the one that is written. -/
theorem writeAt_elsewhere (fs : FileSystem) (l : Loc) (position : ℕ) (data : Bytes) {l' : Loc}
    (hl : l' ≠ l) : (fs.writeAt l position data).lookup l' = fs.lookup l' := by
  unfold writeAt
  split
  · rw [setContent_lookup, if_neg hl]
  · rfl

theorem writeAt_keeps (fs : FileSystem) (l : Loc) (position : ℕ) (data : Bytes) :
    Retains fs (fs.writeAt l position data) := by
  unfold writeAt
  split
  next old h =>
    have hput : Put fs (fs.setContent l old (overwrite old position data) h) l
        (.file (overwrite old position data)) := by
      refine ⟨?_,fun l' hl' => ?_⟩
      · rw [setContent_lookup, if_pos rfl]
      · rw [setContent_lookup, if_neg hl']
    exact hput.keeps (by rw [h]; simp)
  · exact .of_eq fun _ => rfl

theorem pathExists_iff : fs.pathExists p = true ↔ ∃ l, fs.locate p = .ok (l,true) := by
  unfold pathExists
  cases fs.locate p with
  | ok x =>
    obtain ⟨l,found⟩ := x
    simp
  | error e => simp

theorem locate_mono (hk : Retains fs fs') (h : fs.locate p = .ok (l,true)) :
    fs'.locate p = .ok (l,true) := by
  by_cases hl : fs.lookup l = some .dir
  · exact (IsDirectory.mono ⟨h,hl⟩ hk.dirs).locate
  · obtain ⟨q,c,d,rfl,hq,hc,hnul,rfl⟩ := locate_ends h hl
    have hthere : fs.lookup (c::d) ≠ none := by
      rw [locate_entry hq hc hnul] at h
      cases hl : fs.lookup (c::d) with
      | none => rw [hl] at h; cases h
      | some node => exact Option.some_ne_none _
    exact locate_taken (hq.mono hk.dirs) hc hnul (hk.there _ hthere)

/-- What a path leads to does not go away. -/
theorem Retains.pathExists (hk : Retains fs fs') (h : fs.pathExists p = true) :
    fs'.pathExists p = true := by
  obtain ⟨l,hl⟩ := pathExists_iff.mp h
  exact pathExists_iff.mpr ⟨l,locate_mono hk hl⟩

/-- The parent of what is there is a directory. -/
theorem isDirectory_of_pathExists {c : Name}
    (h : fs.pathExists (p ++ [c]) = true) : ∃ d, fs.IsDirectory p d ∧ Char.ofNat 0 ∉ c := by
  obtain ⟨l,hl⟩ := pathExists_iff.mp h
  have hn := locate_hasNul hl
  unfold FileSystem.locate at hl
  rw [if_neg (by simp [hn])] at hl
  simp only [List.dropLast_concat, List.getLast?_concat] at hl
  cases hw : fs.walk [] p with
  | error e => rw [hw] at hl; cases hl
  | ok d =>
    rw [hw] at hl
    dsimp only at hl
    split at hl
    next hd =>
      have hd := (isDir_iff fs d).mp hd
      exact ⟨d,⟨locate_of_walk (Path.hasNul_of_prefix (List.prefix_append _ _) hn) hw hd,hd⟩,
        Path.not_mem_of_hasNul hn (by simp)⟩
    · cases hl

/-- What is created was not there, and then it is. -/
theorem create_done (h : create p node fs = .done l fs') :
    fs.pathExists p = false ∧ fs.lookup l = none ∧ Put fs fs' l node ∧
      fs'.pathExists p = true := by
  unfold create at h
  split at h
  · cases h
  · cases h
  next l' hloc =>
    have hfree : fs.pathExists p = false := by rw [pathExists, hloc]
    obtain ⟨_,_,_,_,_,hnone⟩ := locate_false hloc
    obtain ⟨q,c,d,rfl,hq,hc,hnul,rfl⟩ := locate_ends hloc (by rw [hnone]; simp)
    obtain ⟨fs'',hcreate,hput,_⟩ := create_entry hq hc hnul node hnone
    have hdone : create (q ++ [c]) node fs = .done l fs' := by
      unfold create
      rw [hloc]
      exact h
    rw [hcreate] at hdone
    cases hdone
    refine ⟨hfree,hnone,hput,pathExists_iff.mpr ⟨c::d,?_⟩⟩
    have hdir : fs.lookup (c::d) ≠ some .dir := by rw [hnone]; simp
    exact locate_taken (hq.mono (hput.dirs hdir)) hc hnul (by rw [hput.here]; simp)

/-- Touching leaves everything as it is, or creates an empty file. -/
theorem touch_cases (p : Path) (fs : FileSystem) :
    (∀ l, (touch p fs).state.lookup l = fs.lookup l) ∨
      ∃ l, fs.lookup l = none ∧ Put fs (touch p fs).state l (.file []) := by
  unfold touch
  split
  · exact .inl fun _ => rfl
  · exact .inl fun _ => rfl
  · cases hr : create p (.file []) fs with
    | done l fs' =>
      obtain ⟨_,hnone,hput,_⟩ := create_done hr
      exact .inr ⟨l,hnone,hput⟩
    | raised e fs' =>
      rcases create_cases p (.file []) fs with ⟨l,fs'',h,_⟩ | ⟨e',h⟩
      · rw [h] at hr; cases hr
      · rw [h] at hr; cases hr; exact .inl fun _ => rfl
    | blocked fs' =>
      rcases create_cases p (.file []) fs with ⟨l,fs'',h,_⟩ | ⟨e',h⟩ <;> rw [h] at hr <;> cases hr

/-- What is not there is not opened. -/
theorem openExisting_missing (h : fs.pathExists p = false) :
    ∃ e, openExisting p fs = .raised e fs := by
  unfold openExisting
  unfold pathExists at h
  split
  next e hl => exact ⟨e,rfl⟩
  · exact ⟨.notFound,rfl⟩
  next l hl => rw [hl] at h; cases h

end PeerConnect.Library.FileSystem
