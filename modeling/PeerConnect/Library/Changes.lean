import PeerConnect.Library.Resolve

/-! What an operation creates, opens or touches, and that `makeDirectories` creates no more than what
is missing on the way. -/
namespace PeerConnect.Library.FileSystem

/-- Every place changed in between has the property. -/
def Adds (P : Loc → Prop) (fs fs' : FileSystem) : Prop :=
  ∃ news, fs'.changed = news ++ fs.changed ∧ ∀ l ∈ news, P l

/-- The place is one of those changed in between. -/
def Reaches (l : Loc) (fs fs' : FileSystem) : Prop :=
  ∃ news, fs'.changed = news ++ fs.changed ∧ l ∈ news

variable {P Q : Loc → Prop} {fs fs' fs'' : FileSystem} {l : Loc}

theorem Adds.of_eq (h : fs'.changed = fs.changed) : Adds P fs fs' := ⟨[],by simpa using h,by simp⟩

theorem Adds.refl (fs : FileSystem) : Adds P fs fs := .of_eq rfl

theorem Adds.one (h : fs'.changed = l::fs.changed) (hl : P l) : Adds P fs fs' :=
  ⟨[l],h,by simpa using hl⟩

theorem Adds.trans (h : Adds P fs fs') (h' : Adds P fs' fs'') : Adds P fs fs'' := by
  obtain ⟨news,hn,hP⟩ := h
  obtain ⟨news',hn',hP'⟩ := h'
  refine ⟨news' ++ news,by rw [hn', hn, List.append_assoc],fun l hl => ?_⟩
  exact (List.mem_append.mp hl).elim (hP' l) (hP l)

theorem Adds.mono (h : Adds P fs fs') (hPQ : ∀ l, P l → Q l) : Adds Q fs fs' :=
  h.imp fun _ hn => ⟨hn.1,fun l hl => hPQ l (hn.2 l hl)⟩

instance : Std.Refl (Adds P) := ⟨Adds.refl⟩
instance : IsTrans FileSystem (Adds P) := ⟨fun _ _ _ => Adds.trans⟩

theorem Reaches.one (h : fs'.changed = l::fs.changed) : Reaches l fs fs' := ⟨[l],h,by simp⟩

theorem Reaches.before (h : Reaches l fs fs') (h' : Adds P fs' fs'') : Reaches l fs fs'' := by
  obtain ⟨news,hn,hl⟩ := h
  obtain ⟨news',hn',_⟩ := h'
  exact ⟨news' ++ news,by rw [hn', hn, List.append_assoc],List.mem_append_right _ hl⟩

theorem Adds.property (h : Adds P fs fs') (hl : Reaches l fs fs') : P l := by
  obtain ⟨news,hn,hP⟩ := h
  obtain ⟨news',hn',hl⟩ := hl
  obtain rfl := List.append_cancel_right (hn.symm.trans hn')
  exact hP l hl

/-- The path leads to the place, and the operating system takes it. -/
def LeadsTo (p : Path) (l : Loc) : Prop := p.hasNul = false ∧ l = resolve p

/-- The path has an initial part that leads to an entry at the place. -/
def PassesThrough (p : Path) (l : Loc) : Prop :=
  ∃ q c, q ++ [c] <+: p ∧ c ≠ dotdot ∧ l = c::resolve q

theorem PassesThrough.mono {p q : Path} (hq : q <+: p) (h : PassesThrough q l) :
    PassesThrough p l :=
  h.imp fun _ ⟨c,hc,h'⟩ => ⟨c,hc.trans hq,h'⟩

theorem PassesThrough.resolve {p : Path} (h : PassesThrough p l) :
    ∃ q, q <+: p ∧ l = resolve q := by
  obtain ⟨q,c,hq,hc,rfl⟩ := h
  exact ⟨q ++ [c],hq,by rw [resolve_concat, descend_of_ne _ hc]⟩

/-- Creating puts one node where there was none, or fails without a change. -/
theorem create_cases (p : Path) (node : Node) (fs : FileSystem) :
    (∃ l fs', create p node fs = .done l fs' ∧ LeadsTo p l ∧ PassesThrough p l ∧
      fs.lookup l = none ∧ Put fs fs' l node ∧ fs'.changed = l::fs.changed) ∨
    ∃ e, create p node fs = .raised e fs := by
  unfold create
  split
  · exact .inr ⟨_,rfl⟩
  · exact .inr ⟨_,rfl⟩
  next l hloc =>
    split
    · exact .inr ⟨_,rfl⟩
    next c d =>
      split
      next h =>
        obtain ⟨q,c',rfl,hc,hl,hnone⟩ := locate_false hloc
        refine .inl ⟨c::d,_,rfl,⟨locate_hasNul hloc,?_⟩,⟨q,c',List.prefix_rfl,hc,hl⟩,hnone,
          ⟨?_,fun l' hl' => ?_⟩,rfl⟩
        · rw [hl, resolve_concat, descend_of_ne _ hc]
        · rw [add_lookup, if_pos rfl]
        · rw [add_lookup, if_neg hl']
      · exact .inr ⟨_,rfl⟩

theorem create_adds (p : Path) (node : Node) : Coro.Moves (Adds (LeadsTo p)) (create p node) := by
  intro fs
  rcases create_cases p node fs with ⟨l,fs',hr,hl,_,_,_,hch⟩ | ⟨e,hr⟩
  · rw [hr]
    exact .one hch hl
  · rw [hr]
    exact .refl fs

theorem openExisting_adds (p : Path) : Coro.Moves (Adds (LeadsTo p)) (openExisting p) := by
  intro fs
  unfold openExisting
  split
  · exact .refl fs
  · exact .refl fs
  next l hloc =>
    split
    · exact .one rfl ⟨locate_hasNul hloc,locate_true hloc⟩
    · exact .refl fs

theorem touch_adds (p : Path) : Coro.Moves (Adds (LeadsTo p)) (touch p) := by
  intro fs
  unfold touch
  split
  · exact .refl fs
  next l hloc => exact .one rfl ⟨locate_hasNul hloc,locate_true hloc⟩
  · have h := create_adds p (.file []) fs
    cases hr : create p (.file []) fs <;> rw [hr] at h <;> exact h

theorem writeAt_changed (fs : FileSystem) (l : Loc) (position : ℕ) (data : Bytes) :
    (fs.writeAt l position data).changed = fs.changed := by
  unfold writeAt
  split <;> rfl

/-- What was there stays, and only what was missing has been made. -/
structure Grows (P : Loc → Prop) (fs fs' : FileSystem) : Prop where
  keeps : ∀ l node, fs.lookup l = some node → fs'.lookup l = some node
  adds : Adds (fun l => fs.lookup l = none ∧ P l) fs fs'

theorem Grows.refl (fs : FileSystem) : Grows P fs fs := ⟨fun _ _ h => h,.refl fs⟩

theorem Grows.trans (h : Grows P fs fs') (h' : Grows P fs' fs'') : Grows P fs fs'' where
  keeps l node hl := h'.keeps l node (h.keeps l node hl)
  adds := by
    refine h.adds.trans (h'.adds.mono fun l ⟨hl,hP⟩ => ⟨?_,hP⟩)
    cases hfs : fs.lookup l with
    | none => rfl
    | some node =>
      rw [h.keeps l node hfs] at hl
      cases hl

theorem Grows.mono (h : Grows P fs fs') (hPQ : ∀ l, P l → Q l) : Grows Q fs fs' :=
  ⟨h.keeps,h.adds.mono fun l hl => ⟨hl.1,hPQ l hl.2⟩⟩

theorem create_grows (p : Path) (node : Node) :
    Coro.Moves (Grows (PassesThrough p)) (create p node) := by
  intro fs
  rcases create_cases p node fs with ⟨l,fs',hr,_,hl,hnone,hput,hch⟩ | ⟨e,hr⟩
  · rw [hr]
    refine ⟨fun l' node' hl' => ?_,.one hch ⟨hnone,hl⟩⟩
    rw [Run.state_done, hput.elsewhere l' (by rintro rfl; rw [hnone] at hl'; cases hl'), hl']
  · rw [hr]
    exact .refl fs

theorem settle_state (p : Path) (existOk : Bool) (e : FsError) (fs : FileSystem) :
    (makeDirectories.settle p existOk e fs).state = fs := by
  unfold makeDirectories.settle
  split
  · split <;> rfl
  · rfl

theorem again_grows (p : Path) (existOk : Bool) :
    Coro.Moves (Grows (PassesThrough p)) (makeDirectories.again p existOk) := by
  intro fs
  have h := create_grows p .dir fs
  unfold makeDirectories.again
  cases hr : create p .dir fs with
  | done l fs' => rwa [hr] at h
  | raised e fs' =>
    rw [hr] at h
    cases e <;> first | exact h | (rw [settle_state]; exact h)
  | blocked fs' => rwa [hr] at h

section Attempt
variable {c : Name} {up : Path} {existOk : Bool}

theorem makeDirectories_done (h : create (c::up).reverse .dir fs = .done l fs') :
    makeDirectories (c::up) existOk fs = .done () fs' := by
  simp only [makeDirectories, h]

theorem makeDirectories_notFound (h : create (c::up).reverse .dir fs = .raised .notFound fs') :
    makeDirectories (c::up) existOk fs =
      (makeDirectories up true fs').bind fun _ fs'' =>
        makeDirectories.again (c::up).reverse existOk fs'' := by
  simp only [makeDirectories, h]

theorem makeDirectories_raised {e : FsError} (h : create (c::up).reverse .dir fs = .raised e fs')
    (he : e ≠ .notFound) :
    makeDirectories (c::up) existOk fs =
      makeDirectories.settle (c::up).reverse existOk e fs' := by
  cases e <;> first | exact absurd rfl he | simp only [makeDirectories, h]

end Attempt

/-- The recursion is upwards: the directories above are made before the second attempt. -/
theorem makeDirectories_grows (up : Path) (existOk : Bool) :
    Coro.Moves (Grows (PassesThrough up.reverse)) (makeDirectories up existOk) := by
  induction up generalizing existOk with
  | nil =>
    intro fs
    rw [makeDirectories]
    split <;> exact .refl fs
  | cons c up ih =>
    intro fs
    have hup : ∀ l, PassesThrough up.reverse l → PassesThrough (c::up).reverse l := fun l hl =>
      hl.mono (by rw [List.reverse_cons]; exact List.prefix_append _ _)
    rcases create_cases (c::up).reverse .dir fs with ⟨l,fs',hr,_⟩ | ⟨e,hr⟩
    · have h := create_grows (c::up).reverse .dir fs
      rw [makeDirectories_done hr]
      rwa [hr] at h
    · by_cases he : e = .notFound
      · subst he
        rw [makeDirectories_notFound hr]
        have hi := (ih true fs).mono hup
        cases hm : makeDirectories up true fs with
        | done _ fs' =>
          rw [hm] at hi
          exact hi.trans (again_grows _ existOk fs')
        | raised e fs' => rwa [hm] at hi
        | blocked fs' => rwa [hm] at hi
      · rw [makeDirectories_raised hr he, settle_state]
        exact .refl fs

theorem create_nul {p : Path} (hn : p.hasNul = true) (node : Node) (fs : FileSystem) :
    create p node fs = .raised .embeddedNul fs :=
  create_error (by simp [FileSystem.locate, hn]) node

/-- The operating system refuses the path as a whole, before anything above it is made. -/
theorem makeDirectories_nul {up : Path} (hn : Path.hasNul up.reverse = true) (existOk : Bool)
    (fs : FileSystem) : (makeDirectories up existOk fs).state = fs := by
  cases up with
  | nil => cases hn
  | cons c up =>
    rw [makeDirectories_raised (create_nul hn .dir fs) (by decide), settle_state]

/-- A path through a missing entry leads nowhere. -/
theorem locate_missing {q : Path} {c : Name} (rest : Path) (x : Name)
    (hd : fs.IsDirectory q (resolve q)) (hc : c ≠ dotdot) (hnone : fs.lookup (c::resolve q) = none)
    (hn : Path.hasNul (q ++ c::rest ++ [x]) = false) :
    fs.locate (q ++ c::rest ++ [x]) = .error .notFound := by
  have hwalk : fs.walk [] (q ++ c::rest) = .error .notFound := by
    rw [walk_append, walk_of_locate hd.locate]
    simp [Except.bind, walk, (isDir_iff fs _).mpr hd.dir, hc, hnone]
  simp only [FileSystem.locate, hn, List.dropLast_concat, hwalk]
  rfl

/-- The first missing directory on the way is made. -/
theorem makeDirectories_reaches {q : Path} {c : Name} (rest : Path)
    (hd : fs.IsDirectory q (resolve q)) (hc : c ≠ dotdot) (hnone : fs.lookup (c::resolve q) = none)
    (hn : Path.hasNul (q ++ c::rest) = false) (existOk : Bool) :
    Reaches (c::resolve q) fs (makeDirectories (q ++ c::rest).reverse existOk fs).state := by
  induction rest using List.reverseRecOn generalizing existOk with
  | nil =>
    have hnul : Char.ofNat 0 ∉ c := Path.not_mem_of_hasNul hn (by simp)
    obtain ⟨fs',hr,_,hch⟩ := create_entry hd hc hnul .dir hnone
    have hrev : (q ++ [c]).reverse = c::q.reverse := by simp
    rw [hrev, makeDirectories_done (by rw [← hrev, List.reverse_reverse]; exact hr)]
    exact .one hch
  | append_singleton rest x ih =>
    have hsplit : q ++ c::(rest ++ [x]) = (q ++ c::rest) ++ [x] := by simp
    rw [hsplit] at hn ⊢
    have hn' := Path.hasNul_of_prefix (List.prefix_append _ _) hn
    have hcreate : create ((q ++ c::rest) ++ [x]) .dir fs = .raised .notFound fs :=
      create_error (locate_missing rest x hd hc hnone hn) .dir
    have hrev : ((q ++ c::rest) ++ [x]).reverse = x::(q ++ c::rest).reverse := by simp
    have hi := ih hn' true
    rw [hrev, makeDirectories_notFound (by rw [← hrev, List.reverse_reverse]; exact hcreate)]
    cases hm : makeDirectories (q ++ c::rest).reverse true fs with
    | done _ fs' =>
      rw [hm] at hi
      exact hi.before (again_grows _ existOk fs').adds
    | raised e fs' => rwa [hm] at hi
    | blocked fs' => rwa [hm] at hi

end PeerConnect.Library.FileSystem
