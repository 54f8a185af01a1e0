import PeerConnect.Library.Resolve

/-! Renaming in a file system: what is at one place goes to another, with all that is below it. -/
namespace PeerConnect.Library.FileSystem

/-- Where that comes from which is at a place after the move. -/
def origin (src dst l : Loc) : Option Loc :=
  if dst <:+ l then some (l.take (l.length-dst.length) ++ src)
  else if src <:+ l then none
  else some l

section Origin
variable {src dst l : Loc}

theorem origin_below (src dst r : Loc) : origin src dst (r ++ dst) = some (r ++ src) := by
  rw [origin, if_pos (List.suffix_append r dst), List.length_append, Nat.add_sub_cancel,
    List.take_left]

theorem origin_gone (hdst : ¬ dst <:+ l) (hsrc : src <:+ l) : origin src dst l = none := by
  rw [origin, if_neg hdst, if_pos hsrc]

theorem origin_elsewhere (hdst : ¬ dst <:+ l) (hsrc : ¬ src <:+ l) : origin src dst l = some l := by
  rw [origin, if_neg hdst, if_neg hsrc]

end Origin

/-- What is at `src` can go to `dst`: that is not inside of it, and has nothing below it. -/
structure Movable (fs : FileSystem) (src dst : Loc) : Prop where
  present : (fs.lookup src).isSome = true
  apart : ¬ src <:+ dst
  parent : fs.lookup dst.tail = some .dir
  nothing_below : ∀ l ∈ fs.nodes.keys, dst <:+ l → l = dst

instance (fs : FileSystem) (src dst : Loc) : Decidable (fs.Movable src dst) :=
  decidable_of_iff ((fs.lookup src).isSome = true ∧ ¬ src <:+ dst ∧ fs.lookup dst.tail = some .dir ∧
      ∀ l ∈ fs.nodes.keys, dst <:+ l → l = dst)
    ⟨fun h => ⟨h.1,h.2.1,h.2.2.1,h.2.2.2⟩,fun h => ⟨h.1,h.2,h.3,h.4⟩⟩

/-- What is at a place after the move. -/
def movedNode (fs : FileSystem) (src dst l : Loc) : Option Node := (origin src dst l).bind fs.lookup

def movedKeys (fs : FileSystem) (src dst : Loc) : Finset Loc :=
  (fs.nodes.keys ∪ fs.nodes.keys.image fun l => l.take (l.length-src.length) ++ dst).filter
    fun l => (fs.movedNode src dst l).isSome

section Move
variable {fs : FileSystem} {src dst : Loc}

theorem mem_keys_of_lookup {l : Loc} (h : (fs.lookup l).isSome = true) : l ∈ fs.nodes.keys :=
  Finmap.mem_keys.mpr (Finmap.lookup_isSome.mp h)

theorem mem_movedKeys (fs : FileSystem) (src dst l : Loc) :
    (fs.movedNode src dst l).isSome ↔ l ∈ fs.movedKeys src dst := by
  rw [movedKeys, Finset.mem_filter, Finset.mem_union]
  refine ⟨fun h => ⟨?_,h⟩,And.right⟩
  by_cases hdst : dst <:+ l
  · obtain ⟨r,rfl⟩ := hdst
    rw [movedNode, origin_below, Option.bind_some] at h
    right
    refine Finset.mem_image.mpr ⟨r ++ src,mem_keys_of_lookup h,?_⟩
    rw [List.length_append, Nat.add_sub_cancel, List.take_left]
  · by_cases hsrc : src <:+ l
    · rw [movedNode, origin_gone hdst hsrc] at h
      cases h
    · rw [movedNode, origin_elsewhere hdst hsrc, Option.bind_some] at h
      exact .inl (mem_keys_of_lookup h)

def movedNodes (fs : FileSystem) (src dst : Loc) : Finmap fun _ : Loc => Node :=
  Finmap.keysLookupEquiv.symm ⟨(fs.movedKeys src dst,fs.movedNode src dst),fs.mem_movedKeys src dst⟩

theorem lookup_movedNodes (fs : FileSystem) (src dst l : Loc) :
    (fs.movedNodes src dst).lookup l = fs.movedNode src dst l :=
  Finmap.keysLookupEquiv_symm_apply_lookup _ l

theorem Movable.src_ne_nil (h : fs.Movable src dst) : src ≠ [] := by
  rintro rfl
  exact h.apart List.nil_suffix

theorem Movable.dst_ne_nil (h : fs.Movable src dst) : dst ≠ [] := by
  rintro rfl
  exact h.src_ne_nil (h.nothing_below src (mem_keys_of_lookup h.present) List.nil_suffix)

theorem Movable.root_dir (h : fs.Movable src dst) : (fs.movedNodes src dst).lookup [] = some .dir := by
  rw [lookup_movedNodes, movedNode, origin_elsewhere, Option.bind_some]
  · exact fs.root_dir
  · exact fun hd => h.dst_ne_nil (List.suffix_nil.mp hd)
  · exact fun hs => h.src_ne_nil (List.suffix_nil.mp hs)

theorem Movable.parent_dir (h : fs.Movable src dst) {c : Name} {l : Loc}
    (hmem : (c::l) ∈ fs.movedNodes src dst) : (fs.movedNodes src dst).lookup l = some .dir := by
  have hsome := Finmap.lookup_isSome.mpr hmem
  rw [lookup_movedNodes] at hsome ⊢
  by_cases hl : dst <:+ l
  · obtain ⟨r,rfl⟩ := hl
    rw [← List.cons_append, movedNode, origin_below, Option.bind_some] at hsome
    obtain ⟨node,hnode⟩ := Option.isSome_iff_exists.mp hsome
    rw [movedNode, origin_below, Option.bind_some]
    exact fs.lookup_tail_dir hnode
  · by_cases hdst : dst <:+ c::l
    · -- the moved thing itself: its new directory stays where it is
      obtain rfl := (List.suffix_cons_iff.mp hdst).resolve_right hl
      have hsrc : ¬ src <:+ l := fun hs => h.apart (hs.trans (List.suffix_cons c l))
      rw [movedNode, origin_elsewhere hl hsrc, Option.bind_some]
      exact h.parent
    · by_cases hsrc : src <:+ c::l
      · rw [movedNode, origin_gone hdst hsrc] at hsome
        cases hsome
      · have hl' : ¬ src <:+ l := fun hs => hsrc (hs.trans (List.suffix_cons c l))
        rw [movedNode, origin_elsewhere hdst hsrc, Option.bind_some] at hsome
        obtain ⟨node,hnode⟩ := Option.isSome_iff_exists.mp hsome
        rw [movedNode, origin_elsewhere hl hl', Option.bind_some]
        exact fs.lookup_tail_dir hnode

end Move

def move (fs : FileSystem) (src dst : Loc) (h : fs.Movable src dst) : FileSystem where
  nodes := fs.movedNodes src dst
  changed := dst::fs.changed
  root_dir := h.root_dir
  parent_dir := fun _ _ => h.parent_dir

theorem move_lookup (fs : FileSystem) (src dst : Loc) (h : fs.Movable src dst) (l : Loc) :
    (fs.move src dst h).lookup l = fs.movedNode src dst l := fs.lookup_movedNodes src dst l

/-- An error that can be told from others, or one of `rename` alone. -/
inductive RenameError
  | fs (e : FsError)
  | refused

/-- The root, or `..` at the end. -/
def Special (p : Path) : Prop := p = [] ∨ p.getLast? = some dotdot

instance (p : Path) : Decidable (Special p) := inferInstanceAs (Decidable (_ ∨ _))

/-- A file takes the place of another, and a directory that of one with nothing in it. -/
def renameAt (src dst : Loc) : Coro RenameError FileSystem Unit := fun fs =>
  if src = dst then .done () fs
  else if src <:+ dst ∨ dst <:+ src then .raised .refused fs
  else match fs.lookup src,fs.lookup dst with
  | some .dir,some (.file _) => .raised (.fs .notADirectory) fs
  | some (.file _),some .dir => .raised (.fs .isADirectory) fs
  | _,_ => if h : fs.Movable src dst then .done () (fs.move src dst h) else .raised .refused fs

def rename (p p' : Path) : Coro RenameError FileSystem Unit := fun fs =>
  if p.hasNul ∨ p'.hasNul then .raised (.fs .embeddedNul) fs
  else match fs.locate p with
  | .error e => .raised (.fs e) fs
  | .ok (src,found) =>
    match fs.locate p' with
    | .error e => .raised (.fs e) fs
    | .ok (dst,_) =>
      if Special p ∨ Special p' then .raised .refused fs
      else if found then renameAt src dst fs
      else .raised (.fs .notFound) fs

/-- What is missing cannot be renamed. -/
theorem rename_missing {fs : FileSystem} {p : Path} {l : Loc} (h : fs.locate p = .ok (l,false))
    (p' : Path) : ∃ e, rename p p' fs = .raised e fs := by
  simp only [rename, h]
  split
  · exact ⟨_,rfl⟩
  · split
    · exact ⟨_,rfl⟩
    · split
      · exact ⟨_,rfl⟩
      · exact ⟨_,if_neg Bool.false_ne_true⟩

/-- A node is at another place, and all others are where they have been. -/
structure Moved (fs fs' : FileSystem) (src dst : Loc) (node : Node) : Prop where
  there : fs'.lookup dst = some node
  gone : fs'.lookup src = none
  elsewhere : ∀ l, l ≠ src → l ≠ dst → fs'.lookup l = fs.lookup l

section File
variable {fs : FileSystem} {src dst l l' : Loc} {bs : Bytes}

theorem ne_dir_of_file (h : fs.lookup l = some (.file bs)) : fs.lookup l ≠ some .dir := by
  rw [h]
  nofun

theorem ne_dir_of_none (h : fs.lookup l = none) : fs.lookup l ≠ some .dir := by
  rw [h]
  nofun

/-- There is nothing below what is no directory. -/
theorem lookup_below (hs : l <:+ l') (hne : l ≠ l') (hl : fs.lookup l ≠ some .dir) :
    fs.lookup l' = none := by
  cases h : fs.lookup l' with
  | none => rfl
  | some node => exact absurd (fs.lookup_suffix_dir hs hne h) hl

theorem movable_file (hsrc : fs.lookup src = some (.file bs)) (hparent : fs.lookup dst.tail = some .dir)
    (hdst : fs.lookup dst = none) : fs.Movable src dst := by
  have hfile := ne_dir_of_file hsrc
  refine ⟨by rw [hsrc]; rfl,fun hs => ?_,hparent,fun l hl hs => ?_⟩
  · cases dst with
    | nil =>
      have := hdst.symm.trans fs.root_dir
      cases this
    | cons c d =>
      rcases List.suffix_cons_iff.mp hs with rfl | hd
      · rw [hsrc] at hdst
        cases hdst
      · by_cases hne : src = d
        · exact hfile (hne ▸ hparent)
        · have := (lookup_below hd hne hfile).symm.trans hparent
          cases this
  · by_contra hne
    have hnone := lookup_below hs (Ne.symm hne) (ne_dir_of_none hdst)
    have := Finmap.lookup_isSome.mpr (Finmap.mem_keys.mp hl)
    rw [show fs.nodes.lookup l = none from hnone] at this
    cases this

theorem moved_file (hsrc : fs.lookup src = some (.file bs)) (hdst : fs.lookup dst = none)
    (h : fs.Movable src dst) : Moved fs (fs.move src dst h) src dst (.file bs) := by
  have hfile := ne_dir_of_file hsrc
  refine ⟨?_,?_,fun l hl hl' => ?_⟩
  · have hself := origin_below src dst []
    rw [List.nil_append, List.nil_append] at hself
    rw [move_lookup, movedNode, hself, Option.bind_some, hsrc]
  · have hback : ¬ dst <:+ src := fun hs => by
      have := h.nothing_below src (mem_keys_of_lookup h.present) hs
      exact h.apart (this ▸ List.suffix_rfl)
    rw [move_lookup, movedNode, origin_gone hback List.suffix_rfl]
    rfl
  · rw [move_lookup, movedNode]
    by_cases hd : dst <:+ l
    · rw [lookup_below hd (Ne.symm hl') (ne_dir_of_none hdst)]
      obtain ⟨r,rfl⟩ := hd
      rw [origin_below, Option.bind_some]
      have hr : src ≠ r ++ src := fun he => hl' (by rw [List.self_eq_append_left.mp he, List.nil_append])
      exact lookup_below (List.suffix_append r src) hr hfile
    · by_cases hs : src <:+ l
      · rw [origin_gone hd hs, lookup_below hs (Ne.symm hl) hfile]
        rfl
      · rw [origin_elsewhere hd hs]
        rfl

theorem not_special {p : Path} {found : Bool} (h : fs.locate p = .ok (l,found))
    (hl : fs.lookup l ≠ some .dir) : ¬ Special p := by
  obtain ⟨q,c,d,rfl,_,hc,_⟩ := locate_ends h hl
  rintro (hnil | hlast)
  · exact List.append_ne_nil_of_right_ne_nil q (List.cons_ne_nil c []) hnil
  · rw [List.getLast?_concat] at hlast
    exact hc (Option.some.inj hlast)

/-- A file goes to a free place. -/
theorem rename_file {p p' : Path} (h : fs.locate p = .ok (src,true))
    (hsrc : fs.lookup src = some (.file bs)) (h' : fs.locate p' = .ok (dst,false)) :
    ∃ fs', rename p p' fs = .done () fs' ∧ Moved fs fs' src dst (.file bs) := by
  obtain ⟨_,_,_,_,_,hdst⟩ := locate_false h'
  have hfile := ne_dir_of_file hsrc
  have hfree := ne_dir_of_none hdst
  obtain ⟨q,c,d,rfl,hq,_,_,rfl⟩ := locate_ends h' hfree
  have hmovable : fs.Movable src (c::d) := movable_file hsrc hq.dir hdst
  refine ⟨fs.move src (c::d) hmovable,?_,moved_file hsrc hdst hmovable⟩
  have hne : src ≠ c::d := fun he => hmovable.apart (he ▸ List.suffix_rfl)
  have hapart : ¬ (src <:+ c::d ∨ c::d <:+ src) := by
    rintro (hs | hs)
    · exact hmovable.apart hs
    · exact hne (hmovable.nothing_below src (mem_keys_of_lookup hmovable.present) hs)
  have hrun : renameAt src (c::d) fs = .done () (fs.move src (c::d) hmovable) := by
    simp only [renameAt, if_neg hne, if_neg hapart, hsrc, hdst, dif_pos hmovable]
  have hspecial : ¬ (Special p ∨ Special (q ++ [c])) :=
    not_or.mpr ⟨not_special h hfile,not_special h' hfree⟩
  have hnul : ¬ (p.hasNul = true ∨ Path.hasNul (q ++ [c]) = true) := by
    rw [locate_hasNul h, locate_hasNul h']
    simp
  simp only [rename, if_neg hnul, h, h', if_neg hspecial, hrun, if_true]

/-- The place that a file has left is free. -/
theorem Moved.locate_src {fs' : FileSystem} {p : Path} (h : Moved fs fs' src dst (.file bs))
    (hsrc : fs.lookup src = some (.file bs)) (hdst : fs.lookup dst = none)
    (hp : fs.locate p = .ok (src,true)) : fs'.locate p = .ok (src,false) := by
  have hfile := ne_dir_of_file hsrc
  obtain ⟨q,c,d,rfl,hq,hc,hnul,rfl⟩ := locate_ends hp hfile
  have hdirs : ∀ l, fs.lookup l = some .dir → fs'.lookup l = some .dir := by
    intro l hl
    rw [h.elsewhere l, hl]
    · rintro rfl
      exact hfile hl
    · rintro rfl
      rw [hdst] at hl
      cases hl
  rw [locate_entry (hq.mono hdirs) hc hnul, h.gone]
  rfl

end File

end PeerConnect.Library.FileSystem
