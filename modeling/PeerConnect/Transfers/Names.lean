import PeerConnect.Transfers.FileItem
import PeerConnect.Library.Growth

/-! The names found free in a directory. -/
namespace PeerConnect.Transfers
open Library FileSystem

theorem toDigits_injective : Function.Injective (Nat.toDigits 10) := by
  intro a b h
  rw [← Nat.ofDigitChars_toDigits (b := 10) (n := a) (by decide) (by decide), h,
    Nat.ofDigitChars_toDigits (by decide) (by decide)]

/-- What can stand in a component of a path. -/
def Clean (n : Name) : Prop := '/' ∉ n ∧ Char.ofNat 0 ∉ n

instance (n : Name) : Decidable (Clean n) := inferInstanceAs (Decidable (_ ∧ _))

/-- The first name is one of a path, the others can all be entries, and no two are the same. -/
structure Candidates (names : ℕ → Name) : Prop where
  injective : Function.Injective names
  clean : Clean (names 0)
  ne_dot : names 0 ≠ dot
  entry : ∀ k, Entry (names (k+1))

section Numbered
variable {first before opening after : Name}

theorem mem_numbered {k : ℕ} {x : Char} (h : x ∈ numbered first before opening after (k+1)) :
    x ∈ before ++ after ∨ x ∈ opening ∨ x = ')' ∨ x.isDigit = true := by
  simp only [numbered, List.mem_append, List.mem_singleton] at h ⊢
  rcases h with (((h | h) | h) | h) | h
  · exact .inl (.inl h)
  · exact .inr (.inl h)
  · exact .inr (.inr (.inr (Nat.isDigit_of_mem_toDigits (by decide) (by decide) h)))
  · exact .inr (.inr (.inl h))
  · exact .inl (.inr h)

variable (opening) in
theorem numbered_succ_length (hfirst : before ++ after = first) (k : ℕ) :
    first.length < (numbered first before opening after (k+1)).length := by
  have h := congrArg List.length hfirst
  simp only [numbered, List.length_append, List.length_cons, List.length_nil] at h ⊢
  omega

theorem numbered_injective (hfirst : before ++ after = first) :
    Function.Injective (numbered first before opening after) := by
  intro a b h
  cases a with
  | zero =>
    cases b with
    | zero => rfl
    | succ b =>
      have hl := numbered_succ_length opening hfirst b
      rw [← h] at hl
      exact absurd hl (lt_irrefl _)
  | succ a =>
    cases b with
    | zero =>
      have hl := numbered_succ_length opening hfirst a
      rw [h] at hl
      exact absurd hl (lt_irrefl _)
    | succ b =>
      simp only [numbered, List.append_assoc, List.append_cancel_left_eq] at h
      have hd : Nat.toDigits 10 (a+1) = Nat.toDigits 10 (b+1) := by
        have := List.append_inj_left' h (by simp)
        simpa using this
      exact toDigits_injective hd

/-- A name with a counter is one a directory entry can have. -/
theorem numbered_entry (hb : Clean (before ++ after)) (ho : Clean opening) (k : ℕ) :
    Entry (numbered first before opening after (k+1)) := by
  have hclose : ')' ∈ numbered first before opening after (k+1) := by simp [numbered]
  refine ⟨fun h => ?_,fun h => ?_,fun h => ?_,fun h => ?_,fun h => ?_⟩
  · rw [h] at hclose; cases hclose
  · rcases mem_numbered h with h | h | h
    · exact hb.1 h
    · exact ho.1 h
    · revert h; decide
  · rcases mem_numbered h with h | h | h
    · exact hb.2 h
    · exact ho.2 h
    · revert h; decide
  · rw [h] at hclose; revert hclose; decide
  · rw [h] at hclose; revert hclose; decide

theorem numbered_candidates (hfirst : before ++ after = first) (hc : Clean first)
    (hd : first ≠ dot) (ho : Clean opening) : Candidates (numbered first before opening after) :=
  ⟨numbered_injective hfirst,hc,hd,numbered_entry (hfirst ▸ hc) ho⟩

end Numbered

theorem candidate_candidates {original : Name} (hc : Clean original) (hd : original ≠ dot) :
    Candidates (candidate original) :=
  numbered_candidates (stem_append_suffix original) hc hd (by decide)

section Free
variable {fs : FileSystem} {root : Path} {l : Loc}

theorem pathExists_join (h : fs.IsDirectory root l) {n : Name} (hn : Entry n) :
    fs.pathExists (root.join n) = (fs.lookup (n::l)).isSome := by
  rw [hn.join_eq, pathExists_entry h hn.ne_dotdot hn.no_nul]

/-- A name that is not there can be an entry. -/
theorem entry_of_not_exists (h : fs.IsDirectory root l) {n : Name} (hc : Clean n) (hd : n ≠ dot)
    (hfree : fs.pathExists (root.join n) = false) : Entry n := by
  refine ⟨fun he => ?_,hc.1,hc.2,hd,fun he => ?_⟩
  · have : root.join [] = root := by simp [Path.join, isAbsolute, components]
    simp [he, this, pathExists, h.locate] at hfree
  · simp [he, dotdot_component.join_eq, pathExists, h.parent.locate] at hfree

variable {names : ℕ → Name}

/-- The search ends by itself, at a name the directory does not have. -/
theorem freeName_free (h : fs.IsDirectory root l) (hc : Candidates names) :
    Entry (freeName fs root names) ∧ fs.lookup (freeName fs root names::l) = none := by
  set taken : Name → Bool := fun n => fs.pathExists (root.join n) with htaken
  have hfree : taken (freeName fs root names) = false := by
    refine firstFree_free hc.injective
      (insert (names 0) (fs.nodes.keys.image fun l => l.head?.getD [])) (fun j hj => ?_) ?_ 0
    · change taken (names j) = true at hj
      cases j with
      | zero => exact Finset.mem_insert_self _ _
      | succ j =>
        rw [htaken] at hj
        dsimp only at hj
        rw [pathExists_join h (hc.entry j)] at hj
        refine Finset.mem_insert_of_mem (Finset.mem_image.mpr ⟨_::l,?_,rfl⟩)
        exact Finmap.mem_keys.mpr (Finmap.mem_iff.mpr (Option.isSome_iff_exists.mp hj))
    · have := Finset.card_insert_le (names 0) (fs.nodes.keys.image fun l => l.head?.getD [])
      have := Finset.card_image_le (s := fs.nodes.keys) (f := fun l => l.head?.getD [])
      unfold nameRounds
      omega
  have hname : Entry (freeName fs root names) := by
    unfold freeName at hfree ⊢
    cases hk : firstFree (fun n => fs.pathExists (root.join n)) names (nameRounds fs) 0 with
    | zero => rw [hk] at hfree; exact entry_of_not_exists h hc.clean hc.ne_dot hfree
    | succ k => exact hc.entry k
  refine ⟨hname,?_⟩
  rw [htaken] at hfree
  dsimp only at hfree
  rw [pathExists_join h hname] at hfree
  simpa using hfree

/-- A name behind taken ones that is itself free is the one found. -/
theorem freeName_eq (h : fs.IsDirectory root l) (hc : Candidates names) {k : ℕ}
    (hfree : fs.pathExists (root.join (names k)) = false)
    (htaken : ∀ j, j < k → fs.pathExists (root.join (names j)) = true) :
    freeName fs root names = names k := by
  obtain ⟨hentry,hnone⟩ := freeName_free h hc
  have hfound : fs.pathExists (root.join (freeName fs root names)) = false := by
    rw [pathExists_join h hentry, hnone]
    rfl
  unfold freeName at hfound ⊢
  set r := firstFree (fun n => fs.pathExists (root.join n)) names (nameRounds fs) 0 with hr
  rcases lt_trichotomy r k with hlt | heq | hgt
  · rw [htaken r hlt] at hfound
    cases hfound
  · rw [heq]
  · have := taken_of_lt_firstFree (fun n => fs.pathExists (root.join n)) names (nameRounds fs) 0 k
      (Nat.zero_le k) hgt
    rw [hfree] at this
    cases this

theorem Candidates.entry_of_ne (hc : Candidates names) (hnil : names 0 ≠ []) {k : ℕ}
    (hne : names k ≠ dotdot) : Entry (names k) := by
  cases k with
  | zero => exact ⟨hnil,hc.clean.1,hc.clean.2,hc.ne_dot,hne⟩
  | succ k => exact hc.entry k

/-- Where every earlier name is taken and a name is not, that name is found. -/
theorem freeName_of_taken (h : fs.IsDirectory root l) (hc : Candidates names) (hnil : names 0 ≠ [])
    {k : ℕ} (hne : names k ≠ dotdot) (hnone : fs.lookup (names k::l) = none)
    (htaken : ∀ j, j < k → names j ≠ dotdot → fs.lookup (names j::l) = some .dir) :
    freeName fs root names = names k := by
  refine freeName_eq h hc ?_ fun j hj => ?_
  · rw [pathExists_join h (hc.entry_of_ne hnil hne), hnone]
    rfl
  · by_cases hdd : names j = dotdot
    · rw [hdd, dotdot_component.join_eq, pathExists, h.parent.locate]
    · rw [pathExists_join h (hc.entry_of_ne hnil hdd), htaken j hj hdd]
      rfl

/-- What `validatename` ends with can be a new entry of the directory it looks in. -/
theorem validName_free (h : fs.IsDirectory root l) {original : Name} (hc : Clean original)
    (hd : original ≠ dot) :
    Entry (validName fs root original) ∧ fs.lookup (validName fs root original::l) = none :=
  freeName_free h (candidate_candidates hc hd)

/-- A name of one component, that does not lead upwards. -/
structure Plain (n : Name) : Prop where
  component : Component n
  ne_dotdot : n ≠ dotdot

/-- The search of `validatename` ends by itself, at the first name that the directory does not have. -/
theorem validName_first (fs : FileSystem) (root : Path) {original : Name} (h : Plain original) :
    Component (validName fs root original) ∧
      fs.pathExists (root.join (validName fs root original)) = false ∧
      ∃ k, validName fs root original = candidate original k ∧
        ∀ j < k, fs.pathExists (root.join (candidate original j)) = true := by
  refine and_assoc.mp ⟨?_,_,rfl,fun j hj => ?_⟩
  · cases hfirst : fs.pathExists (root.join original) with
    | false =>
      have hk : validName fs root original = original := by
        rw [validName, freeName, firstFree_of_free hfirst]
        rfl
      rw [hk]
      exact ⟨h.component,hfirst⟩
    | true =>
      rw [h.component.join_eq] at hfirst
      obtain ⟨l,hdir,hnul⟩ := isDirectory_of_pathExists hfirst
      obtain ⟨hentry,hnone⟩ := validName_free hdir ⟨h.component.no_slash,hnul⟩ h.component.ne_dot
      refine ⟨hentry.component,?_⟩
      rw [pathExists_join hdir hentry, hnone]
      rfl
  · exact taken_of_lt_firstFree (fun n => fs.pathExists (root.join n)) (candidate original)
      (nameRounds fs) 0 j (Nat.zero_le j) hj

end Free

end PeerConnect.Transfers
