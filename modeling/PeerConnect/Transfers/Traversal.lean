import PeerConnect.Transfers.Confinement
import Mathlib.Data.Set.Finite.Basic

/-! Path traversal: for every message that does not stay inside there is a disk on which it leaves the
download directory. -/
namespace PeerConnect.Transfers
open Library Wire FileSystem Coro

namespace DownloadRoot

variable {root : DownloadRoot}

/-- Going up from a place inside ends inside or on the way. -/
theorem tail_comes {l : Loc} (h : root.Contains l ∨ root.OnTheWay l) :
    root.Contains l.tail ∨ root.OnTheWay l.tail := by
  rcases h with h | ⟨q,hq,hl⟩
  · cases l with
    | nil => exact .inl h
    | cons c t =>
      rcases inside_cons_iff.mp h with he | h
      · exact .inr ⟨root.path,List.prefix_rfl,by rw [he]; exact List.suffix_cons c t⟩
      · exact .inl h
  · exact .inr ⟨q,hq,(List.tail_suffix l).trans hl⟩

/-- The first component that leads astray, behind a path that does not. -/
theorem exists_first {p : Path}
    (h : ¬ ∀ q, q <+: p → root.Contains (resolve q) ∨ root.OnTheWay (resolve q)) :
    ∃ q c rest, p = q ++ c::rest ∧
      (∀ q', q' <+: q → root.Contains (resolve q') ∨ root.OnTheWay (resolve q')) ∧
      c ≠ dotdot ∧ ¬ (root.Contains (c::resolve q) ∨ root.OnTheWay (c::resolve q)) := by
  induction p using List.reverseRecOn with
  | nil =>
    refine absurd (fun q hq => .inr ⟨[],List.nil_prefix,?_⟩) h
    rw [List.prefix_nil.mp hq]
  | append_singleton p c ih =>
    by_cases hp : ∀ q, q <+: p → root.Contains (resolve q) ∨ root.OnTheWay (resolve q)
    · have hlast : ¬ (root.Contains (resolve (p ++ [c])) ∨ root.OnTheWay (resolve (p ++ [c]))) :=
        fun hc => h fun q hq => by
          rcases List.prefix_concat_iff.mp hq with rfl | hq
          · exact hc
          · exact hp q hq
      have hne : c ≠ dotdot := by
        rintro rfl
        rw [resolve_concat, descend_dotdot] at hlast
        exact hlast (tail_comes (hp p List.prefix_rfl))
      rw [resolve_concat, descend_of_ne _ hne] at hlast
      exact ⟨p,c,[],rfl,hp,hne,hlast⟩
    · obtain ⟨q,c',rest,rfl,hrest⟩ := ih hp
      exact ⟨q,c',rest ++ [c],by simp,hrest⟩

/-- A disk on which everything up to there exists, and it does not. -/
theorem exists_unmade {q : Path} {c : Name} (hn : q.hasNul = false)
    (hq : ∀ q', q' <+: q → root.Contains (resolve q') ∨ root.OnTheWay (resolve q'))
    (hc : ¬ (root.Contains (c::resolve q) ∨ root.OnTheWay (c::resolve q))) :
    ∃ fs : FileSystem, fs.IsDirectory root.path (resolve root.path) ∧
      fs.IsDirectory q (resolve q) ∧ fs.lookup (c::resolve q) = none := by
  obtain ⟨fs,h⟩ := exists_scaffold (stops root.path ++ stops q)
  refine ⟨fs,h.isDirectory root.noNul fun l => List.mem_append_left _,
    h.isDirectory hn fun l => List.mem_append_right _,?_⟩
  cases hl : fs.lookup (c::resolve q) with
  | none => rfl
  | some node =>
    exfalso
    obtain ⟨l',hl',hs⟩ := (h.needed _ _ hl).2.resolve_left (by simp)
    rcases List.mem_append.mp hl' with hl' | hl'
    · obtain ⟨q',hq',rfl⟩ := mem_stops.mp hl'
      exact hc (.inr ⟨q',hq',hs⟩)
    · obtain ⟨q',hq',rfl⟩ := mem_stops.mp hl'
      rcases hq q' hq' with hin | ⟨r,hr,hway⟩
      · rcases List.suffix_or_suffix_of_suffix hin hs with h' | h'
        · exact hc (.inl h')
        · exact hc (.inr ⟨root.path,List.prefix_rfl,h'⟩)
      · exact hc (.inr ⟨r,hr,hs.trans hway⟩)

/-- A disk on which the names up to some number are taken in the root and that one is taken nowhere. -/
theorem exists_taken {names : ℕ → Name} (hc : Candidates names) (ls : List Loc) :
    ∃ (fs : FileSystem) (k : ℕ), (∀ l ∈ resolve root.path::ls, fs.lookup l = some .dir) ∧
      names k ≠ dotdot ∧ (∀ d, fs.lookup (names k::d) = none) ∧
      ∀ j, j < k → names j ≠ dotdot → fs.lookup (names j::resolve root.path) = some .dir := by
  obtain ⟨fs₀,h₀⟩ := exists_scaffold (resolve root.path::ls)
  obtain ⟨_,⟨k,rfl⟩,hk⟩ := (Set.infinite_range_of_injective hc.injective).exists_notMem_finset
    (insert dotdot (fs₀.nodes.keys.image fun l => l.head?.getD []))
  have hnot : ∀ d, fs₀.lookup (names k::d) = none := by
    intro d
    cases hd : fs₀.lookup (names k::d) with
    | none => rfl
    | some node =>
      refine absurd (Finset.mem_insert_of_mem (Finset.mem_image.mpr ⟨names k::d,?_,rfl⟩)) hk
      exact Finmap.mem_keys.mpr (Finmap.mem_of_lookup_eq_some hd)
  have hne : names k ≠ dotdot := fun he => hk (by rw [he]; exact Finset.mem_insert_self _ _)
  set taken := ((List.range k).map names).filter (· ≠ dotdot) with htaken
  obtain ⟨fs,h⟩ := exists_scaffold ((resolve root.path::ls) ++ taken.map (·::resolve root.path))
  refine ⟨fs,k,fun l hl => h.dirs l (List.mem_append_left _ hl),hne,fun d => ?_,fun j hj hjne => ?_⟩
  · cases hd : fs.lookup (names k::d) with
    | none => rfl
    | some node =>
      exfalso
      have habove : ∀ l, l ∈ resolve root.path::ls → ¬ (names k::d) <:+ l := fun l hl hs => by
        have hdir := h₀.dirs l hl
        by_cases he : names k::d = l
        · rw [← he, hnot d] at hdir
          cases hdir
        · have := fs₀.lookup_suffix_dir hs he hdir
          rw [hnot d] at this
          cases this
      obtain ⟨l',hl',hs⟩ := (h.needed _ _ hd).2.resolve_left (by simp)
      rcases List.mem_append.mp hl' with hl' | hl'
      · exact habove l' hl' hs
      · obtain ⟨n,hn,rfl⟩ := List.mem_map.mp hl'
        rcases List.suffix_cons_iff.mp hs with he | hs
        · obtain ⟨j,hj,hjn⟩ := List.mem_map.mp (List.mem_filter.mp hn).1
          have := hc.injective (hjn.trans (List.cons.inj he).1.symm)
          rw [List.mem_range] at hj
          omega
        · exact habove _ List.mem_cons_self hs
  · refine h.dirs _ (List.mem_append_right _ (List.mem_map.mpr ⟨names j,?_,rfl⟩))
    exact List.mem_filter.mpr ⟨List.mem_map.mpr ⟨j,List.mem_range.mpr hj,rfl⟩,by simpa using hjne⟩

end DownloadRoot

variable {root : DownloadRoot}

/-- A disk with room outside for a file, under a name that is the one found free in the root as long as
the directories stay and it is not put there. -/
theorem exists_room {p : Path} (hp : p.Proper) (hnul : p.hasNul = false) (hne : p ≠ [])
    (hout : ¬ root.Contains (resolve p.parent)) :
    ∃ (fs : FileSystem) (new : Name), fs.IsDirectory root.path (resolve root.path) ∧
      fs.IsDirectory p.parent (resolve p.parent) ∧ Entry new ∧ (∀ l, fs.lookup (new::l) = none) ∧
      ¬ root.Contains (new::resolve p.parent) ∧
      ∀ fs' : FileSystem, (∀ l, fs.lookup l = some .dir → fs'.lookup l = some .dir) →
        fs'.lookup (new::resolve root.path) = none → validName fs' root.path p.name = new := by
  have hmem := Path.name_mem hne
  have hcomp := hp _ hmem
  have hcand : Candidates (candidate p.name) := candidate_candidates
    ⟨hcomp.no_slash,Path.not_mem_of_hasNul hnul hmem⟩ hcomp.ne_dot
  have hparent : p.parent.hasNul = false := Path.hasNul_of_prefix (List.dropLast_prefix _) hnul
  obtain ⟨fs,k,hdirs,hkne,hfree,htaken⟩ := root.exists_taken hcand
    (stops root.path ++ stops p.parent)
  have hroot : fs.IsDirectory root.path (resolve root.path) := .of_dirs root.noNul fun q hq =>
    hdirs _ (List.mem_cons_of_mem _ (List.mem_append_left _ (mem_stops.mpr ⟨q,hq,rfl⟩)))
  have hdir : fs.IsDirectory p.parent (resolve p.parent) := .of_dirs hparent fun q hq =>
    hdirs _ (List.mem_cons_of_mem _ (List.mem_append_right _ (mem_stops.mpr ⟨q,hq,rfl⟩)))
  refine ⟨fs,candidate p.name k,hroot,hdir,hcand.entry_of_ne hcomp.ne_nil hkne,hfree,?_,?_⟩
  · intro hin
    rcases inside_cons_iff.mp hin with he | hin
    · have := hroot.dir
      rw [he, hfree] at this
      cases this
    · exact hout hin
  · intro fs' hkeep hnone
    rw [validName, freeName_of_taken (hroot.mono hkeep) hcand hcomp.ne_nil hkne hnone
      fun j hj hjne => hkeep _ (htaken j hj hjne)]

/-- An item that is opened outside is created there, or one that lies there is added to. -/
theorem exists_escape_open {item : FileItem} (hp : item.path.Proper)
    (hnul : item.path.hasNul = false) (hne : item.path ≠ [])
    (hs : item.size.atMostZero = some false) (hstatus : statusSetup item.seeked item.size = .ok ())
    (hout : ¬ root.Contains (resolve item.path.parent)) :
    ∃ (fs : FileSystem) (l : Loc), fs.IsDirectory root.path (resolve root.path) ∧
      ¬ root.Contains l ∧ ∀ w : World, w.fs = fs → w.rx.downloadPath = root.path →
        Reaches l w.fs (Receiver.receiveItem item w).state.fs := by
  obtain ⟨fs,new,hroot,hdir,hentry,hfree,hlout,hname⟩ := exists_room hp hnul hne hout
  by_cases hz : item.seeked.isZero = true
  · obtain ⟨fs',hcreate,_,hch⟩ :=
      create_entry hdir hentry.ne_dotdot hentry.no_nul (.file []) (hfree _)
    refine ⟨fs,_,hroot,hlout,?_⟩
    rintro w rfl hw
    refine Receiver.receiveItem_reaches hne hs hstatus ?_
    rw [hw, hname _ (fun _ h => h) (hfree _), Receiver.Openable, if_pos hz]
    exact ⟨fs',hcreate,hch⟩
  · set l := new::resolve item.path.parent with hl
    set fs' := fs.add new (resolve item.path.parent) (.file []) hdir.dir (hfree _) with hfs'
    have hkeep : ∀ l', fs.lookup l' = some .dir → fs'.lookup l' = some .dir := fun l' hl' => by
      rw [hfs', add_lookup, if_neg (by rintro rfl; rw [hfree] at hl'; cases hl'), hl']
    have hthere : fs'.lookup l = some (.file []) := by rw [hfs', add_lookup, if_pos rfl]
    have hnone : fs'.lookup (new::resolve root.path) = none := by
      rw [hfs', add_lookup, if_neg, hfree]
      intro he
      exact hout (by rw [← (List.cons.inj he).2]; exact Inside.refl _)
    have hloc := locate_entry (hdir.mono hkeep) hentry.ne_dotdot hentry.no_nul
    rw [← hl, hthere] at hloc
    refine ⟨fs',l,hroot.mono hkeep,hlout,?_⟩
    intro w hdisk hw
    refine Receiver.receiveItem_reaches hne hs hstatus ?_
    rw [hdisk, hw, hname _ hkeep hnone, Receiver.Openable, if_neg hz]
    exact ⟨hloc,[],hthere⟩

/-- An item that does not stay leaves the root on some disk, whatever else the receiver holds. -/
theorem exists_escape {item : FileItem} (hp : item.path.Proper) (h : ¬ item.Stays root) :
    ∃ (fs : FileSystem) (l : Loc), fs.IsDirectory root.path (resolve root.path) ∧
      ¬ root.Contains l ∧ ∀ w : World, w.fs = fs → w.rx.downloadPath = root.path →
        Reaches l w.fs (Receiver.receiveItem item w).state.fs := by
  unfold FileItem.Stays at h
  obtain ⟨hnul,h⟩ := not_or.mp h
  replace hnul : item.path.hasNul = false := by simpa using hnul
  cases hs : item.size.atMostZero with
  | none => simp only [hs, not_true_eq_false] at h
  | some b =>
    cases b with
    | true =>
      simp only [hs] at h
      obtain ⟨fs,hsc⟩ := exists_scaffold (stops root.path ++ stops item.path)
      refine ⟨fs,resolve item.path,hsc.isDirectory root.noNul fun l => List.mem_append_left _,h,?_⟩
      rintro w rfl -
      exact Receiver.receiveItem_touches hs
        (hsc.isDirectory hnul fun l => List.mem_append_right _).locate
    | false =>
      simp only [hs, not_or, not_not] at h
      obtain ⟨hstatus,hne,hout⟩ := h
      exact exists_escape_open hp hnul hne hs hstatus hout

end PeerConnect.Transfers
