import PeerConnect.Library.IniRoundTrip

/-! What has been read can be written, and is then read again. -/
namespace PeerConnect.Library
open Text

namespace Lowered
variable {s t : Text} {c : Char}

theorem eq_nil (h : Lowered s []) : s = [] := by
  by_contra hs
  exact h.ne_nil hs rfl

theorem of_nil (h : Lowered [] t) : t = [] := by
  cases h
  rfl

/-- A first character that has no case is there from the first. -/
theorem head (h : Lowered s t) (hc : PeerConnect.Library.caseless c = true) (ht : t.head? = some c) :
    s.head? = some c := by
  obtain ⟨t',rfl⟩ := List.head?_eq_some_iff.mp ht
  obtain ⟨a,b,rfl,ha,_⟩ := h.split (a := []) hc
  rw [ha.eq_nil]
  rfl

theorem last (h : Lowered s t) (hc : PeerConnect.Library.caseless c = true)
    (ht : t.getLast? = some c) : s.getLast? = some c := by
  obtain ⟨t',rfl⟩ := List.getLast?_eq_some_iff.mp ht
  obtain ⟨a,b,rfl,_,hb⟩ := h.split hc
  rw [hb.eq_nil, List.getLast?_concat]

end Lowered

theorem caseless_of_isSpace {c : Char} (h : isSpace c = true) : caseless c = true := by
  rw [caseless, h]
  rfl

namespace Ini
variable {L : Lowercase} {noValue : Bool}

section Keys
variable {value name : Text} {optval : Option Text}

/-- A line that the parser takes for an option. -/
structure OptionLine (value : Text) : Prop where
  unbroken : Unbroken value
  trimmed : Trimmed value
  comment : isComment value = false
  header : header? value = none

/-- The name of an option begins its line, and its value ends it. -/
theorem splitOption_eq (h : splitOption value = (name,optval)) :
    ∃ part, name = rstrip part ∧ (∀ c ∈ part, isDelimiter c = false) ∧
      ((optval = none ∧ value = part) ∨ ∃ d v, optval = some v ∧ value = part ++ d::v) := by
  simp only [splitOption, Prod.mk.injEq] at h
  obtain ⟨rfl,hopt⟩ := h
  have hpart : ∀ c ∈ value.takeWhile fun c => !isDelimiter c, isDelimiter c = false := fun c hc => by
    simpa using List.mem_takeWhile_imp hc
  have hvalue := List.takeWhile_append_dropWhile (p := fun c => !isDelimiter c) (l := value)
  refine ⟨_,rfl,hpart,?_⟩
  cases hdrop : value.dropWhile fun c => !isDelimiter c with
  | nil =>
    rw [hdrop] at hopt hvalue
    exact .inl ⟨hopt.symm,by simpa using hvalue.symm⟩
  | cons d v =>
    rw [hdrop] at hopt hvalue
    exact .inr ⟨d,v,hopt.symm,hvalue.symm⟩

/-- The key of an option stands for itself. -/
theorem plain_lower (hv : OptionLine value) (h : splitOption value = (name,optval))
    (hne : name ≠ []) : Plain L (L.lower name) := by
  have hlowered := L.lowered name
  obtain ⟨part,rfl,hdelimiter,hvalue⟩ := splitOption_eq h
  have hpart : rstrip part <+: value := by
    refine (rstrip_begins part).trans ?_
    rcases hvalue with ⟨_,rfl⟩ | ⟨d,v,_,rfl⟩
    · exact List.prefix_rfl
    · exact List.prefix_append _ _
  have hhead : ∀ c, (rstrip part).head? = some c → value.head? = some c := by
    intro c hc
    obtain ⟨t,ht⟩ := hpart
    rw [← ht]
    exact List.mem_head?_append_of_mem_head? hc
  refine ⟨hlowered.ne_nil hne,L.lower_lower _,fun c hc => ?_,fun c hc => ?_,⟨fun c hc => ?_,fun c hc => ?_⟩,
    ?_,?_⟩
  · refine Bool.eq_false_iff.mpr fun hd => ?_
    have hcaseless : caseless c = true := by
      rcases Bool.or_eq_true_iff.mp hd with hd | hd <;> obtain rfl := beq_iff_eq.mp hd <;> decide
    have := hdelimiter c ((rstrip_begins part).subset (hlowered.mem hcaseless hc))
    rw [hd] at this
    cases this
  · refine Bool.eq_false_iff.mpr fun hb => ?_
    have hcaseless := caseless_of_isSpace (isSpace_of_isBreak hb)
    have := hv.unbroken c (hpart.subset (hlowered.mem hcaseless hc))
    rw [hb] at this
    cases this
  · refine Bool.eq_false_iff.mpr fun hs => ?_
    have := hv.trimmed.head c (hhead c (hlowered.head (caseless_of_isSpace hs) hc))
    rw [hs] at this
    cases this
  · refine Bool.eq_false_iff.mpr fun hs => ?_
    have := rstrip_last c (hlowered.last (caseless_of_isSpace hs) hc)
    rw [hs] at this
    cases this
  · refine Bool.eq_false_iff.mpr fun hcomment => ?_
    have hvalueComment : isComment value = true := by
      rcases Bool.or_eq_true_iff.mp hcomment with hc | hc <;>
        have hc := hhead _ (hlowered.head (by decide) (beq_iff_eq.mp hc)) <;>
        simp [isComment, hc]
    rw [hv.comment] at hvalueComment
    cases hvalueComment
  · refine header?_eq_none_iff.mpr fun n t ht => ?_
    rw [ht] at hlowered
    obtain ⟨a,b,hab,ha,hb⟩ := hlowered.split (a := []) (by decide)
    obtain ⟨n',t',rfl,hn,_⟩ := hb.split (by decide)
    rw [ha.eq_nil] at hab
    obtain rfl := header?_eq_none_iff.mp (header?_begins hpart hv.header) n' t' hab
    exact hn.of_nil

/-- With its value it is no section header either. -/
theorem header?_lower (hv : OptionLine value) {v : Text} (h : splitOption value = (name,some v))
    (hne : name ≠ []) : header? (L.lower name ++ " = ".toList ++ strip v) = none := by
  have hplain := plain_lower (L := L) hv h hne
  have hlowered := L.lowered name
  obtain ⟨part,rfl,_,⟨hnone,_⟩ | ⟨d,v',hopt,rfl⟩⟩ := splitOption_eq h
  · cases hnone
  cases hopt
  refine header?_eq_none_iff.mpr fun n t ht => ?_
  cases hkey : L.lower (rstrip part) with
  | nil => exact absurd hkey hplain.ne_nil
  | cons c key =>
    rw [hkey] at ht hlowered hplain
    rw [List.append_assoc, List.cons_append] at ht
    obtain ⟨rfl,happend⟩ := List.cons.inj ht
    rcases List.append_eq_append_iff.mp happend with ⟨x,_,hrest⟩ | ⟨x,rfl,hrest⟩
    · -- the bracket is in the value
      have hmem : ']' ∈ " = ".toList ++ strip v := by
        rw [hrest]
        simp
      have hmem : ']' ∈ v := by
        rcases List.mem_append.mp hmem with h | h
        · exact absurd h (by decide)
        · exact mem_strip h
      obtain ⟨v₁,v₂,rfl⟩ := List.append_of_mem hmem
      obtain ⟨part',hpart'⟩ := List.head?_eq_some_iff.mp (hlowered.head (by decide) rfl)
      obtain ⟨tail,htail⟩ := rstrip_begins part
      have hvalue : part ++ d::(v₁ ++ ']'::v₂) = '['::((part' ++ tail ++ d::v₁) ++ ']'::v₂) := by
        rw [← htail, hpart']
        simp
      exact absurd (header?_eq_none_iff.mp hv.header _ _ hvalue) (by simp)
    · cases x with
      | nil => cases hrest
      | cons e x =>
        obtain ⟨rfl,_⟩ := List.cons.inj hrest
        exact header?_eq_none_iff.mp hplain.header n x rfl

end Keys

section Values

theorem mem_intercalate {c : Char} {ls : List Text} (h : c ∈ ['\n'].intercalate ls) :
    c = '\n' ∨ ∃ l ∈ ls, c ∈ l := by
  induction ls with
  | nil => cases h
  | cons l ls ih =>
    cases ls with
    | nil => exact .inr ⟨l,List.mem_singleton_self l,by simpa using h⟩
    | cons l' ls =>
      rw [List.intercalate_cons_cons] at h
      simp only [List.mem_append, List.mem_singleton] at h
      rcases h with (h | h) | h
      · exact .inr ⟨l,List.mem_cons_self,h⟩
      · exact .inl h
      · exact (ih h).imp_right fun ⟨m,hm,hc⟩ => ⟨m,List.mem_cons_of_mem l hm,hc⟩

/-- The lines that stay of a value are those up to the last that is not empty. -/
theorem joinLines_eq (l : Text) (rest : List Text) (hl : Trimmed l) (h : ∀ x ∈ rest, Trimmed x) :
    ∃ rest', rest' <+: rest ∧ joinLines (l::rest) = ['\n'].intercalate (l::rest') := by
  induction rest using List.reverseRecOn with
  | nil =>
    refine ⟨[],List.prefix_rfl,?_⟩
    rw [joinLines, List.intercalate_singleton, rstrip_eq_self hl.last]
  | append_singleton rest x ih =>
    obtain ⟨hrest,hx⟩ := List.forall_mem_append.mp h
    by_cases hnil : x = []
    · obtain ⟨rest',hpre,hjoin⟩ := ih hrest
      refine ⟨rest',hpre.trans (List.prefix_append _ _),?_⟩
      rw [hnil, ← List.cons_append, joinLines_concat_nil (List.cons_ne_nil _ _), hjoin]
    · refine ⟨rest ++ [x],List.prefix_rfl,rstrip_eq_self fun c hc => ?_⟩
      refine (hx x (List.mem_singleton_self x)).last c ?_
      rw [← List.cons_append, intercalate_concat (List.cons_ne_nil _ _), List.append_cons,
        List.getLast?_append_of_ne_nil _ hnil] at hc
      exact hc

/-- A value that has been read is read again. -/
theorem writable_joinLines {k l : Text} {rest : List Text} (hl : Trimmed l) (h : ∀ x ∈ rest, Trimmed x)
    (hunbroken : ∀ x ∈ l::rest, Unbroken x) (hheader : header? (k ++ " = ".toList ++ l) = none)
    (hcomment : ∀ x ∈ rest, isComment x = false) :
    WritableValue k (joinLines (l::rest)) ∧ readBack (joinLines (l::rest)) = joinLines (l::rest) := by
  obtain ⟨rest',hpre,hjoin⟩ := joinLines_eq l rest hl h
  have hsub : ∀ x ∈ l::rest', x ∈ l::rest := fun x hx =>
    (List.prefix_cons_inj l |>.mpr hpre).subset hx
  have hsplit : (['\n'].intercalate (l::rest')).splitOn '\n' = l::rest' := by
    refine List.splitOn_intercalate '\n' (fun x hx hmem => ?_) (List.cons_ne_nil _ _)
    cases hunbroken x (hsub x hx) _ hmem
  have hstrip : ∀ x ∈ l::rest, strip x = x := List.forall_mem_cons.mpr
    ⟨strip_eq_self hl,fun x hx => strip_eq_self (h x hx)⟩
  have hself : (l::rest').map strip = l::rest' := by
    rw [List.map_congr_left fun x hx => hstrip x (hsub x hx), List.map_id']
  refine ⟨⟨fun hmem => ?_,?_,fun x hx => ?_⟩,?_⟩
  · rw [hjoin] at hmem
    rcases mem_intercalate hmem with hc | ⟨x,hx,hc⟩
    · cases hc
    · cases hunbroken x (hsub x hx) _ hc
  · rw [hjoin, hsplit]
    exact hheader
  · rw [hjoin, hsplit] at hx
    have hmem := hpre.subset hx
    rw [hstrip x (List.mem_cons_of_mem l hmem)]
    exact hcomment x hmem
  · rw [readBack, hjoin, hsplit, hself, joinLines, ← hjoin, joinLines]
    exact List.rdropWhile_idempotent isSpace _

end Values

section Lines

/-- An option of a configuration that is being read. -/
def Entry (L : Lowercase) (noValue : Bool) (k : Text) (v : Option (List Text)) : Prop :=
  Plain L k ∧ match v with
    | none => noValue = true
    | some ls => ∃ l rest, ls = l::rest ∧ Trimmed l ∧ (∀ x ∈ rest, Trimmed x) ∧
      (∀ x ∈ ls, Unbroken x) ∧ header? (k ++ " = ".toList ++ l) = none ∧ ∀ x ∈ rest, isComment x = false

/-- What has been read so far can become a configuration that can be written. -/
structure Sound (L : Lowercase) (noValue : Bool) (c : Config (Option (List Text))) : Prop where
  nodup : c.sections.keys.Nodup
  names : ∀ s ∈ c.sections.keys, s ≠ defaultSection ∧ s ≠ [] ∧ Unbroken s
  options : ∀ options ∈ c.defaults::c.sections.map Prod.snd,
    options.keys.Nodup ∧ ∀ p ∈ options, Entry L noValue p.1 p.2

/-- Where a section is updated, its options are the only ones that change. -/
theorem mem_update {α : Type} {c : Config α} {s : Text} {f : Dict Text α → Dict Text α}
    {options : Dict Text α}
    (h : options ∈ (c.update s f).defaults::(c.update s f).sections.map Prod.snd) :
    options ∈ c.defaults::c.sections.map Prod.snd ∨
      options = f (c.options s) ∧ c.options s ∈ c.defaults::c.sections.map Prod.snd := by
  unfold Config.update Config.options at *
  by_cases hs : s = defaultSection
  · rw [if_pos hs] at h
    rw [if_pos hs]
    rcases List.mem_cons.mp h with rfl | h
    · exact .inr ⟨rfl,List.mem_cons_self⟩
    · exact .inl (List.mem_cons_of_mem _ h)
  · rw [if_neg hs] at h
    rw [if_neg hs]
    rcases List.mem_cons.mp h with rfl | h
    · exact .inl List.mem_cons_self
    · obtain ⟨p,hp,rfl⟩ := List.mem_map.mp h
      rcases Dict.mem_modify hp with hp | ⟨v,hget,rfl⟩
      · exact .inl (List.mem_cons_of_mem _ (List.mem_map_of_mem hp))
      · refine .inr ⟨by rw [hget]; rfl,?_⟩
        rw [hget]
        exact List.mem_cons_of_mem _ (List.mem_map_of_mem (Dict.mem_of_get? hget))

theorem Sound.update {c : Config (Option (List Text))} (h : Sound L noValue c) (s : Text)
    {f : Dict Text (Option (List Text)) → Dict Text (Option (List Text))}
    (hf : (c.options s).keys.Nodup → (∀ p ∈ c.options s, Entry L noValue p.1 p.2) →
      (f (c.options s)).keys.Nodup ∧ ∀ p ∈ f (c.options s), Entry L noValue p.1 p.2) :
    Sound L noValue (c.update s f) := by
  have hkeys := c.keys_update (s := s) (f := f)
  refine ⟨hkeys ▸ h.nodup,hkeys ▸ h.names,fun options hoptions => ?_⟩
  rcases mem_update hoptions with hmem | ⟨rfl,hmem⟩
  · exact h.options options hmem
  · exact hf (h.options _ hmem).1 (h.options _ hmem).2

theorem header?_some {value name : Text} (h : header? value = some name) :
    name ≠ [] ∧ name ⊆ value := by
  unfold header? at h
  split at h
  next t =>
    dsimp only at h
    split at h
    next => cases h
    next hne =>
      cases h
      refine ⟨hne,fun c hc => List.mem_cons_of_mem _ ?_⟩
      exact (List.rdropWhile_prefix _ t).subset (List.dropLast_subset _ hc)
  next => cases h

/-- A further line that is no comment. -/
theorem sound_append {r r' : Reading} {value : Text} (h : Sound L noValue r.config)
    (htrimmed : Trimmed value) (hunbroken : Unbroken value) (hcomment : isComment value = false)
    (hr : r.append value = .ok r') : Sound L noValue r'.config := by
  unfold Reading.append at hr
  split at hr
  next s o _ _ =>
    split at hr
    next ls hget =>
      cases hr
      refine h.update s fun hnodup hentries => ⟨by rwa [Dict.keys_modify],fun p hp => ?_⟩
      rcases Dict.mem_modify hp with hp | ⟨v,hget',rfl⟩
      · exact hentries p hp
      · cases hget.symm.trans hget'
        obtain ⟨hplain,l,rest,rfl,hl,hrest,hlines,hheader,hcomments⟩ := hentries _ (Dict.mem_of_get? hget)
        refine ⟨hplain,l,rest ++ [value],rfl,hl,?_,?_,hheader,?_⟩
        · exact List.forall_mem_append.mpr ⟨hrest,List.forall_mem_singleton.mpr htrimmed⟩
        · exact List.forall_mem_append.mpr ⟨hlines,List.forall_mem_singleton.mpr hunbroken⟩
        · exact List.forall_mem_append.mpr ⟨hcomments,List.forall_mem_singleton.mpr hcomment⟩
    next => cases hr
  next => cases hr; exact h

theorem sound_blank {r : Reading} (h : Sound L noValue r.config) : Sound L noValue r.blank.config := by
  unfold Reading.blank
  split
  next r' hr => exact sound_append h (strip_trimmed []) unbroken_nil rfl hr
  next => exact h

theorem sound_startSection {r r' : Reading} {level : ℕ} {name : Text} (h : Sound L noValue r.config)
    (hne : name ≠ []) (hunbroken : Unbroken name) (hr : r.startSection level name = .ok r') :
    Sound L noValue r'.config := by
  unfold Reading.startSection at hr
  split at hr
  next => cases hr; exact h
  next hname =>
    split at hr
    next => cases hr
    next hnew =>
      cases hr
      refine ⟨?_,?_,?_⟩
      · exact Dict.nodup_keys_concat h.nodup hnew []
      · rw [Dict.keys_append]
        exact List.forall_mem_append.mpr ⟨h.names,List.forall_mem_singleton.mpr ⟨hname,hne,hunbroken⟩⟩
      · rw [List.map_append, ← List.cons_append]
        refine List.forall_mem_append.mpr ⟨h.options,List.forall_mem_singleton.mpr ?_⟩
        exact ⟨List.nodup_nil,nofun⟩

theorem sound_startOption {r r' : Reading} {level : ℕ} {s value : Text} (h : Sound L noValue r.config)
    (hv : OptionLine value) (hr : r.startOption L noValue level s value = .ok r') :
    Sound L noValue r'.config := by
  unfold Reading.startOption at hr
  rcases hsplit : splitOption value with ⟨name,optval⟩
  rw [hsplit] at hr
  dsimp only at hr
  split at hr
  next => cases hr
  next hname =>
    obtain ⟨hne,hvalue⟩ := not_or.mp hname
    split at hr
    next => cases hr
    next hnew =>
      cases hr
      have hplain := plain_lower (L := L) hv hsplit hne
      refine h.update s fun hnodup hentries => ⟨Dict.nodup_keys_concat hnodup hnew _,?_⟩
      refine List.forall_mem_append.mpr ⟨hentries,List.forall_mem_singleton.mpr ⟨hplain,?_⟩⟩
      cases optval with
      | none => simpa using hvalue
      | some v =>
        obtain ⟨part,_,_,⟨hnone,_⟩ | ⟨d,v',hopt,hpart⟩⟩ := splitOption_eq hsplit
        · cases hnone
        cases hopt
        have hsub : strip v ⊆ value := fun c hc => by
          rw [hpart]
          exact List.mem_append_right part (List.mem_cons_of_mem d (mem_strip hc))
        exact ⟨strip v,[],rfl,strip_trimmed v,nofun,
          List.forall_mem_singleton.mpr (hv.unbroken.subset hsub),header?_lower hv hsplit hne,nofun⟩

theorem sound_readLine {r r' : Reading} {line : Text} (h : Sound L noValue r.config)
    (hline : Unbroken line) (hr : r.readLine L noValue line = .ok r') : Sound L noValue r'.config := by
  have hunbroken : Unbroken (strip line) := hline.subset fun c hc => mem_strip hc
  have htrimmed := strip_trimmed line
  unfold Reading.readLine at hr
  dsimp only at hr
  split at hr
  next => cases hr; exact h
  next hcomment =>
    have hcomment : isComment (strip line) = false := by simpa using hcomment
    split at hr
    next => cases hr; exact sound_blank h
    next hne =>
      split at hr
      next => exact sound_append h htrimmed hunbroken hcomment hr
      next =>
        split at hr
        next name hheader =>
          obtain ⟨hname,hsub⟩ := header?_some hheader
          exact sound_startSection h hname (hunbroken.subset hsub) hr
        next hheader =>
          split at hr
          next => cases hr
          next => exact sound_startOption h ⟨hunbroken,htrimmed,hcomment,hheader⟩ hr

theorem sound_fold {ls : List Text} (hls : ∀ l ∈ ls, Unbroken l) {r r' : Reading}
    (h : Sound L noValue r.config) (hr : ls.foldlM (Reading.readLine L noValue) r = .ok r') :
    Sound L noValue r'.config := by
  induction ls generalizing r with
  | nil => cases hr; exact h
  | cons l ls ih =>
    obtain ⟨hl,hls⟩ := List.forall_mem_cons.mp hls
    rw [List.foldlM_cons] at hr
    cases hline : r.readLine L noValue l with
    | error e => rw [hline] at hr; cases hr
    | ok r₁ =>
      rw [hline] at hr
      exact ih hls (sound_readLine h hl hline) hr

end Lines

/-- A configuration that can be written and is then read as it is. -/
structure WellFormed (L : Lowercase) (noValue : Bool) (c : Config (Option Text)) : Prop
    extends Writable L noValue c where
  stable : ∀ options ∈ c.defaults::c.sections.map Prod.snd, ∀ p ∈ options, ∀ v ∈ p.2, readBack v = v

/-- An option may be changed to another that can be written. -/
theorem WellFormed.update {c : Config (Option Text)} (h : WellFormed L noValue c) (s : Text)
    {f : Dict Text (Option Text) → Dict Text (Option Text)}
    (hnodup : ∀ d, d.keys.Nodup → (f d).keys.Nodup)
    (hf : ∀ d, ∀ p ∈ f d, p ∈ d ∨ WritableOption L noValue p.1 p.2 ∧ ∀ v ∈ p.2, readBack v = v) :
    WellFormed L noValue (c.update s f) := by
  have hoption : ∀ options ∈ (c.update s f).defaults::(c.update s f).sections.map Prod.snd,
      options.keys.Nodup ∧ ∀ p ∈ options, WritableOption L noValue p.1 p.2 ∧ ∀ v ∈ p.2, readBack v = v := by
    intro options hoptions
    have hold : ∀ options ∈ c.defaults::c.sections.map Prod.snd, options.keys.Nodup ∧
        ∀ p ∈ options, WritableOption L noValue p.1 p.2 ∧ ∀ v ∈ p.2, readBack v = v := fun options ho =>
      ⟨(h.options options ho).1,fun p hp => ⟨(h.options options ho).2 p hp,h.stable options ho p hp⟩⟩
    rcases mem_update hoptions with hmem | ⟨rfl,hmem⟩
    · exact hold options hmem
    · refine ⟨hnodup _ (hold _ hmem).1,fun p hp => ?_⟩
      exact (hf _ p hp).elim ((hold _ hmem).2 p) id
  refine ⟨⟨?_,?_,fun options ho => ?_⟩,fun options ho p hp => ((hoption options ho).2 p hp).2⟩
  · rw [Config.keys_update]
    exact h.nodup
  · rw [Config.keys_update]
    exact h.names
  · exact ⟨(hoption options ho).1,fun p hp => ((hoption options ho).2 p hp).1⟩

theorem WellFormed.removeOption {c : Config (Option Text)} (h : WellFormed L noValue c) (s o : Text) :
    WellFormed L noValue (c.removeOption L s o) :=
  h.update s (fun _ => Dict.nodup_keys_remove) fun _ _ hp => .inl (List.mem_of_mem_filter hp)

theorem WellFormed.setOption {c c' : Config (Option Text)} (h : WellFormed L true c) {s o : Text}
    (ho : Plain L (L.lower o)) (hc : c.setOption L s o = .ok c') : WellFormed L true c' := by
  unfold Config.setOption at hc
  split at hc
  next =>
    cases hc
    refine h.update s (fun _ => Dict.nodup_keys_set) fun _ _ hp => ?_
    rcases Dict.mem_set hp with hp | rfl
    · exact .inl hp
    · exact .inr ⟨⟨ho,rfl⟩,nofun⟩
  next => cases hc

theorem WellFormed.removeSection {c : Config (Option Text)} (h : WellFormed L noValue c) (s : Text) :
    WellFormed L noValue (c.removeSection s) := by
  have hsub : c.defaults::(c.removeSection s).sections.map Prod.snd ⊆
      c.defaults::c.sections.map Prod.snd :=
    List.cons_subset_cons _ (List.map_subset _ List.filter_sublist.subset)
  refine ⟨⟨Dict.nodup_keys_remove h.nodup,fun k hk => h.names k (Dict.mem_keys_remove.mp hk).1,
    fun options ho => h.options options (hsub ho)⟩,fun options ho => h.stable options (hsub ho)⟩

theorem WellFormed.addSection {c c' : Config (Option Text)} (h : WellFormed L noValue c) {s : Text}
    (hne : s ≠ []) (hs : Unbroken s) (hc : c.addSection s = .ok c') : WellFormed L noValue c' := by
  unfold Config.addSection at hc
  split at hc
  · cases hc
  next hdefault =>
    split at hc
    · cases hc
    next hnew =>
      cases hc
      have hsection : ∀ options, options ∈ c.defaults::(c.sections ++ [(s,[])]).map Prod.snd →
          options ∈ c.defaults::c.sections.map Prod.snd ∨ options = [] := by
        intro options ho
        rw [List.map_append, ← List.cons_append, List.mem_append] at ho
        exact ho.imp_right List.mem_singleton.mp
      refine ⟨⟨Dict.nodup_keys_concat h.nodup hnew [],fun k hk => ?_,fun options ho => ?_⟩,
        fun options ho => ?_⟩
      · rw [Dict.keys_append, List.mem_append] at hk
        refine hk.elim (h.names k) fun hk => ?_
        rw [List.mem_singleton.mp hk]
        exact ⟨hdefault,hne,hs⟩
      · rcases hsection options ho with ho | rfl
        · exact h.options options ho
        · exact ⟨List.nodup_nil,List.forall_mem_nil _⟩
      · rcases hsection options ho with ho | rfl
        · exact h.stable options ho
        · exact List.forall_mem_nil _

/-- The names in a section are names that stand for themselves. -/
theorem WellFormed.plain {c : Config (Option Text)} (h : WellFormed L noValue c) {s k : Text}
    (hk : k ∈ c.optionNames s) : Plain L k := by
  have hkey : ∀ options ∈ c.defaults::c.sections.map Prod.snd, k ∈ options.keys → Plain L k := by
    intro options ho hmem
    obtain ⟨p,hp,rfl⟩ := List.mem_map.mp hmem
    exact ((h.options options ho).2 p hp).1
  rcases Config.mem_optionNames.mp hk with hk | hk
  · unfold Config.options at hk
    split at hk
    next => exact hkey _ List.mem_cons_self hk
    next =>
      cases hget : c.sections.get? s with
      | none => rw [hget] at hk; cases hk
      | some options =>
        rw [hget] at hk
        exact hkey _ (List.mem_cons_of_mem _ (List.mem_map_of_mem (Dict.mem_of_get? hget))) hk
  · exact hkey _ List.mem_cons_self hk

theorem mapValues_eq_self {α : Type} {f : α → α} {d : Dict Text α} (h : ∀ p ∈ d, f p.2 = p.2) :
    d.mapValues f = d := by
  have hid : ∀ p ∈ d, (p.1,f p.2) = id p := fun p hp => by rw [h p hp]; rfl
  rw [Dict.mapValues, List.map_congr_left hid, List.map_id]

theorem WellFormed.read_write {c : Config (Option Text)} (h : WellFormed L noValue c) :
    read L noValue (write noValue c) = .ok c := by
  have hself : ∀ options ∈ c.defaults::c.sections.map Prod.snd,
      options.mapValues (Option.map readBack) = options := by
    refine fun options hoptions => mapValues_eq_self fun p hp => ?_
    cases hv : p.2 with
    | none => rfl
    | some v => rw [Option.map_some, h.stable options hoptions p hp v hv]
  obtain ⟨hdefaults,hsections⟩ := List.forall_mem_cons.mp hself
  rw [Ini.read_write h.toWritable, Config.map, hdefaults,
    mapValues_eq_self fun p hp => hsections p.2 (List.mem_map_of_mem hp)]

/-- What is accepted is well formed. -/
theorem wellFormed_of_read {t : Text} {c : Config (Option Text)} (h : read L noValue t = .ok c) :
    WellFormed L noValue c := by
  cases hr : (lines t).foldlM (Reading.readLine L noValue) {} with
  | error e => rw [read, hr] at h; cases h
  | ok r =>
    rw [read, hr] at h
    cases h
    have hempty : Sound L noValue ({} : Reading).config :=
      ⟨List.nodup_nil,List.forall_mem_nil _,List.forall_mem_singleton.mpr ⟨List.nodup_nil,List.forall_mem_nil _⟩⟩
    obtain ⟨hnodup,hnames,hoptions⟩ := sound_fold (fun l hl => unbroken_of_mem_lines hl) hempty hr
    have hkeys : (r.config.map (Option.map joinLines)).sections.keys = r.config.sections.keys :=
      Dict.keys_mapValues _ _
    -- every option has been read from one of the options of the reader
    have hentry : ∀ options ∈ (r.config.map (Option.map joinLines)).defaults::
        (r.config.map (Option.map joinLines)).sections.map Prod.snd,
        ∃ options' ∈ r.config.defaults::r.config.sections.map Prod.snd,
          options = options'.mapValues (Option.map joinLines) := by
      intro options hmem
      rcases List.mem_cons.mp hmem with rfl | hmem
      · exact ⟨_,List.mem_cons_self,rfl⟩
      · obtain ⟨p,hp,rfl⟩ := List.mem_map.mp hmem
        obtain ⟨q,hq,rfl⟩ := List.mem_map.mp hp
        exact ⟨q.2,List.mem_cons_of_mem _ (List.mem_map_of_mem hq),rfl⟩
    have hvalue : ∀ {k : Text} {ls : List Text}, Entry L noValue k (some ls) →
        WritableValue k (joinLines ls) ∧ readBack (joinLines ls) = joinLines ls := by
      rintro k ls ⟨_,l,rest,rfl,hl,hrest,hunbroken,hheader,hcomment⟩
      exact writable_joinLines hl hrest hunbroken hheader hcomment
    refine ⟨⟨hkeys ▸ hnodup,hkeys ▸ hnames,fun options hmem => ?_⟩,fun options hmem => ?_⟩
    all_goals
      obtain ⟨options',hmem',rfl⟩ := hentry options hmem
      obtain ⟨hnodup',hentries⟩ := hoptions options' hmem'
    · refine ⟨(Dict.keys_mapValues _ options').symm ▸ hnodup',fun p hp => ?_⟩
      obtain ⟨⟨k,v⟩,hq,rfl⟩ := List.mem_map.mp hp
      have hq := hentries _ hq
      cases v with
      | none => exact hq
      | some ls => exact ⟨hq.1,(hvalue hq).1⟩
    · intro p hp v hv
      obtain ⟨⟨k,v'⟩,hq,rfl⟩ := List.mem_map.mp hp
      have hq := hentries _ hq
      cases v' with
      | none => cases hv
      | some ls =>
        cases hv
        exact (hvalue hq).2

end Ini
end PeerConnect.Library
