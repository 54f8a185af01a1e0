import PeerConnect.Library.Ini

/-! What is read back of a configuration that has been written. -/
namespace PeerConnect.Library
open Text

namespace Lowered
variable {s t : Text} {c : Char}

/-- A character that has no case stays where it is. -/
theorem split {a b : Text} (h : Lowered s (a ++ c::b)) (hc : PeerConnect.Library.caseless c = true) :
    ∃ a' b', s = a' ++ c::b' ∧ Lowered a' a ∧ Lowered b' b := by
  generalize ht : a ++ c::b = t at h
  induction h generalizing a with
  | nil => exact absurd ht (by simp)
  | @caseless d s t hd h ih =>
    cases a with
    | nil =>
      cases ht
      exact ⟨[],s,rfl,.nil,h⟩
    | cons e a =>
      cases ht
      obtain ⟨a',b',rfl,ha,hb⟩ := ih rfl
      exact ⟨d::a',b',rfl,.caseless hd ha,hb⟩
  | @cased d l s t hd hl hnot h ih =>
    rcases List.append_eq_append_iff.mp ht with ⟨x,rfl,hx⟩ | ⟨x,rfl,hx⟩
    · cases x with
      | nil =>
        obtain ⟨a',b',rfl,ha,hb⟩ := ih (a := []) hx
        refine ⟨d::a',b',rfl,?_,hb⟩
        simpa using Lowered.cased hd hl hnot ha
      | cons e x =>
        cases hx
        have := hnot c (by simp)
        rw [hc] at this
        cases this
    · obtain ⟨a',b',rfl,ha,hb⟩ := ih hx.symm
      exact ⟨d::a',b',rfl,.cased hd hl hnot ha,hb⟩

theorem mem (h : Lowered s t) (hc : PeerConnect.Library.caseless c = true) (hmem : c ∈ t) : c ∈ s := by
  obtain ⟨a,b,rfl⟩ := List.append_of_mem hmem
  obtain ⟨a',b',rfl,_⟩ := h.split hc
  simp

theorem ne_nil (h : Lowered s t) (hs : s ≠ []) : t ≠ [] := by
  cases h with
  | nil => exact absurd rfl hs
  | caseless => exact List.cons_ne_nil _ _
  | cased _ hl _ _ => exact List.append_ne_nil_of_left_ne_nil hl _

end Lowered

namespace Ini

section Headers
variable {v w : Text}

/-- A section header has brackets, with something between them. -/
theorem header?_eq_none_iff : header? v = none ↔ ∀ h t, v = '['::(h ++ ']'::t) → h = [] := by
  constructor
  · rintro hv h t rfl
    have hdrop := rdropWhile_append_cons (p := (· != ']')) (a := ']') rfl h t
    by_contra hne
    simp [header?, hdrop, hne] at hv
  · intro hv
    unfold header?
    split
    next t =>
      dsimp only
      split
      next => rfl
      next hname =>
        have hlast := List.rdropWhile_last_not (· != ']') t
        obtain ⟨x,hx⟩ := List.rdropWhile_prefix (· != ']') t
        generalize t.rdropWhile (· != ']') = u at hname hlast hx
        have hne : u ≠ [] := by
          rintro rfl
          exact hname rfl
        have hbracket : u.getLast hne = ']' := by simpa using hlast hne
        have hu : u.dropLast ++ [']'] = u := hbracket ▸ List.dropLast_concat_getLast hne
        refine absurd (hv u.dropLast x ?_) hname
        rw [← hx]
        nth_rewrite 1 [← hu]
        simp
    next => rfl

theorem header?_bracketed {name : Text} (hne : name ≠ []) :
    header? ('['::(name ++ [']'])) = some name := by
  have h : (name ++ [']']).rdropWhile (· != ']') = name ++ [']'] :=
    List.rdropWhile_concat_neg _ _ _ (by simp)
  simp [header?, h, hne]

/-- No part of a text up to some point is a header if the text is none. -/
theorem header?_begins (h : v <+: w) (hw : header? w = none) : header? v = none := by
  obtain ⟨x,rfl⟩ := h
  refine header?_eq_none_iff.mpr fun n t ht => header?_eq_none_iff.mp hw n (t ++ x) ?_
  simp [ht]

end Headers

/-- A name that can stand for an option in a file: it is read as it is written. -/
structure Plain (L : Lowercase) (k : Text) : Prop where
  ne_nil : k ≠ []
  lower : L.lower k = k
  delimiter : ∀ c ∈ k, isDelimiter c = false
  unbroken : Unbroken k
  trimmed : Trimmed k
  comment : isComment k = false
  header : header? k = none

theorem isLower_range {c : Char} (h : c.isLower = true) : 97 ≤ c.toNat ∧ c.toNat ≤ 122 := by
  have hrange : (decide (c.val ≥ 'a'.val) && decide (c.val ≤ 'z'.val)) = true := h
  simpa [UInt32.le_iff_toNat_le] using hrange

theorem isUpper_range {c : Char} (h : c.isUpper = true) : 65 ≤ c.toNat ∧ c.toNat ≤ 90 := by
  have hrange : c.val ≥ 'A'.val ∧ c.val ≤ 'Z'.val := of_decide_eq_true h
  simpa [UInt32.le_iff_toNat_le] using hrange

/-- Names of small letters are such names. -/
theorem plain_of_isLower {L : Lowercase} {k : Text} (hne : k ≠ []) (h : ∀ c ∈ k, c.isLower = true) :
    Plain L k ∧ k.head? ≠ some '[' := by
  have hsolid : Solid k := by
    intro c hc
    have hrange := isLower_range (h c hc)
    simp only [isSpace, Bool.or_eq_false_iff, Bool.and_eq_false_iff, decide_eq_false_iff_not,
      beq_eq_false_iff_ne]
    omega
  have hhead : ∀ d : Char, d.isLower = false → k.head? ≠ some d := fun d hd hk => by
    have := h d (List.mem_of_mem_head? hk)
    rw [hd] at this
    cases this
  refine ⟨⟨hne,L.lower_ascii k fun c hc => ?_,fun c hc => ?_,hsolid.unbroken,?_,?_,?_⟩,hhead '[' rfl⟩
  · have hrange := isLower_range (h c hc)
    refine ⟨by omega,Bool.eq_false_iff.mpr fun hupper => ?_⟩
    have := isUpper_range hupper
    omega
  · have := h c hc
    refine Bool.or_eq_false_iff.mpr ⟨?_,?_⟩ <;> refine beq_eq_false_iff_ne.mpr fun hd => ?_ <;>
      rw [hd] at this <;> cases this
  · exact ⟨fun c hc => hsolid c (List.mem_of_mem_head? hc),fun c hc => hsolid c (List.mem_of_getLast? hc)⟩
  · rw [isComment, Bool.or_eq_false_iff]
    exact ⟨beq_eq_false_iff_ne.mpr (hhead '#' rfl),beq_eq_false_iff_ne.mpr (hhead ';' rfl)⟩
  · refine header?_eq_none_iff.mpr fun n t ht => absurd ?_ (hhead '[' rfl)
    rw [ht]
    rfl

namespace Config
variable {α β : Type} {s : Text} {c : Config α} {f g : Dict Text α → Dict Text α}

theorem options_update (h : c.Has s) : (c.update s f).options s = f (c.options s) := by
  unfold options update
  by_cases hs : s = defaultSection
  · rw [if_pos hs, if_pos hs, if_pos hs]
  · rw [if_neg hs, if_neg hs, if_neg hs, Dict.get?_modify_self]
    cases hget : c.sections.get? s with
    | none => exact absurd (h.resolve_left hs) (Dict.get?_eq_none_iff.mp hget)
    | some options => rfl

theorem update_update (s : Text) (c : Config α) : (c.update s f).update s g = c.update s (g ∘ f) := by
  unfold update
  by_cases hs : s = defaultSection
  · rw [if_pos hs, if_pos hs, if_pos hs]
    rfl
  · rw [if_neg hs, if_neg hs, if_neg hs]
    simp only [Dict.modify_modify]

theorem keys_update (c : Config α) : (c.update s f).sections.keys = c.sections.keys := by
  unfold update
  split
  · rfl
  · exact Dict.keys_modify s f c.sections

theorem Has.update (h : c.Has s) (s' : Text) : (c.update s' f).Has s :=
  h.imp_right fun hs => c.keys_update (s := s') (f := f) ▸ hs

theorem mem_optionNames {k : Text} :
    k ∈ c.optionNames s ↔ k ∈ (c.options s).keys ∨ k ∈ c.defaults.keys := Dict.mem_keys_update _

/-- A section that is not the default one is the only one that changes. -/
theorem mem_optionNames_update {k : Text} (hs : s ≠ defaultSection) (h : c.Has s) :
    k ∈ (c.update s f).optionNames s ↔ k ∈ (f (c.options s)).keys ∨ k ∈ c.defaults.keys := by
  rw [mem_optionNames, options_update h, update, if_neg hs]

end Config

/-- What becomes of a value that is written and read. -/
def readBack (v : Text) : Text := joinLines ((v.splitOn '\n').map strip)

/-- Of a value without line breaks only the white space around it is lost. -/
theorem readBack_of_unbroken {v : Text} (h : Unbroken v) : readBack v = strip v := by
  rw [readBack, splitOn_of_unbroken h, List.map_singleton, joinLines, List.intercalate_singleton]
  exact rstrip_eq_self (strip_trimmed v).last

section Steps
variable {L : Lowercase} {noValue : Bool} {base : Config (Option (List Text))} {s k v : Text}
  {acc : Dict Text (Option (List Text))} {o : Option Text}

/-- Reading has come to a section that has these options so far. -/
def atSection (base : Config (Option (List Text))) (s : Text) (acc : Dict Text (Option (List Text)))
    (o : Option Text) : Reading := ⟨base.update s fun _ => acc,some s,o,0⟩

theorem isComment_append (hk : k ≠ []) (t : Text) : isComment (k ++ t) = isComment k := by
  cases k with
  | nil => exact absurd rfl hk
  | cons c k => rfl

theorem append_atSection (hs : base.Has s) (hk : k ∉ acc.keys) (ls : List Text) (value : Text) :
    (atSection base s (acc ++ [(k,some ls)]) (some k)).append value =
      .ok (atSection base s (acc ++ [(k,some (ls ++ [value]))]) (some k)) := by
  have hget : Dict.get? k (acc ++ [(k,some ls)]) = some (some ls) := by
    rw [Dict.get?_append, Dict.get?_eq_none_iff.mpr hk]
    simp [Dict.get?]
  have hmodify : Dict.modify k (Option.map (· ++ [value])) (acc ++ [(k,some ls)]) =
      acc ++ [(k,some (ls ++ [value]))] := by
    rw [Dict.modify_append_of_notMem hk]
    simp [Dict.modify]
  simp only [Reading.append, atSection, Config.options_update hs, hget, Config.update_update,
    Function.comp_def, hmodify]

/-- A line that begins an option or a section: it is not indented and no comment. -/
theorem readLine_atSection {line value : Text} (hvalue : strip line = value)
    (hcomment : isComment value = false) (hne : value ≠ []) (hlevel : line.takeWhile isSpace = []) :
    Reading.readLine L noValue (atSection base s acc o) line =
      match header? value with
      | some name => (atSection base s acc o).startSection 0 name
      | none => (atSection base s acc o).startOption L noValue 0 s value := by
  cases hheader : header? value <;>
    simp only [Reading.readLine, hvalue, hcomment, Bool.false_eq_true, if_false, hne, hlevel,
      List.length_nil, atSection, lt_irrefl, and_false, hheader]

theorem takeWhile_isSpace_append (hk : Plain L k) (t : Text) : (k ++ t).takeWhile isSpace = [] := by
  cases k with
  | nil => exact absurd rfl hk.ne_nil
  | cons c k => exact List.takeWhile_cons_of_neg (by simp [hk.trimmed.head c rfl])

theorem strip_append (hk : Plain L k) (t : Text) : strip (k ++ t) = rstrip (k ++ t) := by
  refine strip_eq_rstrip fun c hc => hk.trimmed.head c ?_
  cases k with
  | nil => exact absurd rfl hk.ne_nil
  | cons d k => exact hc

theorem splitOption_append (hk : Plain L k) (t : Text) :
    splitOption (k ++ ' ' :: '=' :: t) = (k,some t) := by
  have hstop : ∀ c ∈ k ++ [' '], (!isDelimiter c) = true := by
    intro c hc
    rcases List.mem_append.mp hc with hc | hc
    · rw [hk.delimiter c hc]
      rfl
    · obtain rfl := List.mem_singleton.mp hc
      rfl
  have happend : k ++ ' ' :: '=' :: t = (k ++ [' ']) ++ '=' :: t := by simp
  have hrstrip : rstrip (k ++ [' ']) = k := by
    rw [rstrip, List.rdropWhile_concat_pos _ _ _ rfl]
    exact rstrip_eq_self hk.trimmed.last
  rw [splitOption, happend, List.takeWhile_append_of_pos hstop, List.dropWhile_append_of_pos hstop]
  simp [isDelimiter, hrstrip]

/-- An option with the first line of its value. -/
theorem readLine_option (hs : base.Has s) (hk : Plain L k) (hnew : k ∉ acc.keys)
    (hheader : header? (k ++ " = ".toList ++ v) = none) :
    Reading.readLine L noValue (atSection base s acc o) (k ++ " = ".toList ++ v) =
      .ok (atSection base s (acc ++ [(k,some [strip v])]) (some k)) := by
  have hline : k ++ " = ".toList ++ v = k ++ ' ' :: '=' :: ' ' :: v := by simp
  have hrstrip : rstrip (k ++ ' ' :: '=' :: ' ' :: v) = k ++ ' ' :: '=' :: rstrip (' ' :: v) := by
    have h := rstrip_append_of_last (c := '=') rfl (k ++ [' ']) (' '::v)
    simpa using h
  have hvalue : strip (k ++ " = ".toList ++ v) = k ++ ' ' :: '=' :: rstrip (' ' :: v) := by
    rw [hline, strip_append hk, hrstrip]
  have hnone : header? (k ++ ' ' :: '=' :: rstrip (' ' :: v)) = none := by
    refine header?_begins ?_ hheader
    rw [hline, ← hrstrip]
    exact rstrip_begins _
  rw [readLine_atSection hvalue ((isComment_append hk.ne_nil _).trans hk.comment)
    (List.append_ne_nil_of_left_ne_nil hk.ne_nil _)
    (by rw [List.append_assoc]; exact takeWhile_isSpace_append hk _), hnone]
  have hstrip : strip (rstrip (' '::v)) = strip v := by
    rw [strip_rstrip, strip_cons_of_isSpace rfl]
  have hnew' : k ∉ ((atSection base s acc o).config.options s).keys := by
    rw [atSection, Config.options_update hs]
    exact hnew
  simp only [Reading.startOption, splitOption_append hk, hk.lower, hk.ne_nil, reduceCtorEq, false_and,
    or_self, if_false, hnew', Option.map_some, hstrip]
  simp [atSection, Config.update_update, Function.comp_def]

/-- An option without a value. -/
theorem readLine_key (hs : base.Has s) (hk : Plain L k) (hnew : k ∉ acc.keys) :
    Reading.readLine L true (atSection base s acc o) k =
      .ok (atSection base s (acc ++ [(k,none)]) (some k)) := by
  have hlevel := takeWhile_isSpace_append hk []
  rw [List.append_nil] at hlevel
  rw [readLine_atSection (strip_eq_self hk.trimmed) hk.comment hk.ne_nil hlevel, hk.header]
  have hstop : ∀ c ∈ k, (!isDelimiter c) = true := fun c hc => by simp [hk.delimiter c hc]
  have hsplit : splitOption k = (k,none) := by
    rw [splitOption, List.takeWhile_eq_self_iff.mpr hstop, List.dropWhile_eq_nil_iff.mpr hstop,
      rstrip_eq_self hk.trimmed.last]
  have hnew' : k ∉ ((atSection base s acc o).config.options s).keys := by
    rw [atSection, Config.options_update hs]
    exact hnew
  simp only [Reading.startOption, hsplit, hk.lower, hk.ne_nil, not_true_eq_false, and_false,
    or_self, if_false, hnew', Option.map_none]
  simp [atSection, Config.update_update, Function.comp_def]

/-- A further line of a value. -/
theorem readLine_more (hs : base.Has s) (hk : k ∉ acc.keys) (ls : List Text)
    (hcomment : isComment (strip v) = false) :
    Reading.readLine L noValue (atSection base s (acc ++ [(k,some ls)]) (some k)) ('\t'::v) =
      .ok (atSection base s (acc ++ [(k,some (ls ++ [strip v]))]) (some k)) := by
  have happend := append_atSection hs hk ls (strip v)
  have hlevel : 0 < (List.takeWhile isSpace ('\t'::v)).length := by
    rw [List.takeWhile_cons_of_pos rfl]
    exact Nat.succ_pos _
  simp only [Reading.readLine, strip_cons_of_isSpace (c := '\t') rfl, hcomment, Bool.false_eq_true,
    if_false]
  by_cases hnil : strip v = []
  · rw [hnil] at happend ⊢
    rw [if_pos rfl, Reading.blank, happend]
  · rw [if_neg hnil, if_pos ⟨rfl,rfl,hlevel⟩, happend]

end Steps

section Options
variable (L : Lowercase) (noValue : Bool)

/-- What can be written of a value so that it is read as a whole: it has no carriage return, begins no
section header, and none of its further lines is a comment. -/
structure WritableValue (k v : Text) : Prop where
  carriageReturn : '\r' ∉ v
  header : header? (k ++ " = ".toList ++ (v.splitOn '\n').headD []) = none
  comment : ∀ l ∈ (v.splitOn '\n').tail, isComment (strip l) = false

theorem writableValue_of_unbroken {k v : Text} (h : Unbroken v) (hk : k ≠ []) (hhead : k.head? ≠ some '[') :
    WritableValue k v := by
  refine ⟨fun hmem => absurd (h _ hmem) (by decide),header?_eq_none_iff.mpr fun n t ht => ?_,?_⟩
  · cases k with
    | nil => exact absurd rfl hk
    | cons c k => exact absurd (congrArg some (List.cons.inj ht).1) hhead
  · rw [splitOn_of_unbroken h]
    exact nofun

/-- An option that can be written. -/
def WritableOption (k : Text) (v : Option Text) : Prop :=
  Plain L k ∧ match v with
    | none => noValue = true
    | some v => WritableValue k v

/-- The lines that are written for an option. -/
def optionLines (k : Text) : Option Text → List Text
  | none => [k]
  | some v => (k ++ " = ".toList ++ (v.splitOn '\n').headD [])::(v.splitOn '\n').tail.map ('\t'::·)

def optionsLines (options : Dict Text (Option Text)) : List Text :=
  options.flatMap fun p => optionLines p.1 p.2

/-- The lines that are written for a section. -/
def sectionLines (name : Text) (options : Dict Text (Option Text)) : List Text :=
  ('['::(name ++ [']']))::(optionsLines options ++ [[]])

/-- How the lines of a value are read. -/
def toLines (v : Text) : List Text := (v.splitOn '\n').map strip

variable {L noValue}

theorem splitOn_cons (v : Text) : ∃ l ls, v.splitOn '\n' = l::ls := by
  cases h : v.splitOn '\n' with
  | nil => exact absurd h (List.splitOn_ne_nil _ _)
  | cons l ls => exact ⟨l,ls,rfl⟩

theorem unlines_cons (l : Text) (ls : List Text) : unlines (l::ls) = l ++ '\n'::unlines ls := by
  simp [unlines]

theorem unlines_append (ls ls' : List Text) : unlines (ls ++ ls') = unlines ls ++ unlines ls' :=
  List.flatMap_append

theorem intercalate_eq_unlines (l : Text) (ls : List Text) :
    ['\n','\t'].intercalate (l::ls) ++ ['\n'] = unlines (l::ls.map ('\t'::·)) := by
  induction ls generalizing l with
  | nil => simp [unlines]
  | cons l' ls ih =>
    rw [List.intercalate_cons_cons, List.append_assoc, ih, List.map_cons, unlines_cons l,
      unlines_cons, unlines_cons]
    simp

theorem optionText_eq_unlines {k : Text} {v : Option Text} (h : WritableOption L noValue k v) :
    optionText noValue k v = unlines (optionLines k v) := by
  cases v with
  | none =>
    have hnoValue : noValue = true := h.2
    simp [optionText, optionLines, unlines, hnoValue]
  | some v =>
    obtain ⟨l,ls,hv⟩ := splitOn_cons v
    have hlines := intercalate_eq_unlines l ls
    rw [unlines_cons] at hlines
    simp only [optionText, optionLines, hv, List.headD_cons, List.tail_cons, unlines_cons]
    rw [List.append_assoc, hlines, ← List.append_assoc]

theorem unbroken_optionLines {k : Text} {v : Option Text} (h : WritableOption L noValue k v) :
    ∀ l ∈ optionLines k v, Unbroken l := by
  cases v with
  | none =>
    intro l hl
    obtain rfl := List.mem_singleton.mp hl
    exact h.1.unbroken
  | some v =>
    have hpart : ∀ l ∈ v.splitOn '\n', Unbroken l := by
      intro l hl c hc
      obtain ⟨hnewline,hsub⟩ := newline_notMem_of_mem_splitOn hl
      refine Bool.eq_false_iff.mpr fun hbreak => ?_
      rcases Bool.or_eq_true_iff.mp hbreak with hb | hb
      · exact hnewline (beq_iff_eq.mp hb ▸ hc)
      · exact h.2.carriageReturn (beq_iff_eq.mp hb ▸ hsub hc)
    obtain ⟨l,ls,hv⟩ := splitOn_cons v
    simp only [optionLines, hv, List.headD_cons, List.tail_cons, List.forall_mem_cons] at hpart ⊢
    have hequals : Unbroken " = ".toList := by decide
    refine ⟨(h.1.unbroken.append hequals).append hpart.1,fun l' hl' => ?_⟩
    · obtain ⟨l'',hl'',rfl⟩ := List.mem_map.mp hl'
      exact (hpart.2 l'' hl'').cons rfl

variable {base : Config (Option (List Text))} {s : Text}

theorem read_more (L : Lowercase) (noValue : Bool) (hs : base.Has s)
    {acc : Dict Text (Option (List Text))} {k : Text} (hk : k ∉ acc.keys) (rest : List Text) (h : ∀ l ∈ rest, isComment (strip l) = false)
    (ls : List Text) :
    (rest.map ('\t'::·)).foldlM (Reading.readLine L noValue)
        (atSection base s (acc ++ [(k,some ls)]) (some k)) =
      .ok (atSection base s (acc ++ [(k,some (ls ++ rest.map strip))]) (some k)) := by
  induction rest generalizing ls with
  | nil => simp; rfl
  | cons l rest ih =>
    obtain ⟨hl,hrest⟩ := List.forall_mem_cons.mp h
    rw [List.map_cons, List.foldlM_cons, readLine_more hs hk ls hl]
    have := ih hrest (ls ++ [strip l])
    simpa [bind, Except.bind] using this

/-- An option is read as it has been written, up to white space around the lines of its value. -/
theorem read_option (hs : base.Has s) {acc : Dict Text (Option (List Text))} {k : Text}
    {v : Option Text} (h : WritableOption L noValue k v) (hk : k ∉ acc.keys) (o : Option Text) :
    (optionLines k v).foldlM (Reading.readLine L noValue) (atSection base s acc o) =
      .ok (atSection base s (acc ++ [(k,v.map toLines)]) (some k)) := by
  cases v with
  | none =>
    obtain rfl : noValue = true := h.2
    rw [optionLines, List.foldlM_cons, readLine_key hs h.1 hk]
    rfl
  | some v =>
    obtain ⟨hplain,_,hheader,hcomment⟩ := h
    obtain ⟨l,ls,hv⟩ := splitOn_cons v
    rw [hv] at hheader hcomment
    rw [optionLines, hv, List.foldlM_cons, readLine_option hs hplain hk hheader]
    have := read_more L noValue hs hk ls hcomment [strip l]
    simpa [bind, Except.bind, toLines, hv] using this

theorem intercalate_concat {ls : List Text} (hne : ls ≠ []) (l : Text) :
    ['\n'].intercalate (ls ++ [l]) = ['\n'].intercalate ls ++ '\n'::l := by
  induction ls with
  | nil => exact absurd rfl hne
  | cons l' ls ih =>
    cases ls with
    | nil => simp
    | cons l'' ls =>
      have := ih (List.cons_ne_nil _ _)
      simp only [List.cons_append, List.intercalate_cons_cons] at this ⊢
      simp [this]

/-- White space behind the lines of a value does not matter. -/
theorem joinLines_concat_nil {ls : List Text} (hne : ls ≠ []) :
    joinLines (ls ++ [[]]) = joinLines ls := by
  rw [joinLines, intercalate_concat hne, rstrip, List.rdropWhile_concat_pos _ _ _ rfl]
  rfl

theorem mapValues_concat {α β : Type} (f : α → β) (d : Dict Text α) (p : Text × α) :
    Dict.mapValues f (d ++ [p]) = d.mapValues f ++ [(p.1,f p.2)] := List.map_append

/-- The options of a section are read back; the last of them is the current one. -/
theorem read_options (hs : base.Has s) (options : Dict Text (Option Text))
    (h : ∀ p ∈ options, WritableOption L noValue p.1 p.2) (hnodup : options.keys.Nodup) :
    (optionsLines options).foldlM (Reading.readLine L noValue) (atSection base s [] none) =
      .ok (atSection base s (options.mapValues (Option.map toLines))
        (options.getLast?.map Prod.fst)) := by
  induction options using List.reverseRecOn with
  | nil => rfl
  | append_singleton options p ih =>
    obtain ⟨hinit,hlast⟩ := List.forall_mem_append.mp h
    have hp := hlast p (List.mem_singleton_self p)
    rw [Dict.keys_append, List.nodup_append] at hnodup
    obtain ⟨hnodup,_,hdisjoint⟩ := hnodup
    have hnew : p.1 ∉ (Dict.mapValues (Option.map toLines) options).keys := by
      rw [Dict.keys_mapValues]
      exact fun hmem => hdisjoint p.1 hmem p.1 (List.mem_singleton_self _) rfl
    rw [optionsLines, List.flatMap_append, List.foldlM_append, ← optionsLines, ih hinit hnodup,
      List.flatMap_singleton, mapValues_concat, List.getLast?_concat]
    exact read_option hs hp hnew _

/-- The empty line behind a section adds nothing to the last value. -/
theorem read_section_body (hs : base.Has s) (options : Dict Text (Option Text))
    (h : ∀ p ∈ options, WritableOption L noValue p.1 p.2) (hnodup : options.keys.Nodup) :
    ∃ acc o, (optionsLines options ++ [[]]).foldlM (Reading.readLine L noValue)
        (atSection base s [] none) = .ok (atSection base s acc o) ∧
      acc.mapValues (Option.map joinLines) = options.mapValues (Option.map readBack) := by
  have hback : ∀ options : Dict Text (Option Text), Dict.mapValues (Option.map joinLines)
      (options.mapValues (Option.map toLines)) = options.mapValues (Option.map readBack) := by
    intro options
    simp only [Dict.mapValues, List.map_map]
    refine List.map_congr_left fun p _ => ?_
    obtain ⟨k,v⟩ := p
    cases v <;> rfl
  have hfold : ∀ r, (optionsLines options ++ [[]]).foldlM (Reading.readLine L noValue)
      (atSection base s [] none) = .ok r ↔
      (atSection base s (options.mapValues (Option.map toLines))
        (options.getLast?.map Prod.fst)).blank = r := by
    intro r
    rw [List.foldlM_append, read_options hs options h hnodup]
    exact ⟨Except.ok.inj,congrArg Except.ok⟩
  simp only [hfold]
  cases options using List.reverseRecOn with
  | nil => exact ⟨[],none,rfl,rfl⟩
  | append_singleton init p =>
    obtain ⟨k,v⟩ := p
    have hk : k ∉ (Dict.mapValues (Option.map toLines) init).keys := by
      rw [Dict.keys_append, List.nodup_append] at hnodup
      rw [Dict.keys_mapValues]
      exact fun hmem => hnodup.2.2 k hmem k (List.mem_singleton_self _) rfl
    rw [List.getLast?_concat, Option.map_some, mapValues_concat]
    cases v with
    | none =>
      have hget : Dict.get? k (Dict.mapValues (Option.map toLines) init ++ [(k,none)]) = some none := by
        rw [Dict.get?_append, Dict.get?_eq_none_iff.mpr hk]
        simp [Dict.get?]
      refine ⟨Dict.mapValues (Option.map toLines) init ++ [(k,none)],some k,?_,?_⟩
      · simp only [Reading.blank, Reading.append, atSection, Config.options_update hs, hget,
          Option.map_none]
      · rw [← hback, mapValues_concat (Option.map toLines)]
        rfl
    | some v =>
      refine ⟨Dict.mapValues (Option.map toLines) init ++ [(k,some (toLines v ++ [[]]))],some k,?_,?_⟩
      · rw [Reading.blank, Option.map_some, append_atSection hs hk (toLines v) []]
      · rw [mapValues_concat, hback, mapValues_concat, Option.map_some, Option.map_some,
          joinLines_concat_nil (by simp [toLines])]
        rfl

/-- A configuration that can be written. -/
structure Writable (L : Lowercase) (noValue : Bool) (c : Config (Option Text)) : Prop where
  nodup : c.sections.keys.Nodup
  names : ∀ s ∈ c.sections.keys, s ≠ defaultSection ∧ s ≠ [] ∧ Unbroken s
  options : ∀ options ∈ c.defaults::c.sections.map Prod.snd,
    options.keys.Nodup ∧ ∀ p ∈ options, WritableOption L noValue p.1 p.2

theorem sectionText_eq_unlines {options : Dict Text (Option Text)}
    (h : ∀ p ∈ options, WritableOption L noValue p.1 p.2) (name : Text) :
    sectionText noValue name options = unlines (sectionLines name options) := by
  have hoptions : (options.flatMap fun p => optionText noValue p.1 p.2) =
      unlines (optionsLines options) := by
    rw [optionsLines, unlines, List.flatMap_assoc]
    exact List.flatMap_congr fun p hp => optionText_eq_unlines (h p hp)
  rw [sectionText, hoptions, sectionLines, unlines_cons, unlines_append]
  simp [unlines]

theorem unbroken_sectionLines {options : Dict Text (Option Text)}
    (h : ∀ p ∈ options, WritableOption L noValue p.1 p.2) {name : Text} (hname : Unbroken name) :
    ∀ l ∈ sectionLines name options, Unbroken l := by
  intro l hl
  rcases List.mem_cons.mp hl with rfl | hl
  · exact (hname.append (unbroken_nil.cons rfl)).cons rfl
  · rcases List.mem_append.mp hl with hl | hl
    · obtain ⟨p,hp,hl⟩ := List.mem_flatMap.mp hl
      exact unbroken_optionLines (h p hp) l hl
    · obtain rfl := List.mem_singleton.mp hl
      exact unbroken_nil

/-- The header of a new section. -/
theorem readLine_header (r : Reading) (hlevel : r.indentLevel = 0) {name : Text} (hne : name ≠ []) :
    Reading.readLine L noValue r ('['::(name ++ [']'])) = r.startSection 0 name := by
  have htrimmed : Trimmed ('['::(name ++ [']'])) := by
    refine ⟨fun c hc => by cases hc; rfl,fun c hc => ?_⟩
    rw [← List.cons_append, List.getLast?_concat] at hc
    cases hc
    rfl
  have htake : List.takeWhile isSpace ('['::(name ++ [']'])) = [] := List.takeWhile_cons_of_neg (by decide)
  simp only [Reading.readLine, strip_eq_self htrimmed, header?_bracketed hne, htake, hlevel,
    List.length_nil, lt_irrefl, and_false, if_false, reduceCtorEq]
  rfl

theorem update_last {α : Type} {c : Config α} {name : Text} (hname : name ≠ defaultSection)
    (hnew : name ∉ c.sections.keys) (options : Dict Text α) (f : Dict Text α → Dict Text α) :
    Config.update name f { c with sections := c.sections ++ [(name,options)] } =
      { c with sections := c.sections ++ [(name,f options)] } := by
  rw [Config.update, if_neg hname, Dict.modify_append_of_notMem hnew]
  simp [Dict.modify]

/-- A section is read back behind those before it. -/
theorem read_section (r : Reading) (hlevel : r.indentLevel = 0) {name : Text}
    (hname : name ≠ defaultSection) (hne : name ≠ []) (hnew : name ∉ r.config.sections.keys)
    {options : Dict Text (Option Text)} (h : ∀ p ∈ options, WritableOption L noValue p.1 p.2)
    (hnodup : options.keys.Nodup) :
    ∃ r', (sectionLines name options).foldlM (Reading.readLine L noValue) r = .ok r' ∧
      r'.indentLevel = 0 ∧
      r'.config.map (Option.map joinLines) = ⟨r.config.defaults.mapValues (Option.map joinLines),
        r.config.sections.mapValues (Dict.mapValues (Option.map joinLines)) ++
          [(name,options.mapValues (Option.map readBack))]⟩ := by
  set base : Config (Option (List Text)) :=
    { r.config with sections := r.config.sections ++ [(name,[])] } with hbase
  have hs : base.Has name := .inr (by simp [hbase, Dict.keys])
  have hstart : r.startSection 0 name = .ok (atSection base name [] none) := by
    rw [Reading.startSection, if_neg hname, if_neg hnew, atSection, hbase, update_last hname hnew]
  obtain ⟨acc,o,hr,hacc⟩ := read_section_body hs options h hnodup
  refine ⟨atSection base name acc o,?_,rfl,?_⟩
  · rw [sectionLines, List.foldlM_cons, readLine_header r hlevel hne, hstart]
    exact hr
  · rw [atSection, hbase, update_last hname hnew, Config.map]
    simp only [Dict.mapValues, List.map_append, List.map_cons, List.map_nil] at hacc ⊢
    rw [hacc]

/-- The default section comes first. -/
theorem read_defaults {options : Dict Text (Option Text)}
    (h : ∀ p ∈ options, WritableOption L noValue p.1 p.2) (hnodup : options.keys.Nodup) :
    ∃ r', (sectionLines defaultSection options).foldlM (Reading.readLine L noValue) {} = .ok r' ∧
      r'.indentLevel = 0 ∧
      r'.config.map (Option.map joinLines) = ⟨options.mapValues (Option.map readBack),[]⟩ := by
  have hs : Config.Has defaultSection ({} : Config (Option (List Text))) := .inl rfl
  obtain ⟨acc,o,hr,hacc⟩ := read_section_body hs options h hnodup
  refine ⟨atSection {} defaultSection acc o,?_,rfl,?_⟩
  · rw [sectionLines, List.foldlM_cons, readLine_header {} rfl (by decide)]
    exact hr
  · rw [← hacc]
    rfl

theorem read_sections (sections : Dict Text (Dict Text (Option Text)))
    (hnodup : sections.keys.Nodup)
    (hnames : ∀ s ∈ sections.keys, s ≠ defaultSection ∧ s ≠ [] ∧ Unbroken s)
    (h : ∀ options ∈ sections.map Prod.snd,
      options.keys.Nodup ∧ ∀ p ∈ options, WritableOption L noValue p.1 p.2)
    (r : Reading) (hlevel : r.indentLevel = 0)
    (hnew : ∀ s ∈ sections.keys, s ∉ r.config.sections.keys) :
    ∃ r', (sections.flatMap fun p => sectionLines p.1 p.2).foldlM (Reading.readLine L noValue) r =
        .ok r' ∧
      r'.config.map (Option.map joinLines) = ⟨r.config.defaults.mapValues (Option.map joinLines),
        r.config.sections.mapValues (Dict.mapValues (Option.map joinLines)) ++
          sections.mapValues (Dict.mapValues (Option.map readBack))⟩ := by
  induction sections generalizing r with
  | nil =>
    refine ⟨r,rfl,?_⟩
    simp [Config.map, Dict.mapValues]
  | cons p sections ih =>
    obtain ⟨name,options⟩ := p
    obtain ⟨hfresh,hnodup⟩ := List.nodup_cons.mp hnodup
    obtain ⟨⟨hname,hne,_⟩,hnames⟩ := List.forall_mem_cons.mp hnames
    obtain ⟨⟨hoptions,hwritable⟩,h⟩ := List.forall_mem_cons.mp h
    obtain ⟨hnot,hnew⟩ := List.forall_mem_cons.mp hnew
    obtain ⟨r₁,hr₁,hlevel₁,hmap₁⟩ := read_section r hlevel hname hne hnot
      hwritable hoptions
    have hkeys : r₁.config.sections.keys = r.config.sections.keys ++ [name] := by
      have := congrArg (fun c : Config (Option Text) => c.sections.keys) hmap₁
      simpa [Config.map] using this
    obtain ⟨r₂,hr₂,hmap₂⟩ := ih hnodup hnames h r₁ hlevel₁ fun s hs => by
      rw [hkeys, List.mem_append, List.mem_singleton]
      rintro (hmem | rfl)
      · exact hnew s hs hmem
      · exact hfresh hs
    refine ⟨r₂,?_,?_⟩
    · rw [List.flatMap_cons, List.foldlM_append, hr₁]
      exact hr₂
    · simp only [Config.map, Config.mk.injEq] at hmap₁ hmap₂ ⊢
      rw [hmap₂.1, hmap₁.1, hmap₂.2, hmap₁.2]
      simp [Dict.mapValues]

end Options

/-- What is read of a configuration that has been written. -/
theorem read_write {L : Lowercase} {noValue : Bool} {c : Config (Option Text)}
    (h : Writable L noValue c) :
    read L noValue (write noValue c) = .ok (c.map (Option.map readBack)) := by
  obtain ⟨hnodup,hnames,hoptions⟩ := h
  obtain ⟨⟨hdefaults,hwritable⟩,hsections⟩ := List.forall_mem_cons.mp hoptions
  set sections := c.sections.flatMap fun p => sectionLines p.1 p.2 with hsectionLines
  have htext : (c.sections.flatMap fun p => sectionText noValue p.1 p.2) = unlines sections := by
    rw [hsectionLines, unlines, List.flatMap_assoc]
    refine List.flatMap_congr fun p hp => sectionText_eq_unlines (L := L) ?_ p.1
    exact (hsections p.2 (List.mem_map_of_mem hp)).2
  have hunbroken : ∀ l ∈ sections, Unbroken l := by
    intro l hl
    obtain ⟨p,hp,hl⟩ := List.mem_flatMap.mp hl
    exact unbroken_sectionLines (hsections p.2 (List.mem_map_of_mem hp)).2
      (hnames p.1 (List.mem_map_of_mem hp)).2.2 l hl
  -- the default section is written if it has options
  obtain ⟨ls,r,hls,hlsUnbroken,hr,hlevel,hmap⟩ : ∃ ls r,
      (if c.defaults = [] then [] else sectionText noValue defaultSection c.defaults) = unlines ls ∧
      (∀ l ∈ ls, Unbroken l) ∧ ls.foldlM (Reading.readLine L noValue) {} = .ok r ∧
      r.indentLevel = 0 ∧
      r.config.map (Option.map joinLines) = ⟨c.defaults.mapValues (Option.map readBack),[]⟩ := by
    by_cases hnil : c.defaults = []
    · refine ⟨[],{},by rw [if_pos hnil]; rfl,List.forall_mem_nil _,rfl,rfl,?_⟩
      rw [hnil]
      rfl
    · obtain ⟨r,hr,hlevel,hmap⟩ := read_defaults hwritable hdefaults
      refine ⟨_,r,by rw [if_neg hnil]; exact sectionText_eq_unlines hwritable _,?_,hr,hlevel,hmap⟩
      exact unbroken_sectionLines hwritable (by decide)
  have hempty : r.config.sections.keys = [] := by
    have := congrArg (fun c : Config (Option Text) => c.sections.keys) hmap
    simpa [Config.map] using this
  obtain ⟨r',hr',hmap'⟩ := read_sections c.sections hnodup hnames
    hsections r hlevel (by rw [hempty]; exact fun _ _ => List.not_mem_nil)
  have hlines : lines (write noValue c) = ls ++ sections := by
    rw [write, hls, htext, ← unlines_append]
    exact lines_unlines (List.forall_mem_append.mpr ⟨hlsUnbroken,hunbroken⟩)
  have hfold : (lines (write noValue c)).foldlM (Reading.readLine L noValue) {} = .ok r' := by
    rw [hlines, List.foldlM_append, hr]
    exact hr'
  rw [read, hfold]
  simp only [Config.map, Config.mk.injEq] at hmap hmap' ⊢
  refine congrArg Except.ok ?_
  rw [Config.mk.injEq, hmap'.1, hmap.1, hmap'.2, hmap.2]
  exact ⟨rfl,rfl⟩

end Ini
end PeerConnect.Library
