import PeerConnect.Library.Ini

/-! The values of a configuration may refer to each other. -/
namespace PeerConnect.Library
open Text

namespace Ini

/-- A reference at the front of a text, which is a name in `%(…)s`, and what is behind it. -/
def reference? : Text → Option (Text × Text)
  | '%' :: '(' :: t =>
    match t.dropWhile (· != ')') with
    | ')' :: 's' :: rest =>
      let name := t.takeWhile (· != ')')
      if name = [] then none else some (name,rest)
    | _ => none
  | _ => none

theorem reference?_eq {t name rest : Text} (h : reference? t = some (name,rest)) :
    t = '%' :: '(' :: (name ++ ')' :: 's' :: rest) := by
  unfold reference? at h
  split at h
  next t =>
    split at h
    next hdrop =>
      dsimp only at h
      split at h
      next => cases h
      next =>
        cases h
        rw [← hdrop, List.takeWhile_append_dropWhile]
    next => cases h
  next => cases h

theorem reference?_length {t name rest : Text} (h : reference? t = some (name,rest)) :
    rest.length < t.length := by
  rw [reference?_eq h]
  simp
  omega

/-- `value.replace('%%', '')` -/
def removeDoubled : Text → Text
  | '%' :: '%' :: t => removeDoubled t
  | c::t => c::removeDoubled t
  | [] => []

/-- Without the references in it. -/
def removeReferences : Text → Text
  | [] => []
  | c::t =>
    match _h : reference? (c::t) with
    | some (_,rest) => removeReferences rest
    | none => c::removeReferences t
  termination_by t => t.length
  decreasing_by
  · exact reference?_length ‹_›
  · exact Nat.lt_succ_self _

/-- `before_set`: a percent sign that is not doubled begins a reference. -/
def beforeSet (value : Text) : Except Error Text :=
  if '%' ∈ removeReferences (removeDoubled value) then .error .value else .ok value

/-- `_interpolate_some`, with what a reference is resolved to. -/
def expand (resolve : Text → Except Error Text) : Text → Except Error Text
  | [] => .ok []
  | '%' :: '%' :: t => ('%' :: ·) <$> expand resolve t
  | '%'::t =>
    match _h : reference? ('%'::t) with
    | some (name,rest) => do
      let v ← resolve name
      (v ++ ·) <$> expand resolve rest
    | none => .error .interpolation
  | c::t => (c::·) <$> expand resolve t
  termination_by t => t.length
  decreasing_by
  · exact Nat.lt_succ_of_lt (Nat.lt_succ_self _)
  · exact reference?_length ‹_›
  · exact Nat.lt_succ_self _

/-- What a name refers to; it may refer to others in turn. -/
def resolveReference (L : Lowercase) (d : Dict Text Text) (next : Text → Except Error Text)
    (name : Text) : Except Error Text :=
  match d.get? (L.lower name) with
  | none => .error .interpolation
  | some v => if '%' ∈ v then next v else .ok v

def maxInterpolationDepth : ℕ := 10

/-- `before_get`, up to a depth. -/
def interpolate (L : Lowercase) (d : Dict Text Text) : ℕ → Text → Except Error Text
  | 0,_ => .error .interpolation
  | n+1,value => expand (resolveReference L d (interpolate L d n)) value

/-- One more option of a section; a name that has been there is an error. -/
def addOption (L : Lowercase) (options : Dict Text (Option Text)) (p : Text × Text) :
    Except Error (Dict Text (Option Text)) :=
  if L.lower p.1 ∈ options.keys then .error .duplicateOption
  else do
    let value ← beforeSet p.2
    pure (options ++ [(L.lower p.1,some value)])

/-- `config[section] = setting` -/
def Config.setItem (L : Lowercase) (s : Text) (setting : Dict Text Text) (c : Config (Option Text)) :
    Except Error (Config (Option Text)) := do
  let options ← setting.foldlM (addOption L) []
  pure (if s = defaultSection then { c with defaults := options }
    else { c with sections := c.sections.set s options })

/-- One section after the other. -/
def Config.setItems (L : Lowercase) (settings : Dict Text (Dict Text Text)) (c : Config (Option Text)) :
    Except Error (Config (Option Text)) := settings.foldlM (fun c p => c.setItem L p.1 p.2) c

/-- `config.items(section)`, for a configuration whose options have values. -/
def Config.items (L : Lowercase) (s : Text) (c : Config (Option Text)) :
    Except Error (Dict Text Text) :=
  let d : Dict Text Text := (c.defaults.update (c.options s)).filterMap fun p => p.2.map (p.1,·)
  d.traverse fun _ value => interpolate L d maxInterpolationDepth value

section Plain
variable {t : Text}

theorem reference?_of_notMem (h : '%' ∉ t) : reference? t = none := by
  cases hr : reference? t with
  | none => rfl
  | some p =>
    obtain ⟨name,rest⟩ := p
    rw [reference?_eq hr] at h
    simp at h

theorem removeDoubled_of_notMem (h : '%' ∉ t) : removeDoubled t = t := by
  fun_induction removeDoubled t with
  | case1 t ih => simp at h
  | case2 c t _ ih => rw [ih fun hmem => h (List.mem_cons_of_mem c hmem)]
  | case3 => rfl

theorem removeReferences_of_notMem (h : '%' ∉ t) : removeReferences t = t := by
  fun_induction removeReferences t with
  | case1 => rfl
  | case2 c t name rest hr ih => rw [reference?_of_notMem h] at hr; cases hr
  | case3 c t hr ih => rw [ih fun hmem => h (List.mem_cons_of_mem c hmem)]

theorem beforeSet_of_notMem (h : '%' ∉ t) : beforeSet t = .ok t := by
  rw [beforeSet, removeDoubled_of_notMem h, removeReferences_of_notMem h, if_neg h]

theorem expand_of_notMem (resolve : Text → Except Error Text) (h : '%' ∉ t) :
    expand resolve t = .ok t := by
  fun_induction expand resolve t with
  | case1 => rfl
  | case2 t ih => simp at h
  | case3 t => simp at h
  | case4 t => simp at h
  | case5 c t _ _ ih =>
    rw [ih fun hmem => h (List.mem_cons_of_mem c hmem)]
    rfl

theorem interpolate_of_notMem (L : Lowercase) (d : Dict Text Text) (n : ℕ) (h : '%' ∉ t) :
    interpolate L d (n+1) t = .ok t := expand_of_notMem _ h

end Plain

section References
variable {resolve resolve' : Text → Except Error Text} {t out : Text}

theorem map_eq_ok {α β : Type} {f : α → β} {x : Except Error α} {b : β} (h : f <$> x = .ok b) :
    ∃ a, x = .ok a ∧ f a = b := by
  cases x with
  | error e => cases h
  | ok a => cases h; exact ⟨a,rfl,rfl⟩

/-- It is enough that what is resolved is resolved in the same way. -/
theorem expand_mono (h : ∀ name v, resolve name = .ok v → resolve' name = .ok v)
    (hr : expand resolve t = .ok out) : expand resolve' t = .ok out := by
  fun_induction expand resolve t generalizing out with
  | case1 => cases hr; rw [expand]
  | case2 t ih =>
    obtain ⟨out',hout,rfl⟩ := map_eq_ok hr
    rw [expand, ih hout]
    rfl
  | case3 t hne name rest href ih =>
    cases hv : resolve name with
    | error e => rw [hv] at hr; cases hr
    | ok v =>
      rw [hv] at hr
      obtain ⟨out',hout,rfl⟩ := map_eq_ok hr
      rw [expand.eq_3 _ _ hne]
      split
      next name' rest' href' =>
        cases href.symm.trans href'
        rw [h name v hv, ih hout]
        rfl
      next href' => cases href.symm.trans href'
  | case4 t hne href => cases hr
  | case5 c t hdoubled hne ih =>
    obtain ⟨out',hout,rfl⟩ := map_eq_ok hr
    rw [expand.eq_4 _ _ _ hdoubled hne, ih hout]
    rfl

/-- Of two percent signs at most one is left, if none comes in by a reference. -/
theorem count_expand (h : ∀ name v, resolve name = .ok v → '%' ∉ v)
    (hr : expand resolve t = .ok out) : 2*out.count '%' ≤ t.count '%' := by
  fun_induction expand resolve t generalizing out with
  | case1 => cases hr; simp
  | case2 t ih =>
    obtain ⟨out',hout,rfl⟩ := map_eq_ok hr
    have := ih hout
    simp only [List.count_cons_self]
    omega
  | case3 t hne name rest href ih =>
    cases hv : resolve name with
    | error e => rw [hv] at hr; cases hr
    | ok v =>
      rw [hv] at hr
      obtain ⟨out',hout,rfl⟩ := map_eq_ok hr
      have := ih hout
      have hnone : v.count '%' = 0 := List.count_eq_zero.mpr (h name v hv)
      rw [reference?_eq href, List.count_append, hnone]
      simp only [List.count_cons, List.count_append]
      omega
  | case4 t hne href => cases hr
  | case5 c t _ hne ih =>
    obtain ⟨out',hout,rfl⟩ := map_eq_ok hr
    rw [List.count_cons_of_ne hne, List.count_cons_of_ne hne]
    exact ih hout

end References

theorem resolveReference_eq_ok {L : Lowercase} {d : Dict Text Text}
    {next : Text → Except Error Text} {name v : Text} :
    resolveReference L d next name = .ok v ↔
      ∃ w, d.get? (L.lower name) = some w ∧ if '%' ∈ w then next w = .ok v else w = v := by
  unfold resolveReference
  cases d.get? (L.lower name) with
  | none => simp
  | some w => by_cases hw : '%' ∈ w <;> simp [hw]

/-- At most half of the percent signs are left of a value, if the other values have none. -/
theorem count_interpolate {L : Lowercase} {d : Dict Text Text} {value : Text}
    (hd : ∀ k v, d.get? k = some v → '%' ∉ v ∨ v = value) {n : ℕ} {out : Text}
    (h : interpolate L d n value = .ok out) : 2*out.count '%' ≤ value.count '%' := by
  -- it cannot refer to itself: what it refers to would have to be got at no depth at all
  have hexpand : expand (resolveReference L d fun _ => .error .interpolation) value = .ok out := by
    induction n generalizing out with
    | zero => cases h
    | succ n ih =>
      cases hself : interpolate L d n value with
      | ok out' =>
        have hsame : interpolate L d (n+1) value = .ok out' := by
          refine expand_mono (fun name v hv => resolveReference_eq_ok.mpr ?_) (ih hself)
          obtain ⟨w,hget,hw⟩ := resolveReference_eq_ok.mp hv
          split at hw
          next => cases hw
          next hnot => exact ⟨w,hget,by rwa [if_neg hnot]⟩
        cases h.symm.trans hsame
        exact ih hself
      | error e =>
        refine expand_mono (fun name v hv => resolveReference_eq_ok.mpr ?_) h
        obtain ⟨w,hget,hw⟩ := resolveReference_eq_ok.mp hv
        split at hw
        next hpercent =>
          obtain rfl := (hd _ _ hget).resolve_left (not_not_intro hpercent)
          cases hself.symm.trans hw
        next hnot => exact ⟨w,hget,by rwa [if_neg hnot]⟩
  refine count_expand (fun name v hv => ?_) hexpand
  obtain ⟨w,_,hw⟩ := resolveReference_eq_ok.mp hv
  split at hw
  next => cases hw
  next hnot => exact hw ▸ hnot

section Settings
variable {L : Lowercase} {setting : Dict Text Text} {acc options : Dict Text (Option Text)} {s : Text}
  {c c' : Config (Option Text)}

theorem beforeSet_eq {value value' : Text} (h : beforeSet value = .ok value') : value' = value := by
  unfold beforeSet at h
  split at h
  next => cases h
  next => exact (Except.ok.inj h).symm

theorem addOption_ok {p : Text × Text} (hlower : L.lower p.1 = p.1)
    (h : addOption L acc p = .ok options) : options = acc ++ [(p.1,some p.2)] := by
  unfold addOption at h
  split at h
  next => cases h
  next =>
    cases hvalue : beforeSet p.2 with
    | error e => rw [hvalue] at h; cases h
    | ok value =>
      rw [hvalue] at h
      cases h
      rw [beforeSet_eq hvalue, hlower]

theorem foldlM_addOption_ok (hlower : ∀ k ∈ setting.keys, L.lower k = k)
    (h : setting.foldlM (addOption L) acc = .ok options) :
    options = acc ++ setting.mapValues some := by
  induction setting generalizing acc with
  | nil => cases h; exact (List.append_nil _).symm
  | cons p setting ih =>
    obtain ⟨hp,hsetting⟩ := List.forall_mem_cons.mp hlower
    rw [List.foldlM_cons] at h
    cases hadd : addOption L acc p with
    | error e => rw [hadd] at h; cases h
    | ok acc' =>
      rw [hadd] at h
      rw [ih hsetting h, addOption_ok hp hadd, List.append_assoc]
      rfl

/-- Values without a percent sign are accepted. -/
theorem foldlM_addOption (hlower : ∀ k ∈ setting.keys, L.lower k = k)
    (hnodup : (acc.keys ++ setting.keys).Nodup) (hvalues : ∀ p ∈ setting, '%' ∉ p.2) :
    setting.foldlM (addOption L) acc = .ok (acc ++ setting.mapValues some) := by
  induction setting generalizing acc with
  | nil => rw [List.foldlM_nil]; exact congrArg Except.ok (List.append_nil acc).symm
  | cons p setting ih =>
    obtain ⟨hp,hsetting⟩ := List.forall_mem_cons.mp hlower
    obtain ⟨hvalue,hvalues⟩ := List.forall_mem_cons.mp hvalues
    rw [Dict.keys_cons, List.append_cons] at hnodup
    have hnew : p.1 ∉ acc.keys := by
      have := (List.nodup_append.mp hnodup).1
      rw [List.nodup_append] at this
      exact fun hmem => this.2.2 _ hmem _ (List.mem_singleton_self _) rfl
    have hadd : addOption L acc p = .ok (acc ++ [(p.1,some p.2)]) := by
      rw [addOption, hp, if_neg hnew, beforeSet_of_notMem hvalue]
      rfl
    rw [List.foldlM_cons, hadd]
    refine (ih hsetting ?_ hvalues).trans ?_
    · rwa [Dict.keys_append]
    · rw [List.append_assoc]
      rfl

theorem setItem_ok (hs : s ≠ defaultSection) (hlower : ∀ k ∈ setting.keys, L.lower k = k)
    (h : c.setItem L s setting = .ok c') :
    c' = { c with sections := c.sections.set s (setting.mapValues some) } := by
  unfold Config.setItem at h
  cases hfold : setting.foldlM (addOption L) [] with
  | error e => rw [hfold] at h; cases h
  | ok options =>
    rw [hfold, foldlM_addOption_ok hlower hfold] at h
    cases h
    rw [if_neg hs]
    rfl

theorem setItem_of_notMem (hs : s ≠ defaultSection) (hlower : ∀ k ∈ setting.keys, L.lower k = k)
    (hnodup : setting.keys.Nodup) (hvalues : ∀ p ∈ setting, '%' ∉ p.2) :
    c.setItem L s setting =
      .ok { c with sections := c.sections.set s (setting.mapValues some) } := by
  have hfold : setting.foldlM (addOption L) [] = .ok ([] ++ setting.mapValues some) :=
    foldlM_addOption hlower hnodup hvalues
  rw [Config.setItem, hfold]
  exact congrArg Except.ok (if_neg hs)

variable {settings : Dict Text (Dict Text Text)} {ds : Dict Text (Option Text)}
  {sections : Dict Text (Dict Text (Option Text))}

/-- New sections come behind those before them. -/
theorem setItems_ok (hnames : ∀ p ∈ settings, p.1 ≠ defaultSection)
    (hlower : ∀ p ∈ settings, ∀ k ∈ p.2.keys, L.lower k = k) (hnodup : (sections.keys ++ settings.keys).Nodup)
    (h : Config.setItems L settings ⟨ds,sections⟩ = .ok c) :
    c = ⟨ds,sections ++ settings.mapValues (Dict.mapValues some)⟩ := by
  induction settings generalizing sections with
  | nil => cases h; exact congrArg (Config.mk ds) (List.append_nil _).symm
  | cons p settings ih =>
    obtain ⟨hname,hnames⟩ := List.forall_mem_cons.mp hnames
    obtain ⟨hp,hlower⟩ := List.forall_mem_cons.mp hlower
    rw [Dict.keys_cons] at hnodup
    rw [Config.setItems, List.foldlM_cons] at h
    cases hset : Config.setItem L p.1 p.2 ⟨ds,sections⟩ with
    | error e => rw [hset] at h; cases h
    | ok c₁ =>
      rw [hset, setItem_ok hname hp hset] at h
      have hnew : p.1 ∉ sections.keys := fun hmem =>
        (List.nodup_append.mp hnodup).2.2 _ hmem _ List.mem_cons_self rfl
      rw [show Dict.set p.1 (Dict.mapValues some p.2) sections = sections ++ [(p.1,Dict.mapValues some p.2)]
        from if_neg hnew] at h
      rw [ih hnames hlower (by rwa [Dict.keys_append, List.append_assoc]) h, List.append_assoc]
      rfl

theorem setItems_of_notMem (hnames : ∀ p ∈ settings, p.1 ≠ defaultSection)
    (hlower : ∀ p ∈ settings, ∀ k ∈ p.2.keys, L.lower k = k)
    (hnodup : ∀ p ∈ settings, p.2.keys.Nodup) (hvalues : ∀ p ∈ settings, ∀ q ∈ p.2, '%' ∉ q.2)
    (c : Config (Option Text)) : ∃ c', c.setItems L settings = .ok c' := by
  induction settings generalizing c with
  | nil => exact ⟨c,rfl⟩
  | cons p settings ih =>
    obtain ⟨hname,hnames⟩ := List.forall_mem_cons.mp hnames
    obtain ⟨hp,hlower⟩ := List.forall_mem_cons.mp hlower
    obtain ⟨hkeys,hnodup⟩ := List.forall_mem_cons.mp hnodup
    obtain ⟨hvalue,hvalues⟩ := List.forall_mem_cons.mp hvalues
    obtain ⟨c',hc'⟩ := ih hnames hlower hnodup hvalues
      { c with sections := c.sections.set p.1 (p.2.mapValues some) }
    refine ⟨c',?_⟩
    rw [Config.setItems, List.foldlM_cons, setItem_of_notMem hname hp hkeys hvalue]
    exact hc'

end Settings

end Ini
end PeerConnect.Library
