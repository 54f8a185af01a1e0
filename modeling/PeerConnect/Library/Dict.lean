import Mathlib.Data.List.Nodup

/-! Dictionaries that keep the order of their keys. -/
namespace PeerConnect.Library

/-- The items of a dictionary. -/
abbrev Dict (κ ν : Type) : Type := List (κ × ν)

namespace Dict
variable {κ ν ν' : Type} {k k' : κ} {v : ν} {d : Dict κ ν}

def keys (d : Dict κ ν) : List κ := d.map Prod.fst

def mapValues (f : ν → ν') (d : Dict κ ν) : Dict κ ν' := d.map fun p => (p.1,f p.2)

@[simp] theorem keys_nil : keys ([] : Dict κ ν) = [] := rfl

@[simp] theorem keys_cons (p : κ × ν) (d : Dict κ ν) : keys (p::d) = p.1::keys d := rfl

@[simp] theorem keys_append (d d' : Dict κ ν) : keys (d ++ d') = keys d ++ keys d' := List.map_append

@[simp] theorem keys_mapValues (f : ν → ν') (d : Dict κ ν) : keys (mapValues f d) = keys d := by
  simp [keys, mapValues, Function.comp_def]

theorem nodup_keys_concat (h : (keys d).Nodup) (hk : k ∉ keys d) (v : ν) :
    (keys (d ++ [(k,v)])).Nodup := by
  rw [keys_append]
  refine List.nodup_append.mpr ⟨h,List.nodup_singleton k,fun a ha b hb hab => hk ?_⟩
  obtain rfl : b = k := List.mem_singleton.mp hb
  exact hab ▸ ha

variable [DecidableEq κ]

instance decidableMemKeys (k : κ) (d : Dict κ ν) : Decidable (k ∈ keys d) :=
  decidable_of_iff (d.any fun p => p.1 = k) (by simp [keys])

def get? (k : κ) : Dict κ ν → Option ν
  | [] => none
  | (k',v)::d => if k' = k then some v else get? k d

/-- Another value for a key that there is. -/
def modify (k : κ) (f : ν → ν) : Dict κ ν → Dict κ ν
  | [] => []
  | (k',v)::d => if k' = k then (k',f v)::d else (k',v)::modify k f d

/-- A new key comes last, and an old one keeps its place. -/
def set (k : κ) (v : ν) (d : Dict κ ν) : Dict κ ν :=
  if k ∈ keys d then modify k (fun _ => v) d else d ++ [(k,v)]

def remove (k : κ) (d : Dict κ ν) : Dict κ ν := d.filter fun p => p.1 ≠ k

/-- `d.update(d')` -/
def update (d d' : Dict κ ν) : Dict κ ν := d'.foldl (fun d p => set p.1 p.2 d) d

@[simp] theorem keys_modify (k : κ) (f : ν → ν) (d : Dict κ ν) : keys (modify k f d) = keys d := by
  induction d with
  | nil => rfl
  | cons p d ih =>
    rw [modify]
    split
    · rfl
    · simp only [keys_cons, ih]

theorem get?_eq_none_iff : get? k d = none ↔ k ∉ keys d := by
  induction d with
  | nil => exact iff_of_true rfl nofun
  | cons p d ih =>
    rw [get?, keys_cons, List.mem_cons, not_or]
    split
    next h => exact iff_of_false nofun fun hand => hand.1 h.symm
    next h => rw [ih, and_iff_right (Ne.symm h)]

theorem mem_keys_of_get? (h : get? k d = some v) : k ∈ keys d := by
  by_contra hk
  rw [get?_eq_none_iff.mpr hk] at h
  cases h

theorem mem_of_get? (h : get? k d = some v) : (k,v) ∈ d := by
  induction d with
  | nil => cases h
  | cons p d ih =>
    rw [get?] at h
    split at h
    next hk => cases h; obtain rfl := hk; exact List.mem_cons_self
    next => exact List.mem_cons_of_mem p (ih h)

theorem get?_of_mem (hnodup : (keys d).Nodup) (h : (k,v) ∈ d) : get? k d = some v := by
  induction d with
  | nil => cases h
  | cons p d ih =>
    obtain ⟨hp,hd⟩ := List.nodup_cons.mp hnodup
    rw [get?]
    rcases List.mem_cons.mp h with rfl | h
    · rw [if_pos rfl]
    · rw [if_neg fun hk => hp ?_, ih hd h]
      exact List.mem_map.mpr ⟨_,h,hk.symm⟩

theorem get?_append (d d' : Dict κ ν) : get? k (d ++ d') = (get? k d).or (get? k d') := by
  induction d with
  | nil => rfl
  | cons p d ih =>
    rw [List.cons_append, get?, get?]
    split
    · rfl
    · exact ih

theorem get?_mapValues (f : ν → ν') (d : Dict κ ν) : get? k (mapValues f d) = (get? k d).map f := by
  induction d with
  | nil => rfl
  | cons p d ih =>
    rw [mapValues, List.map_cons, get?, get?]
    split
    · rfl
    · exact ih

/-- Only the item that is found changes. -/
theorem mem_modify {f : ν → ν} {p : κ × ν} (h : p ∈ modify k f d) :
    p ∈ d ∨ ∃ v, get? k d = some v ∧ p = (k,f v) := by
  induction d with
  | nil => cases h
  | cons q d ih =>
    rw [modify] at h
    rw [get?]
    split at h
    next hk =>
      rcases List.mem_cons.mp h with rfl | h
      · exact .inr ⟨q.2,by rw [if_pos hk],by rw [hk]⟩
      · exact .inl (List.mem_cons_of_mem q h)
    next hk =>
      rw [if_neg hk]
      rcases List.mem_cons.mp h with rfl | h
      · exact .inl List.mem_cons_self
      · exact (ih h).imp_left (List.mem_cons_of_mem q)

theorem modify_append_of_notMem {f : ν → ν} (h : k ∉ keys d) (d' : Dict κ ν) :
    modify k f (d ++ d') = d ++ modify k f d' := by
  induction d with
  | nil => rfl
  | cons p d ih =>
    obtain ⟨hne,hd⟩ := not_or.mp (List.mem_cons.not.mp h)
    rw [List.cons_append, modify, if_neg (Ne.symm hne), ih hd, List.cons_append]

theorem modify_modify (f g : ν → ν) (d : Dict κ ν) :
    modify k g (modify k f d) = modify k (g ∘ f) d := by
  induction d with
  | nil => rfl
  | cons p d ih =>
    rw [modify, modify]
    split
    next hk => rw [modify, if_pos hk]; rfl
    next hk => rw [modify, if_neg hk, ih]

theorem get?_modify_self (f : ν → ν) (d : Dict κ ν) : get? k (modify k f d) = (get? k d).map f := by
  induction d with
  | nil => rfl
  | cons p d ih =>
    rw [modify, get?]
    split
    next hk => rw [get?, if_pos hk]; rfl
    next hk => rw [get?, if_neg hk, ih]

theorem keys_set (k : κ) (v : ν) (d : Dict κ ν) :
    keys (set k v d) = if k ∈ keys d then keys d else keys d ++ [k] := by
  unfold set
  split
  · exact keys_modify k _ d
  · exact keys_append d _

theorem mem_keys_set : k' ∈ keys (set k v d) ↔ k' = k ∨ k' ∈ keys d := by
  rw [keys_set]
  split
  next h => exact ⟨.inr,fun h' => h'.elim (fun he => he ▸ h) id⟩
  next => rw [List.mem_append, List.mem_singleton, or_comm]

theorem nodup_keys_set (h : (keys d).Nodup) : (keys (set k v d)).Nodup := by
  unfold set
  split
  next => exact (keys_modify k _ d).symm ▸ h
  next hk => exact nodup_keys_concat h hk v

theorem mem_set {p : κ × ν} (h : p ∈ set k v d) : p ∈ d ∨ p = (k,v) := by
  unfold set at h
  split at h
  · exact (mem_modify h).imp_right fun ⟨_,_,hp⟩ => hp
  · exact (List.mem_append.mp h).imp_right List.mem_singleton.mp

theorem mem_keys_update (d' : Dict κ ν) : k ∈ keys (update d d') ↔ k ∈ keys d ∨ k ∈ keys d' := by
  induction d' generalizing d with
  | nil => simp [update]
  | cons p d' ih =>
    rw [update, List.foldl_cons, ← update, ih, mem_keys_set, keys_cons, List.mem_cons, or_assoc,
      or_left_comm]

theorem mem_keys_remove : k' ∈ keys (remove k d) ↔ k' ∈ keys d ∧ k' ≠ k := by
  simp only [keys, remove, List.mem_map, List.mem_filter, decide_eq_true_eq]
  constructor
  · rintro ⟨p,⟨hp,hne⟩,rfl⟩
    exact ⟨⟨p,hp,rfl⟩,hne⟩
  · rintro ⟨⟨p,hp,rfl⟩,hne⟩
    exact ⟨p,⟨hp,hne⟩,rfl⟩

theorem nodup_keys_remove (h : (keys d).Nodup) : (keys (remove k d)).Nodup :=
  h.sublist (List.filter_sublist.map _)

theorem notMem_keys_remove (k : κ) (d : Dict κ ν) : k ∉ keys (remove k d) :=
  fun h => (mem_keys_remove.mp h).2 rfl

theorem remove_of_notMem (h : k ∉ keys d) : remove k d = d :=
  List.filter_eq_self.mpr fun p hp =>
    decide_eq_true fun hk => h (List.mem_map.mpr ⟨p,hp,hk⟩)

theorem remove_cons_self (h : k ∉ keys d) (v : ν) : remove k ((k,v)::d) = d := by
  rw [remove, List.filter_cons_of_neg (by simp), ← remove, remove_of_notMem h]

theorem remove_cons_of_ne {p : κ × ν} (h : p.1 ≠ k) (d : Dict κ ν) :
    remove k (p::d) = p::remove k d :=
  List.filter_cons_of_pos (decide_eq_true h)

theorem remove_concat_self (h : k ∉ keys d) (v : ν) : remove k (d ++ [(k,v)]) = d := by
  rw [remove, List.filter_append, ← remove, remove_of_notMem h, List.filter_cons_of_neg (by simp),
    List.filter_nil, List.append_nil]

theorem mem_remove {p : κ × ν} : p ∈ remove k d ↔ p ∈ d ∧ p.1 ≠ k := by
  rw [remove, List.mem_filter, decide_eq_true_eq]

/-- The item of a key is the only one. -/
theorem mem_iff_of_get? (hnodup : (keys d).Nodup) (h : get? k d = some v) {p : κ × ν} :
    p ∈ d ↔ p = (k,v) ∨ p ∈ remove k d := by
  rw [mem_remove]
  constructor
  · intro hp
    by_cases hk : p.1 = k
    · have hv : get? k d = some p.2 := get?_of_mem hnodup (hk ▸ hp)
      rw [h, Option.some.injEq] at hv
      exact .inl (Prod.ext hk hv.symm)
    · exact .inr ⟨hp,hk⟩
  · rintro (rfl | hp)
    · exact mem_of_get? h
    · exact hp.1

theorem mem_set_iff (hnodup : (keys d).Nodup) {p : κ × ν} :
    p ∈ set k v d ↔ p = (k,v) ∨ p ∈ remove k d := by
  by_cases hk : k ∈ keys d
  · induction d with
    | nil => cases hk
    | cons q d ih =>
      obtain ⟨hq,hd⟩ := List.nodup_cons.mp hnodup
      rw [set, if_pos hk, modify]
      by_cases hqk : q.1 = k
      · subst hqk
        rw [if_pos rfl, ← Prod.eta q, remove_cons_self hq]
        exact List.mem_cons
      · have hmem : k ∈ keys d := (List.mem_cons.mp hk).resolve_left (Ne.symm hqk)
        have ih := ih hd hmem
        rw [set, if_pos hmem] at ih
        rw [if_neg hqk, remove_cons_of_ne hqk, List.mem_cons, List.mem_cons, ih, or_left_comm]
  · rw [set, if_neg hk, remove_of_notMem hk, List.mem_append, List.mem_singleton, or_comm]

/-- A key stands in one place. -/
theorem length_remove (hnodup : (keys d).Nodup) (h : k ∈ keys d) :
    (remove k d).length+1 = d.length := by
  induction d with
  | nil => cases h
  | cons p d ih =>
    obtain ⟨hp,hd⟩ := List.nodup_cons.mp hnodup
    by_cases hk : p.1 = k
    · subst hk
      rw [← Prod.eta p, remove_cons_self hp, List.length_cons]
    · have hmem : k ∈ keys d := (List.mem_cons.mp h).resolve_left (Ne.symm hk)
      rw [remove_cons_of_ne hk, List.length_cons, List.length_cons, ih hd hmem]

/-- `d.update(d')` of an empty dictionary. -/
theorem nil_update (h : (keys d).Nodup) : update [] d = d := by
  have hfold : ∀ d' : Dict κ ν, (keys (d' ++ d)).Nodup → update d' d = d' ++ d := by
    clear h
    induction d with
    | nil => exact fun d' _ => (List.append_nil d').symm
    | cons p d ih =>
      intro d' h
      have hp : p.1 ∉ keys d' := by
        rw [keys_append, List.nodup_append] at h
        exact fun hmem => h.2.2 _ hmem _ List.mem_cons_self rfl
      have hset : set p.1 p.2 d' = d' ++ [p] := if_neg hp
      rw [List.append_cons] at h
      rw [update, List.foldl_cons, hset, ← update, ih _ h, List.append_assoc]
      rfl
  exact hfold [] h

section Traverse
variable {ε : Type} {f : κ → ν → Except ε ν'} {d' : Dict κ ν'}

/-- The values in turn, each of which may fail. -/
def traverse (f : κ → ν → Except ε ν') (d : Dict κ ν) : Except ε (Dict κ ν') :=
  d.mapM fun p => (p.1,·) <$> f p.1 p.2

omit [DecidableEq κ] in
theorem traverse_cons (p : κ × ν) (d : Dict κ ν) : traverse f (p::d) = (do
    let v ← f p.1 p.2
    let rest ← traverse f d
    pure ((p.1,v)::rest)) := by
  rw [traverse, List.mapM_cons]
  cases f p.1 p.2 <;> rfl

/-- What has been found of a key that there is. -/
theorem get?_traverse (h : traverse f d = .ok d') (hk : get? k d = some v) :
    ∃ v', f k v = .ok v' ∧ get? k d' = some v' := by
  induction d generalizing d' with
  | nil => cases hk
  | cons p d ih =>
    rw [traverse_cons] at h
    cases hp : f p.1 p.2 with
    | error e => rw [hp] at h; cases h
    | ok v' =>
      rw [hp] at h
      cases hd : traverse f d with
      | error e => rw [hd] at h; cases h
      | ok rest =>
        rw [hd] at h
        cases h
        rw [get?] at hk ⊢
        split at hk
        next hkey =>
          cases hk
          rw [hkey] at hp
          exact ⟨v',hp,if_pos hkey⟩
        next hkey =>
          obtain ⟨w,hw,hget⟩ := ih hd hk
          exact ⟨w,hw,(if_neg hkey).trans hget⟩

omit [DecidableEq κ] in
theorem traverse_ok (h : ∀ p ∈ d, ∃ v', f p.1 p.2 = .ok v') : ∃ d', traverse f d = .ok d' := by
  induction d with
  | nil => exact ⟨[],rfl⟩
  | cons p d ih =>
    obtain ⟨⟨v',hv⟩,hd⟩ := List.forall_mem_cons.mp h
    obtain ⟨d',hd'⟩ := ih hd
    refine ⟨(p.1,v')::d',?_⟩
    rw [traverse_cons, hv, hd']
    rfl

end Traverse

end Dict
end PeerConnect.Library
