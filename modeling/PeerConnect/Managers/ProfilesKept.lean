import PeerConnect.Managers.Profiles

/-! Which profiles are there again when the list of profiles is read. -/
namespace PeerConnect.Managers
open Library Text Ini

namespace Settings
variable (S : Settings) {L : Lowercase} {p : Text × Dict Text Text} {q q' : Text × Text}

theorem mem_data : p ∈ S.data ↔ p = (userHeader,S.user) ∨ p = (serverHeader,S.server) := by
  rw [S.data_perm.mem_iff]
  simp

theorem nodup_data : S.data.keys.Nodup :=
  (S.data_perm.map Prod.fst).nodup_iff.mpr (by decide : [userHeader,serverHeader].Nodup)

theorem nodup_options (hp : p ∈ S.data) : p.2.keys.Nodup := by
  rcases S.mem_data.mp hp with rfl | rfl
  · exact (S.user_perm.map Prod.fst).nodup_iff.mpr (by decide : [nameKey,idKey].Nodup)
  · exact (S.server_perm.map Prod.fst).nodup_iff.mpr (by decide : [ipKey,portKey].Nodup)

/-- What there can be in a section. -/
theorem mem_options (hp : p ∈ S.data) : q ∈ p.2 ↔
    p.1 = userHeader ∧ (q = (nameKey,S.name) ∨ q = (idKey,(toString S.id).toList)) ∨
    p.1 = serverHeader ∧ (q = (ipKey,S.ip) ∨ q = (portKey,(toString S.port).toList)) := by
  rcases S.mem_data.mp hp with rfl | rfl
  · have hne : userHeader ≠ serverHeader := by decide
    rw [S.user_perm.mem_iff]
    simp [hne]
  · have hne : serverHeader ≠ userHeader := by decide
    rw [S.server_perm.mem_iff]
    simp [hne]

theorem header_name (hp : p ∈ S.data) : p.1 ≠ defaultSection ∧ p.1 ≠ [] ∧ Unbroken p.1 := by
  have hnames : ∀ s ∈ [userHeader,serverHeader],
      s ≠ defaultSection ∧ s ≠ [] ∧ Unbroken s := by decide
  refine hnames p.1 ?_
  rcases S.mem_data.mp hp with rfl | rfl
  · exact List.mem_cons_self
  · exact List.mem_cons_of_mem _ (List.mem_singleton_self _)

theorem plain_key (hp : p ∈ S.data) (hq : q ∈ p.2) : Plain L q.1 ∧ q.1.head? ≠ some '[' := by
  have hkeys : ∀ k ∈ [nameKey,idKey,ipKey,portKey], k ≠ [] ∧ k.all Char.isLower = true := by decide
  obtain ⟨hne,hlower⟩ := hkeys q.1 (by
    rcases (S.mem_options hp).mp hq with ⟨_,rfl | rfl⟩ | ⟨_,rfl | rfl⟩ <;> simp)
  exact plain_of_isLower hne (List.all_eq_true.mp hlower)

theorem lower_keys (hp : p ∈ S.data) : ∀ k ∈ p.2.keys, L.lower k = k := by
  intro k hk
  obtain ⟨q,hq,rfl⟩ := List.mem_map.mp hk
  exact (S.plain_key hp hq).1.lower

/-- Only of the name it is not known what it has in it. -/
theorem value_cases (hp : p ∈ S.data) (hq : q ∈ p.2) : q.2 = S.name ∨ Solid q.2 := by
  rcases (S.mem_options hp).mp hq with ⟨_,rfl | rfl⟩ | ⟨_,rfl | rfl⟩
  · exact .inl rfl
  · exact .inr (numeral_int _).solid
  · exact .inr S.solid
  · exact .inr (numeral_nat _).solid

theorem unbroken_value (hname : Unbroken S.name) (hp : p ∈ S.data) (hq : q ∈ p.2) : Unbroken q.2 :=
  (S.value_cases hp hq).elim (fun h => h ▸ hname) Solid.unbroken

theorem strip_value (hname : strip S.name = S.name) (hp : p ∈ S.data) (hq : q ∈ p.2) :
    strip q.2 = q.2 := (S.value_cases hp hq).elim (fun h => h ▸ hname) Solid.strip_eq

/-- Of the values only the name and the ip can have a percent sign. -/
theorem percent_cases (hp : p ∈ S.data) (hq : q ∈ p.2) (hmem : '%' ∈ q.2) :
    p.1 = userHeader ∧ q.2 = S.name ∨ p.1 = serverHeader ∧ q.2 = S.ip := by
  rcases (S.mem_options hp).mp hq with ⟨h,rfl | rfl⟩ | ⟨h,rfl | rfl⟩
  · exact .inl ⟨h,rfl⟩
  · exact absurd hmem (numeral_int _).percent_notMem
  · exact .inr ⟨h,rfl⟩
  · exact absurd hmem (numeral_nat _).percent_notMem

theorem percent_notMem (hname : '%' ∉ S.name) (hip : '%' ∉ S.ip) (hp : p ∈ S.data) (hq : q ∈ p.2) :
    '%' ∉ q.2 := by
  intro hmem
  rcases S.percent_cases hp hq hmem with ⟨_,hvalue⟩ | ⟨_,hvalue⟩ <;> rw [hvalue] at hmem
  · exact hname hmem
  · exact hip hmem

/-- One value at most of a section has a percent sign. -/
theorem percent_unique (hp : p ∈ S.data) (hq : q ∈ p.2) (hmem : '%' ∈ q.2) (hq' : q' ∈ p.2) :
    '%' ∉ q'.2 ∨ q'.2 = q.2 := by
  by_cases hmem' : '%' ∈ q'.2
  · right
    have hne : userHeader ≠ serverHeader := by decide
    rcases S.percent_cases hp hq hmem with ⟨h,hvalue⟩ | ⟨h,hvalue⟩ <;>
      rcases S.percent_cases hp hq' hmem' with ⟨h',hvalue'⟩ | ⟨h',hvalue'⟩
    · exact hvalue'.trans hvalue.symm
    · exact absurd (h.symm.trans h') hne
    · exact absurd (h'.symm.trans h) hne
    · exact hvalue'.trans hvalue.symm
  · exact .inl hmem'

/-- The data of a profile are these settings. -/
def Shown (d : ProfileData) : Prop := ∀ p ∈ S.data, ∀ q ∈ p.2, d.option p.1 q.1 = some q.2

theorem shown_iff {d : ProfileData} : S.Shown d ↔
    d.option userHeader nameKey = some S.name ∧ d.option userHeader idKey = some (toString S.id).toList ∧
    d.option serverHeader ipKey = some S.ip ∧
    d.option serverHeader portKey = some (toString S.port).toList := by
  constructor
  · intro h
    have huser := h _ (S.mem_data.mpr (.inl rfl))
    have hserver := h _ (S.mem_data.mpr (.inr rfl))
    exact ⟨huser (nameKey,S.name) (S.user_perm.mem_iff.mpr (by simp)),
      huser (idKey,(toString S.id).toList) (S.user_perm.mem_iff.mpr (by simp)),
      hserver (ipKey,S.ip) (S.server_perm.mem_iff.mpr (by simp)),
      hserver (portKey,(toString S.port).toList) (S.server_perm.mem_iff.mpr (by simp))⟩
  · rintro ⟨hname,hid,hip,hport⟩ p hp q hq
    obtain ⟨s,options⟩ := p
    rcases (S.mem_options hp).mp hq with ⟨rfl,rfl | rfl⟩ | ⟨rfl,rfl | rfl⟩
    · exact hname
    · exact hid
    · exact hip
    · exact hport

theorem Shown.matches {d : ProfileData} (h : S.Shown d) : d.Matches := by
  obtain ⟨hname,hid,hip,hport⟩ := S.shown_iff.mp h
  rw [ProfileData.Matches, hname, hid, hip, hport]
  exact ⟨rfl,rfl,rfl,rfl⟩

end Settings

section Files
variable {S : Settings} {L : Lowercase} {config : Config (Option Text)} {d : ProfileData}
  {p : Text × Dict Text Text} {q : Text × Text}

theorem profileConfig_ok (h : profileConfig L S.data = .ok config) :
    config = ⟨[],S.data.mapValues (Dict.mapValues some)⟩ := by
  have hnodup : (Dict.keys ([] : Dict Text (Dict Text (Option Text))) ++ S.data.keys).Nodup := S.nodup_data
  exact setItems_ok (fun _ hp => (S.header_name hp).1) (fun _ hp => S.lower_keys hp) hnodup h

theorem mem_sections {options : Dict Text (Option Text)}
    (h : options ∈ (S.data.mapValues (Dict.mapValues some)).map Prod.snd) :
    ∃ p ∈ S.data, options = p.2.mapValues some := by
  obtain ⟨_,hr,rfl⟩ := List.mem_map.mp h
  obtain ⟨p,hp,rfl⟩ := List.mem_map.mp hr
  exact ⟨p,hp,rfl⟩

theorem writable_profileConfig (hname : Unbroken S.name) :
    Writable L false ⟨[],S.data.mapValues (Dict.mapValues some)⟩ := by
  refine ⟨?_,?_,List.forall_mem_cons.mpr ⟨⟨List.nodup_nil,nofun⟩,fun options h => ?_⟩⟩
  · rw [Dict.keys_mapValues]
    exact S.nodup_data
  · intro s hs
    rw [Dict.keys_mapValues] at hs
    obtain ⟨p,hp,rfl⟩ := List.mem_map.mp hs
    exact S.header_name hp
  · obtain ⟨p,hp,rfl⟩ := mem_sections h
    refine ⟨(Dict.keys_mapValues some p.2).symm ▸ S.nodup_options hp,fun r hr => ?_⟩
    obtain ⟨q,hq,rfl⟩ := List.mem_map.mp hr
    obtain ⟨hplain,hhead⟩ := S.plain_key (L := L) hp hq
    exact ⟨hplain,writableValue_of_unbroken (S.unbroken_value hname hp hq) hplain.ne_nil hhead⟩

/-- What is read of the file of a profile: the white space around a value is lost. -/
def readConfig (S : Settings) : Config (Option Text) :=
  ⟨[],S.data.mapValues (Dict.mapValues fun v => some (strip v))⟩

theorem read_profileConfig (hname : Unbroken S.name) (h : profileConfig L S.data = .ok config) :
    Ini.read L false (Ini.write false config) = .ok (readConfig S) := by
  rw [profileConfig_ok h, read_write (writable_profileConfig hname), Config.map, readConfig]
  refine congrArg (fun x => Except.ok (Config.mk [] x)) ?_
  simp only [Dict.mapValues, List.map_map]
  refine List.map_congr_left fun p hp => Prod.ext rfl ?_
  simp only [Function.comp_def, List.map_map, Option.map_some]
  refine List.map_congr_left fun q hq => ?_
  rw [readBack_of_unbroken (S.unbroken_value hname hp hq)]

theorem items_readConfig (hp : p ∈ S.data) : (readConfig S).items L p.1 =
    (p.2.mapValues strip).traverse fun _ v => interpolate L (p.2.mapValues strip) maxInterpolationDepth v := by
  have hget : (S.data.mapValues (Dict.mapValues fun v => some (strip v))).get? p.1 =
      some (p.2.mapValues fun v => some (strip v)) := by
    rw [Dict.get?_mapValues, Dict.get?_of_mem S.nodup_data hp]
    rfl
  have hoptions : (readConfig S).options p.1 = p.2.mapValues fun v => some (strip v) := by
    rw [Config.options, if_neg (S.header_name hp).1, readConfig, hget]
    rfl
  have hnodup : (p.2.mapValues fun v => some (strip v)).keys.Nodup :=
    (Dict.keys_mapValues _ p.2).symm ▸ S.nodup_options hp
  have hfilter : (p.2.mapValues fun v => some (strip v)).filterMap
      (fun r => r.2.map (r.1,·)) = p.2.mapValues strip := by
    simp [Dict.mapValues, List.filterMap_map]
  have hupdate : Dict.update (readConfig S).defaults ((readConfig S).options p.1) =
      p.2.mapValues fun v => some (strip v) := by
    rw [hoptions]
    exact Dict.nil_update hnodup
  rw [Config.items, hupdate, hfilter]

theorem loadProfileData_file (hname : Unbroken S.name) (h : profileConfig L S.data = .ok config) :
    loadProfileData L (some (Ini.write false config)) =
      (readConfig S).sections.traverse fun s _ => (readConfig S).items L s := by
  rw [loadProfileData, Option.getD_some, read_profileConfig hname h]
  rfl

/-- What has been loaded of a profile shows what became of each setting. -/
theorem option_of_loadProfileData (hname : Unbroken S.name) (hconfig : profileConfig L S.data = .ok config)
    (h : loadProfileData L (some (Ini.write false config)) = .ok d) (hp : p ∈ S.data) (hq : q ∈ p.2) :
    ∃ out, interpolate L (p.2.mapValues strip) maxInterpolationDepth (strip q.2) = .ok out ∧
      d.option p.1 q.1 = some out := by
  rw [loadProfileData_file hname hconfig] at h
  have hsection : (readConfig S).sections.get? p.1 = some (p.2.mapValues fun v => some (strip v)) := by
    rw [readConfig, Dict.get?_mapValues, Dict.get?_of_mem S.nodup_data hp]
    rfl
  obtain ⟨options,hitems,hget⟩ := Dict.get?_traverse h hsection
  rw [items_readConfig hp] at hitems
  have hvalue : (p.2.mapValues strip).get? q.1 = some (strip q.2) := by
    rw [Dict.get?_mapValues, Dict.get?_of_mem (S.nodup_options hp) hq]
    rfl
  obtain ⟨out,hout,hget'⟩ := Dict.get?_traverse hitems hvalue
  refine ⟨out,hout,?_⟩
  rw [ProfileData.option, hget]
  exact hget'

/-- A profile that shows its settings has settings that are not changed by writing and reading them. -/
theorem values_of_shown (hname : Unbroken S.name) (hconfig : profileConfig L S.data = .ok config)
    (h : getProfileData L (some (Ini.write false config)) = .ok d) (hshown : S.Shown d)
    (hp : p ∈ S.data) (hq : q ∈ p.2) : '%' ∉ q.2 ∧ strip q.2 = q.2 := by
  obtain ⟨out,hout,hoption⟩ := option_of_loadProfileData hname hconfig (getProfileData_eq_ok.mp h).1 hp hq
  obtain rfl : q.2 = out := Option.some.inj ((hshown p hp q hq).symm.trans hoption)
  have hpercent : '%' ∉ q.2 := by
    intro hmem
    have hcount := count_interpolate (fun k v hget => ?_) hout
    · have hstrip : (strip q.2).Sublist q.2 :=
        (rstrip_begins _).sublist.trans (lstrip_suffix q.2).sublist
      have := hstrip.count_le '%'
      have := List.count_pos_iff.mpr hmem
      omega
    · obtain ⟨q',hq',hv⟩ := List.mem_map.mp (Dict.mem_of_get? hget)
      cases hv
      exact (S.percent_unique hp hq hmem hq').imp (fun hnot hmem' => hnot (mem_strip hmem'))
        (congrArg strip)
  refine ⟨hpercent,?_⟩
  rw [maxInterpolationDepth, interpolate_of_notMem L _ _ fun hmem => hpercent (mem_strip hmem)] at hout
  exact Except.ok.inj hout

/-- Settings that are not changed so are shown. -/
theorem shown_of_values (hname : Unbroken S.name)
    (hvalues : ∀ p ∈ S.data, ∀ q ∈ p.2, '%' ∉ q.2 ∧ strip q.2 = q.2) :
    ∃ config d, profileConfig L S.data = .ok config ∧
      getProfileData L (some (Ini.write false config)) = .ok d ∧ S.Shown d := by
  obtain ⟨config,hconfig⟩ := setItems_of_notMem (L := L) (fun _ hp => (S.header_name hp).1)
    (fun _ hp => S.lower_keys hp) (fun _ hp => S.nodup_options hp)
    (fun p hp q hq => (hvalues p hp q hq).1) {}
  have hitem : ∀ p ∈ S.data, ∃ options, (readConfig S).items L p.1 = .ok options := by
    intro p hp
    rw [items_readConfig hp]
    refine Dict.traverse_ok fun r hr => ?_
    obtain ⟨q,hq,rfl⟩ := List.mem_map.mp hr
    exact ⟨_,interpolate_of_notMem L _ _ fun hmem => (hvalues p hp q hq).1 (mem_strip hmem)⟩
  obtain ⟨d,hd⟩ : ∃ d, loadProfileData L (some (Ini.write false config)) = .ok d := by
    rw [loadProfileData_file hname hconfig]
    refine Dict.traverse_ok fun r hr => ?_
    obtain ⟨p,hp,rfl⟩ := List.mem_map.mp hr
    exact hitem p hp
  have hshown : S.Shown d := by
    intro p hp q hq
    obtain ⟨out,hout,hoption⟩ := option_of_loadProfileData hname hconfig hd hp hq
    obtain ⟨hpercent,hstrip⟩ := hvalues p hp q hq
    rw [hstrip, maxInterpolationDepth, interpolate_of_notMem L _ _ hpercent] at hout
    rw [hoption, Except.ok.inj hout]
  exact ⟨config,d,hconfig,getProfileData_eq_ok.mpr ⟨hd,hshown.matches⟩,hshown⟩

end Files

section Adding
variable {L : Lowercase} {s s' : Profiles} {c c' : AddCall} {calls : List AddCall}

def addedFiles (s : Profiles) (fileName : Text) (config : Config (Option Text)) : Text → Option Text :=
  Function.update s.profileFiles fileName (some (Ini.write false config))

theorem addedFiles_self (s : Profiles) (fileName : Text) (config : Config (Option Text)) :
    addedFiles s fileName config fileName = some (Ini.write false config) := Function.update_self ..

theorem addedFiles_of_ne {fileName f : Text} (h : f ≠ fileName) (s : Profiles) (config : Config (Option Text)) :
    addedFiles s fileName config f = s.profileFiles f := Function.update_of_ne h ..

/-- What a call has added, once its profile has been loaded. -/
def added (s : Profiles) (fileName : Text) (config main : Config (Option Text)) (d : ProfileData) : Profiles :=
  ⟨addedFiles s fileName config,Ini.write true main,main,s.profileList ++ [⟨fileName,d⟩]⟩

theorem view_added_self {fileName : Text} {config main : Config (Option Text)} {d : ProfileData}
    (hd : getProfileData L (some (Ini.write false config)) = .ok d) :
    view L (added s fileName config main d) fileName = .ok d :=
  (congrArg (getProfileData L) (addedFiles_self s fileName config)).trans hd

theorem view_added_of_ne {fileName f : Text} {config main : Config (Option Text)} {d : ProfileData}
    (h : f ≠ fileName) : view L (added s fileName config main d) f = view L s f :=
  congrArg (getProfileData L) (addedFiles_of_ne h s config)

/-- What a call leaves behind if it returns. -/
theorem addProfile_eq_done : addProfile L c.settings.name c.time c.settings.data s = .done () s' ↔
    ∃ config main d, profileConfig L c.settings.data = .ok config ∧
      s.mainConfig.setOption L userProfiles c.fileName = .ok main ∧
      getProfileData L (some (Ini.write false config)) = .ok d ∧
      s' = added s c.fileName config main d := by
  have hname : c.fileName = uniquify c.settings.name c.time ++ ".ini".toList := rfl
  rw [addProfile, ← hname]
  cases profileConfig L c.settings.data with
  | error e => exact iff_of_false (by rintro ⟨⟩) (by rintro ⟨config,_,_,hconfig,_⟩; cases hconfig)
  | ok config =>
    simp only [writeToMainConfig, saveMainConfig, profile, append, Coro.bind_apply, Coro.modify_apply,
      Coro.get_apply, Run.bind_done]
    cases s.mainConfig.setOption L userProfiles c.fileName with
    | error e => exact iff_of_false (by rintro ⟨⟩) (by rintro ⟨_,_,_,_,hmain,_⟩; cases hmain)
    | ok main =>
      have hself := addedFiles_self s c.fileName config
      rw [addedFiles] at hself
      simp only [Coro.modify_apply, Run.bind_done, hself]
      cases hget : getProfileData L (some (Ini.write false config)) with
      | error e =>
        refine iff_of_false (by rintro ⟨⟩) ?_
        rintro ⟨_,_,_,hconfig,_,hd,_⟩
        cases hconfig
        cases hget.symm.trans hd
      | ok d =>
        constructor
        · intro h
          cases h
          exact ⟨config,main,d,rfl,rfl,hget,rfl⟩
        · rintro ⟨_,_,_,hconfig,hmain,hd,rfl⟩
          cases hconfig
          cases hmain
          cases hget.symm.trans hd
          rfl

/-- The file of a name is that of the last call with it. -/
theorem file_addProfiles (h : addProfiles L calls s = .done () s') (f : Text) :
    s'.profileFiles f = s.profileFiles f ∧ (∀ c ∈ calls, c.fileName ≠ f) ∨
    ∃ c ∈ calls, c.fileName = f ∧ ∃ config, profileConfig L c.settings.data = .ok config ∧
      s'.profileFiles f = some (Ini.write false config) := by
  induction calls generalizing s with
  | nil => cases h; exact .inl ⟨rfl,nofun⟩
  | cons c calls ih =>
    obtain ⟨⟨⟩,s₁,h₁,h₂⟩ := Run.bind_eq_done h
    obtain ⟨config,main,d,hconfig,_,_,rfl⟩ := addProfile_eq_done.mp h₁
    rcases ih h₂ with ⟨hfile,hne⟩ | ⟨c',hc',hrest⟩
    · by_cases hf : f = c.fileName
      · subst hf
        exact .inr ⟨c,List.mem_cons_self,rfl,config,hconfig,hfile.trans (addedFiles_self ..)⟩
      · exact .inl ⟨hfile.trans (addedFiles_of_ne hf ..),List.forall_mem_cons.mpr ⟨Ne.symm hf,hne⟩⟩
    · exact .inr ⟨c',List.mem_cons_of_mem c hc',hrest⟩

/-- The program has loaded its profiles, and the profiles of all names can be loaded again. -/
structure Ready (L : Lowercase) (s : Profiles) : Prop where
  config : Ini.read L true s.configFile = .ok s.mainConfig
  has : s.mainConfig.Has userProfiles
  complete : ∀ f ∈ s.mainConfig.optionNames userProfiles, ∀ e, view L s f ≠ .error (.config e)

/-- Loading reads the configuration first. -/
theorem loadProfilesToProgram_eq_done : loadProfilesToProgram L s = .done () s' ↔
    ∃ main, Ini.read L true s.configFile = .ok main ∧ main.Has userProfiles ∧
      loadProfiles L (main.optionNames userProfiles) { s with mainConfig := main } = .done () s' := by
  simp only [loadProfilesToProgram, Coro.bind_apply, Coro.get_apply, Run.bind_done]
  cases Ini.read L true s.configFile with
  | error e => exact iff_of_false nofun (by rintro ⟨_,hmain,_⟩; cases hmain)
  | ok main =>
    simp only [Coro.bind_apply, Coro.modify_apply, Run.bind_done, Coro.ite_apply]
    by_cases hhas : main.Has userProfiles
    · rw [if_pos hhas]
      exact ⟨fun h => ⟨main,rfl,hhas,h⟩,by rintro ⟨_,hmain,_,h⟩; cases hmain; exact h⟩
    · rw [if_neg hhas]
      exact iff_of_false nofun (by rintro ⟨_,hmain,hhas',_⟩; cases hmain; exact hhas hhas')

theorem ready_of_load (h : loadProfilesToProgram L s = .done () s') : Ready L s' := by
  obtain ⟨main,hread,hhas,hload⟩ := loadProfilesToProgram_eq_done.mp h
  have hloaded := loaded_loadProfiles hload
  obtain ⟨hconfig,hhas',hsub,_⟩ := hloaded.config hread hhas
  exact ⟨hconfig,hhas',fun f hf => hloaded.view_eq ▸ hloaded.complete f (hsub f hf)⟩

/-- The profile of a call is stored. -/
def Stored (L : Lowercase) (c : AddCall) (s : Profiles) : Prop :=
  c.fileName ∈ s.mainConfig.optionNames userProfiles ∧
    ∃ d, view L s c.fileName = .ok d ∧ c.settings.Shown d

/-- What is stored is there when the list is read again. -/
theorem Ready.refresh (h : Ready L s) : ∃ s', refreshProfileList L s = .done () s' ∧
    ∀ c, Stored L c s → Kept c s' := by
  obtain ⟨s',hload⟩ := loadProfiles_done (L := L) (s := { s with profileList := [] }) h.complete
  have hloaded := loaded_loadProfiles hload
  obtain ⟨_,_,_,hkept⟩ := hloaded.config h.config h.has
  have hplain : ∀ n ∈ s.mainConfig.optionNames userProfiles, L.lower n = n := fun n hn =>
    ((wellFormed_of_read h.config).plain hn).lower
  refine ⟨s',loadProfilesToProgram_eq_done.mpr ⟨s.mainConfig,h.config,h.has,hload⟩,?_⟩
  rintro c ⟨hmem,d,hview,hshown⟩
  refine ⟨⟨⟨c.fileName,d⟩,?_,rfl,c.settings.shown_iff.mp hshown⟩,?_,hkept hplain _ d hview hmem⟩
  · rw [hloaded.list]
    exact mem_found.mpr ⟨hmem,hview⟩
  · rw [hloaded.files _ d hview]
    intro hnone
    have hlookup : view L s c.fileName = .error .lookup := congrArg (getProfileData L) hnone
    cases hlookup.symm.trans hview

/-- What is listed was stored under a name that can stand in the configuration. -/
theorem stored_of_kept (h : refreshProfileList L s = .done () s') (hkept : Kept c s') :
    Plain L c.fileName ∧ ∃ d, view L s c.fileName = .ok d ∧ c.settings.Shown d := by
  obtain ⟨main,hread,_,hload⟩ := loadProfilesToProgram_eq_done.mp h
  obtain ⟨⟨p,hp,hname,hshown⟩,_,_⟩ := hkept
  rw [(loaded_loadProfiles hload).list] at hp
  obtain ⟨hmem,hview⟩ := mem_found.mp hp
  rw [← hname]
  exact ⟨(wellFormed_of_read hread).plain hmem,p.profileData,hview,c.settings.shown_iff.mpr hshown⟩

/-- A name that is kept as it is: its file can stand in the main configuration, and its value can be
read back. -/
structure AddCall.Clean (L : Lowercase) (c : AddCall) : Prop where
  plain : Plain L c.fileName
  trimmed : strip c.settings.name = c.settings.name
  name_percent : '%' ∉ c.settings.name
  ip_percent : '%' ∉ c.settings.ip

/-- The settings are the same, in whatever order. -/
def Settings.Same (S S' : Settings) : Prop :=
  S.name = S'.name ∧ S.id = S'.id ∧ S.ip = S'.ip ∧ S.port = S'.port

theorem unbroken_name (h : Plain L c.fileName) : Unbroken c.settings.name := by
  refine h.unbroken.subset fun a ha => ?_
  rw [AddCall.fileName, uniquify]
  exact List.mem_append_left _ (List.mem_append_left _ ha)

theorem Settings.Same.shown {S S' : Settings} (h : S.Same S') {d : ProfileData} (hd : S'.Shown d) :
    S.Shown d := by
  obtain ⟨hname,hid,hip,hport⟩ := h
  rw [Settings.shown_iff] at hd ⊢
  rw [hname, hid, hip, hport]
  exact hd

theorem same_of_shown {S S' : Settings} {d : ProfileData} (h : S.Shown d) (h' : S'.Shown d) : S.Same S' := by
  obtain ⟨hname,hid,hip,hport⟩ := S.shown_iff.mp h
  obtain ⟨hname',hid',hip',hport'⟩ := S'.shown_iff.mp h'
  exact ⟨Option.some.inj (hname.symm.trans hname'),toString_int_inj (Option.some.inj (hid.symm.trans hid')),
    Option.some.inj (hip.symm.trans hip'),toString_nat_inj (Option.some.inj (hport.symm.trans hport'))⟩

/-- A call with such a name adds its profile, and takes none away that has the same settings or another
file. -/
theorem Ready.addProfile (h : Ready L s) (hc : c.Clean L) :
    ∃ s', addProfile L c.settings.name c.time c.settings.data s = .done () s' ∧ Ready L s' ∧
      Stored L c s' ∧
      ∀ c', Stored L c' s → (c'.fileName = c.fileName → c'.settings.Same c.settings) → Stored L c' s' := by
  obtain ⟨config,d,hconfig,hd,hshown⟩ := shown_of_values (L := L) (unbroken_name hc.plain) fun p hp q hq =>
    ⟨c.settings.percent_notMem hc.name_percent hc.ip_percent hp hq,c.settings.strip_value hc.trimmed hp hq⟩
  have hmain : s.mainConfig.setOption L userProfiles c.fileName =
      .ok (s.mainConfig.update userProfiles (Dict.set (L.lower c.fileName) none)) := if_pos h.has
  set main := s.mainConfig.update userProfiles (Dict.set (L.lower c.fileName) none) with hmainDef
  have hentries : ∀ f, f ∈ main.optionNames userProfiles ↔
      f = c.fileName ∨ f ∈ s.mainConfig.optionNames userProfiles := by
    intro f
    rw [hmainDef, Config.mem_optionNames_update userProfiles_ne h.has, Dict.mem_keys_set, hc.plain.lower,
      Config.mem_optionNames, or_assoc]
  have hwell : WellFormed L true main :=
    (wellFormed_of_read h.config).setOption (hc.plain.lower.symm ▸ hc.plain) hmain
  refine ⟨_,addProfile_eq_done.mpr ⟨config,main,d,hconfig,hmain,hd,rfl⟩,⟨hwell.read_write,?_,?_⟩,
    ⟨(hentries _).mpr (.inl rfl),d,view_added_self hd,hshown⟩,?_⟩
  · exact h.has.update _
  · intro f hf e
    by_cases hfile : f = c.fileName
    · rw [hfile, view_added_self hd]
      nofun
    · rw [view_added_of_ne hfile]
      exact h.complete f (((hentries f).mp hf).resolve_left hfile) e
  · rintro c' ⟨hmem,d',hview,hshown'⟩ hsame
    refine ⟨(hentries _).mpr (.inr hmem),?_⟩
    by_cases hfile : c'.fileName = c.fileName
    · exact ⟨d,hfile ▸ view_added_self hd,(hsame hfile).shown hshown⟩
    · exact ⟨d',(view_added_of_ne hfile).trans hview,hshown'⟩

/-- One call after the other. -/
theorem Ready.addProfiles (h : Ready L s) (hclean : ∀ c ∈ calls, c.Clean L)
    (hsame : ∀ c ∈ calls, ∀ c' ∈ calls, c.fileName = c'.fileName → c.settings.Same c'.settings) :
    ∃ s', addProfiles L calls s = .done () s' ∧ Ready L s' ∧ (∀ c ∈ calls, Stored L c s') ∧
      ∀ c', Stored L c' s → (∀ c ∈ calls, c'.fileName = c.fileName → c'.settings.Same c.settings) →
        Stored L c' s' := by
  induction calls generalizing s with
  | nil => exact ⟨s,rfl,h,nofun,fun _ h _ => h⟩
  | cons c calls ih =>
    obtain ⟨hc,hclean⟩ := List.forall_mem_cons.mp hclean
    obtain ⟨s₁,h₁,hready₁,hstored,hothers⟩ := h.addProfile hc
    obtain ⟨s₂,h₂,hready₂,hcalls,hothers₂⟩ := ih hready₁ hclean fun c₁ h₁ c₂ h₂ =>
      hsame c₁ (List.mem_cons_of_mem c h₁) c₂ (List.mem_cons_of_mem c h₂)
    refine ⟨s₂,?_,hready₂,List.forall_mem_cons.mpr ⟨?_,hcalls⟩,fun c' hc' hsame' => ?_⟩
    · rw [Managers.addProfiles, Coro.bind_apply, h₁]
      exact h₂
    · exact hothers₂ c hstored fun c₂ h₂ => hsame c List.mem_cons_self c₂ (List.mem_cons_of_mem c h₂)
    · obtain ⟨hhead,htail⟩ := List.forall_mem_cons.mp hsame'
      exact hothers₂ c' (hothers c' hc' hhead) htail

theorem persist_of_clean (h : Ready L s) (hclean : ∀ c ∈ calls, c.Clean L)
    (hsame : ∀ c ∈ calls, ∀ c' ∈ calls, c.fileName = c'.fileName → c.settings.Same c'.settings) :
    Persist L s calls := by
  obtain ⟨s₁,h₁,hready,hstored,_⟩ := h.addProfiles hclean hsame
  obtain ⟨s₂,h₂,hkept⟩ := hready.refresh
  refine ⟨s₂,?_,fun c hc => hkept c (hstored c hc)⟩
  rw [Coro.bind_apply, h₁]
  exact h₂

/-- The settings of the last call for a file are those of all calls for it, and have not been changed. -/
theorem last_of_persist {s₁ : Profiles} (h₁ : addProfiles L calls s = .done () s₁)
    (h₂ : refreshProfileList L s₁ = .done () s') (hkept : ∀ c ∈ calls, Kept c s') (hc : c ∈ calls) :
    ∃ d, view L s₁ c.fileName = .ok d ∧ c.settings.Shown d ∧ c.Clean L := by
  obtain ⟨hplain,d,hview,hshown⟩ := stored_of_kept h₂ (hkept c hc)
  rcases file_addProfiles h₁ c.fileName with ⟨_,hne⟩ | ⟨c',hc',hname,config,hconfig,hfile⟩
  · exact absurd rfl (hne c hc)
  obtain ⟨hplain',d',hview',hshown'⟩ := stored_of_kept h₂ (hkept c' hc')
  rw [hname, hview] at hview'
  cases hview'
  have hget : getProfileData L (some (Ini.write false config)) = .ok d := by
    rw [← hfile]
    exact hview
  have hvalues := fun p hp q hq => values_of_shown (p := p) (q := q) (unbroken_name hplain') hconfig hget hshown' hp hq
  obtain ⟨hsameName,_,hsameIp,_⟩ := same_of_shown hshown hshown'
  obtain ⟨hpercent,htrimmed⟩ := hvalues _ (c'.settings.mem_data.mpr (.inl rfl)) (nameKey,c'.settings.name)
    (c'.settings.user_perm.mem_iff.mpr (by simp))
  obtain ⟨hip,_⟩ := hvalues _ (c'.settings.mem_data.mpr (.inr rfl)) (ipKey,c'.settings.ip)
    (c'.settings.server_perm.mem_iff.mpr (by simp))
  refine ⟨d,hview,hshown,hplain,?_,?_,?_⟩
  · rw [hsameName]
    exact htrimmed
  · rw [hsameName]
    exact hpercent
  · rw [hsameIp]
    exact hip

theorem clean_of_persist (h : Persist L s calls) : (∀ c ∈ calls, c.Clean L) ∧
    ∀ c ∈ calls, ∀ c' ∈ calls, c.fileName = c'.fileName → c.settings.Same c'.settings := by
  obtain ⟨s',hrun,hkept⟩ := h
  obtain ⟨⟨⟩,s₁,h₁,h₂⟩ := Run.bind_eq_done hrun
  refine ⟨fun c hc => ?_,fun c hc c' hc' hname => ?_⟩
  · obtain ⟨_,_,_,hclean⟩ := last_of_persist h₁ h₂ hkept hc
    exact hclean
  · obtain ⟨d,hview,hshown,_⟩ := last_of_persist h₁ h₂ hkept hc
    obtain ⟨d',hview',hshown',_⟩ := last_of_persist h₁ h₂ hkept hc'
    rw [hname, hview'] at hview
    cases hview
    exact same_of_shown hshown hshown'

end Adding

/-- Profiles persist if the names of their files are written in small letters and read as they are, their
values are not changed by writing them, and no two different profiles have one file. -/
theorem profiles_persist_iff (L : Lowercase) {s₀ s : Profiles}
    (hs : loadProfilesToProgram L s₀ = .done () s) (calls : List AddCall) :
    Persist L s calls ↔ (∀ c ∈ calls, c.Clean L) ∧
      ∀ c ∈ calls, ∀ c' ∈ calls, c.fileName = c'.fileName → c.settings.Same c'.settings :=
  ⟨clean_of_persist,fun h => persist_of_clean (ready_of_load hs) h.1 h.2⟩

section Ascii

theorem toLower_of_isUpper {c : Char} (h : c.isUpper = true) : c.toLower.toNat = c.toNat + 32 := by
  have hrange := isUpper_range h
  have hupper : c.val ≥ 'A'.val ∧ c.val ≤ 'Z'.val := of_decide_eq_true h
  have hlower : c.toLower.val = c.val + ('a'.val - 'A'.val) := congrArg Char.val (dif_pos hupper)
  change c.toLower.val.toNat = c.val.toNat + 32
  rw [hlower, UInt32.toNat_add]
  have hval : c.val.toNat = c.toNat := rfl
  have hshift : ('a'.val - 'A'.val).toNat = 32 := rfl
  omega

theorem toLower_of_not_isUpper {c : Char} (h : c.isUpper = false) : c.toLower = c := by
  have hupper : ¬ (c.val ≥ 'A'.val ∧ c.val ≤ 'Z'.val) := of_decide_eq_false h
  exact dif_neg hupper

theorem caseless_of_isAlpha {c : Char} (h : c.isAlpha = true) : caseless c = false := by
  have hrange := (Bool.or_eq_true_iff.mp h).imp isUpper_range isLower_range
  rw [caseless, h, Bool.not_true, Bool.and_false, Bool.or_false]
  simp only [isSpace, Bool.or_eq_false_iff, Bool.and_eq_false_iff, decide_eq_false_iff_not,
    beq_eq_false_iff_ne]
  omega

theorem caseless_toLower (c : Char) : caseless c.toLower = caseless c := by
  cases h : c.isUpper with
  | false => rw [toLower_of_not_isUpper h]
  | true =>
    have hrange := isUpper_range h
    have hlower : c.toLower.isLower = true := by
      have := toLower_of_isUpper h
      refine Bool.and_eq_true_iff.mpr ?_
      simp only [decide_eq_true_eq, ge_iff_le, UInt32.le_iff_toNat_le]
      have hval : c.toLower.val.toNat = c.toLower.toNat := rfl
      have ha : 'a'.val.toNat = 97 := rfl
      have hz : 'z'.val.toNat = 122 := rfl
      omega
    rw [caseless_of_isAlpha (Bool.or_eq_true_iff.mpr (.inr hlower)),
      caseless_of_isAlpha (Bool.or_eq_true_iff.mpr (.inl h))]

theorem lowered_toLower (t : Text) : Lowered t (t.map Char.toLower) := by
  induction t with
  | nil => exact .nil
  | cons c t ih =>
    cases hc : caseless c with
    | true =>
      have hupper : c.isUpper = false := by
        refine Bool.eq_false_iff.mpr fun hu => ?_
        rw [caseless_of_isAlpha (Bool.or_eq_true_iff.mpr (.inl hu))] at hc
        cases hc
      rw [List.map_cons, toLower_of_not_isUpper hupper]
      exact .caseless hc ih
    | false =>
      refine .cased hc (List.cons_ne_nil c.toLower []) (List.forall_mem_singleton.mpr ?_) ih
      rw [caseless_toLower, hc]

theorem toLower_toLower (c : Char) : c.toLower.toLower = c.toLower := by
  cases h : c.isUpper with
  | false => rw [toLower_of_not_isUpper h, toLower_of_not_isUpper h]
  | true =>
    refine toLower_of_not_isUpper ?_
    have hrange := isUpper_range h
    have := toLower_of_isUpper h
    refine Bool.eq_false_iff.mpr fun hu => ?_
    have := isUpper_range hu
    omega

theorem map_toLower_toLower (t : Text) : (t.map Char.toLower).map Char.toLower = t.map Char.toLower := by
  rw [List.map_map]
  exact List.map_congr_left fun c _ => toLower_toLower c

theorem map_toLower_of_not_isUpper (t : Text) (h : ∀ c ∈ t, c.toNat < 128 ∧ c.isUpper = false) :
    t.map Char.toLower = t :=
  (List.map_congr_left fun c hc => toLower_of_not_isUpper (h c hc).2).trans (List.map_id t)

/-- `str.lower` of texts in which only ASCII letters have a case. -/
def asciiLowercase : Lowercase where
  lower := List.map Char.toLower
  lowered := lowered_toLower
  lower_lower := map_toLower_toLower
  lower_ascii := map_toLower_of_not_isUpper

/-- No profiles yet. -/
def noProfiles : Config (Option Text) := ⟨[],[(userProfiles,[])]⟩

def emptyProfiles : Profiles := { profileFiles := fun _ => none, configFile := Ini.write true noProfiles }

theorem load_emptyProfiles : loadProfilesToProgram asciiLowercase emptyProfiles =
    .done () { emptyProfiles with mainConfig := noProfiles } := by
  have hwell : WellFormed asciiLowercase true noProfiles := by
    have hname : ∀ s ∈ noProfiles.sections.keys, s ≠ defaultSection ∧ s ≠ [] ∧ Unbroken s := by decide
    refine ⟨⟨List.nodup_singleton _,hname,?_⟩,?_⟩ <;> intro options hoptions <;>
      obtain rfl : options = [] := by simpa [noProfiles] using hoptions
    · exact ⟨List.nodup_nil,nofun⟩
    · exact nofun
  exact loadProfilesToProgram_eq_done.mpr ⟨noProfiles,hwell.read_write,by decide,rfl⟩

def settingsOf (name : Text) : Settings :=
  ⟨name,7,"1.2.3.4".toList,45000,[(nameKey,name),(idKey,"7".toList)],
    [(ipKey,"1.2.3.4".toList),(portKey,"45000".toList)],
    [(userHeader,[(nameKey,name),(idKey,"7".toList)]),
      (serverHeader,[(ipKey,"1.2.3.4".toList),(portKey,"45000".toList)])],
    by decide,.refl _,.refl _,.refl _⟩

def callOf (name : Text) (h : '/' ∉ name ∧ Char.ofNat 0 ∉ name) : AddCall := ⟨settingsOf name,17357591142,h⟩

end Ascii

theorem profiles_persist_ali : Persist asciiLowercase
    { emptyProfiles with mainConfig := noProfiles } [callOf "ali".toList (by decide)] := by
  refine (profiles_persist_iff asciiLowercase load_emptyProfiles _).mpr ⟨?_,?_⟩
  · have hdelimiter : (callOf "ali".toList (by decide)).fileName.all (fun c => !isDelimiter c) = true := by
      decide
    refine List.forall_mem_singleton.mpr
      ⟨⟨by decide,by decide,fun c hc => ?_,by decide,⟨fun c hc => ?_,fun c hc => ?_⟩,by decide,by decide⟩,
        by decide,by decide,by decide⟩
    · simpa using List.all_eq_true.mp hdelimiter c hc
    · cases hc
      decide
    · cases hc
      decide
  · intro c hc c' hc' _
    obtain rfl := List.mem_singleton.mp hc
    obtain rfl := List.mem_singleton.mp hc'
    exact ⟨rfl,rfl,rfl,rfl⟩

/-- A name with a capital letter: the entry is in small letters, and there is no such file. -/
theorem profiles_do_not_persist : ∃ s, loadProfilesToProgram asciiLowercase emptyProfiles = .done () s ∧
    ¬ Persist asciiLowercase s [callOf "Ali".toList (by decide)] := by
  refine ⟨_,load_emptyProfiles,fun h => ?_⟩
  have hlower := ((clean_of_persist h).1 _ (List.mem_singleton_self _)).plain.lower
  exact absurd hlower (by decide)

end PeerConnect.Managers
