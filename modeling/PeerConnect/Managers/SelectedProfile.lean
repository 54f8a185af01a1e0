import PeerConnect.FrontEnd.Replies
import PeerConnect.Managers.ProfilesKept

/-! The choice of a profile on the page, which is kept as the current profile and in a section of the main
configuration. -/
namespace PeerConnect.Managers
open Library Text Ini Wire FrontEnd

inductive SelectionError
  | exn (e : Exn)
  | config (e : Ini.Error)

/-- A message from the page. Each is an object of its own, which the number tells. -/
structure PageData where
  number : ℕ
  data : DataWeaver

/-- What `set_current_profile` can be called with. -/
inductive Selection
  | profile (p : ProfileManager)
  | page (pageData : PageData)

/-- The profiles, with `_current_profile`. -/
structure Selections extends Profiles where
  currentProfile : Option Selection := none

def contentKey : List Char := "content".toList
def selectedProfile : Text := "SELECTED_PROFILE".toList

/-- `value == text` -/
def isText (t : Text) : Value → Bool
  | .str s => s = t
  | _ => false

/-- `value[key]`, of what `json.loads` may give. -/
def item (key : Text) : Value → Except Exn Value
  | .map kvs =>
    match kvs.find? fun kv => isText key kv.1 with
    | some kv => .ok kv.2
    | none => .error .keyError
  | _ => .error .typeError

def present : Option Text → Except Exn Text
  | some t => .ok t
  | none => .error .keyError

/-- `ProfileManager.__eq__`, where a message has a content that is no profile. -/
def ProfileManager.eqContent (p : ProfileManager) (content : Value) : Except Exn Bool :=
  match content with
  | .map _ => do
    let id ← present p.id
    if isText id (← item idKey (← item userHeader content)) then do
      let name ← present p.username
      if isText name (← item nameKey (← item userHeader content)) then do
        let ip ← present p.serverIp
        pure (isText ip (← item ipKey (← item serverHeader content)))
      else pure false
    else pure false
  | _ => pure false

/-- `profile == selected_profile.content` -/
def PageData.selects (page : PageData) (p : ProfileManager) : Except Exn Bool := do
  let content ← page.data.get contentKey
  p.eqContent content

/-- The loop of `set_selected_profile`. Without a match it ends with the message itself. -/
def PageData.select (page : PageData) : List ProfileManager → Except Exn Selection
  | [] => .ok (.page page)
  | p::ps => do
    if ← page.selects p then pure (.profile p) else page.select ps

/-- The property `file_name`, which a message does not have. -/
def Selection.fileName : Selection → Except Exn Text
  | .profile p => .ok p.fileName
  | .page _ => .error .attributeError

section Code
variable (L : Lowercase)

def setMainConfig (config : Config (Option Text)) : Coro SelectionError Selections Unit :=
  Coro.modify fun s => { s with mainConfig := config }

/-- `_main_config.write` to the file of the main configuration. -/
def writeConfig : Coro SelectionError Selections Unit :=
  Coro.modify fun s => { s with configFile := Ini.write true s.mainConfig }

def writeSelectedProfile (profile : Selection) : Coro SelectionError Selections Unit := do
  let config ← Coro.get fun s => s.mainConfig
  setMainConfig (config.removeSection selectedProfile)
  writeConfig
  let config ← Coro.get fun s => s.mainConfig.addSection selectedProfile
  let config ← Coro.ofExcept (config.mapError .config)
  setMainConfig config
  let fileName ← Coro.ofExcept (profile.fileName.mapError .exn)
  let config ← Coro.ofExcept ((config.setOption L selectedProfile fileName).mapError .config)
  setMainConfig config
  writeConfig

def setCurrentProfile (profile : Selection) : Coro SelectionError Selections Unit := do
  Coro.modify fun s => { s with currentProfile := some profile }
  writeSelectedProfile L profile

def setSelectedProfile (pageData : PageData) : Coro SelectionError Selections Unit := do
  let profileList ← Coro.get fun s => s.profileList
  let selected ← Coro.ofExcept ((pageData.select profileList).mapError .exn)
  setCurrentProfile L selected

/-- The section that is read from the file. -/
def onDisk (s : Selections) : Except Ini.Error (Option (Dict Text (Option Text))) := do
  let config ← Ini.read L true s.configFile
  pure (config.sections.get? selectedProfile)

/-- The profile is the current one, and the section has the name of its file and nothing else. -/
structure Selected (p : ProfileManager) (s : Selections) : Prop where
  current : s.currentProfile = some (.profile p)
  memory : s.mainConfig.sections.get? selectedProfile = some [(p.fileName,none)]
  disk : onDisk L s = .ok (some [(p.fileName,none)])

/-- Neither the current profile nor the section has changed. -/
structure Untouched (s s' : Selections) : Prop where
  current : s'.currentProfile = s.currentProfile
  memory : s'.mainConfig.sections.get? selectedProfile = s.mainConfig.sections.get? selectedProfile
  disk : onDisk L s' = onDisk L s

def AllOrNothing (page : PageData) (s : Selections) : Prop :=
  (∃ s' p, setSelectedProfile L page s = .done () s' ∧ p ∈ s.profileList ∧ Selected L p s') ∨
    ∃ e s', setSelectedProfile L page s = .raised e s' ∧ Untouched L s s'

/-- The first profile that does not just differ from the content of the message cannot be compared with
it, or is the one and has a file name that a file can hold as it is. -/
def Decided (page : PageData) (s : Selections) : Prop :=
  ∃ earlier p later, s.profileList = earlier ++ p::later ∧
    (∀ q ∈ earlier, page.selects q = .ok false) ∧
    ((∃ e, page.selects p = .error e) ∨ page.selects p = .ok true ∧ Plain L p.fileName)

end Code

section Selecting
variable {L : Lowercase} {page : PageData} {s : Selections} {p : ProfileManager}

theorem PageData.select_append {earlier : List ProfileManager}
    (h : ∀ q ∈ earlier, page.selects q = .ok false) (rest : List ProfileManager) :
    page.select (earlier ++ rest) = page.select rest := by
  induction earlier with
  | nil => rfl
  | cons q earlier ih =>
    obtain ⟨hq,hearlier⟩ := List.forall_mem_cons.mp h
    rw [List.cons_append, PageData.select, hq]
    exact ih hearlier

/-- Either no profile is the one, or there is a first that does not just differ. -/
theorem PageData.first_not_false (page : PageData) (ps : List ProfileManager) :
    (∀ q ∈ ps, page.selects q = .ok false) ∨ ∃ earlier p later, ps = earlier ++ p::later ∧
      (∀ q ∈ earlier, page.selects q = .ok false) ∧ page.selects p ≠ .ok false := by
  induction ps with
  | nil => exact .inl (List.forall_mem_nil _)
  | cons q ps ih =>
    by_cases hq : page.selects q = .ok false
    · apply ih.imp
      · exact fun h => List.forall_mem_cons.mpr ⟨hq,h⟩
      · rintro ⟨earlier,p,later,rfl,hearlier,hp⟩
        exact ⟨q::earlier,p,later,rfl,List.forall_mem_cons.mpr ⟨hq,hearlier⟩,hp⟩
    · exact .inr ⟨[],q,ps,rfl,List.forall_mem_nil _,hq⟩

theorem setSelectedProfile_error {e : Exn} (h : page.select s.profileList = .error e) :
    setSelectedProfile L page s = .raised (.exn e) s := by
  rw [setSelectedProfile, Coro.bind_apply, Coro.get_apply, Run.bind_done, h]
  rfl

/-- The configuration with a section for the one name. -/
def withSelected (name : Text) (c : Config (Option Text)) : Config (Option Text) :=
  { c with sections := c.sections.remove selectedProfile ++ [(selectedProfile,[(name,none)])] }

theorem get?_withSelected (name : Text) (c : Config (Option Text)) :
    (withSelected name c).sections.get? selectedProfile = some [(name,none)] := by
  rw [withSelected, Dict.get?_append, Dict.get?_eq_none_iff.mpr (Dict.notMem_keys_remove _ _)]
  rfl

theorem selectedProfile_ne : selectedProfile ≠ defaultSection := by decide

theorem addSection_removeSection (c : Config (Option Text)) :
    (c.removeSection selectedProfile).addSection selectedProfile =
      .ok { c with sections := c.sections.remove selectedProfile ++ [(selectedProfile,[])] } := by
  rw [Config.addSection, if_neg selectedProfile_ne, if_neg]
  · rfl
  · exact Dict.notMem_keys_remove _ _

theorem setOption_selected (name : Text) (c : Config (Option Text)) :
    Config.setOption L selectedProfile name
      { c with sections := c.sections.remove selectedProfile ++ [(selectedProfile,[])] } =
        .ok (withSelected (L.lower name) c) := by
  rw [Config.setOption, if_pos, Config.update, if_neg selectedProfile_ne,
    Dict.modify_append_of_notMem (Dict.notMem_keys_remove _ _)]
  · rfl
  · right
    rw [Dict.keys_append]
    exact List.mem_append_right _ (List.mem_singleton_self _)

/-- What is left of a selection that finds its profile. -/
def selectedState (L : Lowercase) (p : ProfileManager) (s : Selections) : Selections :=
  { s with
    currentProfile := some (.profile p)
    mainConfig := withSelected (L.lower p.fileName) s.mainConfig
    configFile := Ini.write true (withSelected (L.lower p.fileName) s.mainConfig) }

theorem setSelectedProfile_profile (h : page.select s.profileList = .ok (.profile p)) :
    setSelectedProfile L page s = .done () (selectedState L p s) := by
  simp only [setSelectedProfile, setCurrentProfile, writeSelectedProfile, setMainConfig, writeConfig, h,
    Coro.bind_apply, Coro.get_apply, Coro.modify_apply, Run.bind_done, addSection_removeSection,
    Except.mapError, Coro.ofExcept_ok, Selection.fileName, setOption_selected, selectedState]

/-- Without a match the message is the current profile before its file name is asked for. -/
theorem setSelectedProfile_page (h : page.select s.profileList = .ok (.page page)) :
    ∃ s', setSelectedProfile L page s = .raised (.exn .attributeError) s' ∧
      s'.currentProfile = some (.page page) := by
  simp only [setSelectedProfile, setCurrentProfile, writeSelectedProfile, setMainConfig, writeConfig, h,
    Coro.bind_apply, Coro.get_apply, Coro.modify_apply, Run.bind_done, addSection_removeSection,
    Except.mapError, Coro.ofExcept_ok, Coro.ofExcept_error, Selection.fileName, Run.bind_raised]
  exact ⟨_,rfl,rfl⟩

theorem disk_eq (h : WellFormed L true s.mainConfig) (hp : Plain L p.fileName) :
    onDisk L (selectedState L p s) = .ok (some [(p.fileName,none)]) := by
  have hname : selectedProfile ≠ [] ∧ Unbroken selectedProfile := by decide
  have hsection := (h.removeSection selectedProfile).addSection hname.1 hname.2
    (addSection_removeSection s.mainConfig)
  have hoption := hsection.setOption (hp.lower.symm ▸ hp) (setOption_selected p.fileName s.mainConfig)
  rw [onDisk, selectedState, hoption.read_write, hp.lower]
  exact congrArg Except.ok (get?_withSelected p.fileName s.mainConfig)

/-- A name that is read from the section is one that stands for itself. -/
theorem plain_of_onDisk {name : Text} (h : onDisk L s = .ok (some [(name,none)])) : Plain L name := by
  cases hread : Ini.read L true s.configFile with
  | error e =>
    rw [onDisk, hread] at h
    cases h
  | ok config =>
    rw [onDisk, hread] at h
    have hget : config.sections.get? selectedProfile = some [(name,none)] := Except.ok.inj h
    apply (wellFormed_of_read hread).plain (s := selectedProfile)
    apply Config.mem_optionNames.mpr
    left
    rw [Config.options, if_neg selectedProfile_ne, hget]
    exact List.mem_singleton_self _

/-- If no profile is the one, the message has become the current profile. -/
theorem not_allOrNothing_of_false (h : ∀ q ∈ s.profileList, page.selects q = .ok false)
    (hnew : s.currentProfile ≠ some (.page page)) : ¬ AllOrNothing L page s := by
  have hselect := PageData.select_append h []
  rw [List.append_nil] at hselect
  obtain ⟨s₁,hrun,hcurrent⟩ := setSelectedProfile_page (L := L) hselect
  rintro (⟨s',p,hdone,-⟩ | ⟨e,s',hraised,huntouched⟩)
  · rw [hrun] at hdone
    cases hdone
  · rw [hrun] at hraised
    cases hraised
    exact hnew (huntouched.current.symm.trans hcurrent)

/-- The selection is all or nothing just if there is a profile that it stops at, and it raises there or
the name of the file can be kept. -/
theorem selection_all_or_nothing_iff (L : Lowercase) (page : PageData) (s : Selections)
    (hconfig : WellFormed L true s.mainConfig) (hnew : s.currentProfile ≠ some (.page page)) :
    AllOrNothing L page s ↔ Decided L page s := by
  constructor
  · intro h
    rcases page.first_not_false s.profileList with hall | ⟨earlier,p,later,hlist,hearlier,hp⟩
    · exact absurd h (not_allOrNothing_of_false hall hnew)
    · refine ⟨earlier,p,later,hlist,hearlier,?_⟩
      have hselect := PageData.select_append hearlier (p::later)
      rw [← hlist, PageData.select] at hselect
      cases hcompare : page.selects p with
      | error e => exact .inl ⟨e,rfl⟩
      | ok b =>
        cases b with
        | false => exact absurd hcompare hp
        | true =>
          rw [hcompare] at hselect
          have hrun := setSelectedProfile_profile (L := L) hselect
          right
          refine ⟨rfl,?_⟩
          rcases h with ⟨s',q,hdone,-,hselected⟩ | ⟨e,s',hraised,-⟩
          · rw [hrun] at hdone
            cases hdone
            obtain rfl : p = q := by
              have := hselected.current
              cases this
              rfl
            exact plain_of_onDisk hselected.disk
          · rw [hrun] at hraised
            cases hraised
  · rintro ⟨earlier,p,later,hlist,hearlier,hp⟩
    have hselect := PageData.select_append hearlier (p::later)
    rw [← hlist, PageData.select] at hselect
    rcases hp with ⟨e,hcompare⟩ | ⟨hcompare,hplain⟩
    · rw [hcompare] at hselect
      exact .inr ⟨_,s,setSelectedProfile_error hselect,rfl,rfl,rfl⟩
    · rw [hcompare] at hselect
      have hmem : p ∈ s.profileList := hlist ▸ List.mem_append_right _ List.mem_cons_self
      have hmemory := get?_withSelected (L.lower p.fileName) s.mainConfig
      rw [hplain.lower] at hmemory
      left
      refine ⟨_,p,setSelectedProfile_profile hselect,hmem,rfl,?_,disk_eq hconfig hplain⟩
      rw [selectedState, hplain.lower]
      exact hmemory

end Selecting

def aliFile : Text := "ali.ini".toList

def ali : ProfileManager :=
  ⟨aliFile,[(userHeader,[(nameKey,"ali".toList),(idKey,"7".toList)]),
    (serverHeader,[(ipKey,"1.2.3.4".toList),(portKey,"45000".toList)])]⟩

/-- One profile, which is the current one. -/
def aliSelected : Selections where
  profileFiles := fun _ => none
  configFile := Ini.write true ⟨[],[(userProfiles,[(aliFile,none)]),(selectedProfile,[(aliFile,none)])]⟩
  mainConfig := ⟨[],[(userProfiles,[(aliFile,none)]),(selectedProfile,[(aliFile,none)])]⟩
  profileList := [ali]
  currentProfile := some (.profile ali)

theorem plain_aliFile : Plain asciiLowercase aliFile := by
  have hdelimiter : aliFile.all (fun c => !isDelimiter c) = true := by decide
  refine ⟨by decide,by decide,fun c hc => ?_,by decide,⟨fun c hc => ?_,fun c hc => ?_⟩,by decide,by decide⟩
  · simpa using List.all_eq_true.mp hdelimiter c hc
  · cases hc
    decide
  · cases hc
    decide

theorem wellFormed_aliSelected : WellFormed asciiLowercase true aliSelected.mainConfig := by
  have hnodup : aliSelected.mainConfig.sections.keys.Nodup := by decide
  have hname : ∀ s ∈ aliSelected.mainConfig.sections.keys, s ≠ defaultSection ∧ s ≠ [] ∧ Unbroken s := by
    decide
  have hoptions : ∀ options ∈ aliSelected.mainConfig.defaults::aliSelected.mainConfig.sections.map Prod.snd,
      options = [] ∨ options = [(aliFile,none)] := by
    simp [aliSelected]
  refine ⟨⟨hnodup,hname,fun options ho => ?_⟩,fun options ho p hp => ?_⟩
  · rcases hoptions options ho with rfl | rfl
    · exact ⟨List.nodup_nil,List.forall_mem_nil _⟩
    · exact ⟨List.nodup_singleton _,List.forall_mem_singleton.mpr ⟨plain_aliFile,rfl⟩⟩
  · rcases hoptions options ho with rfl | rfl
    · cases hp
    · obtain rfl := List.mem_singleton.mp hp
      intro v hv
      cases hv

/-- A message with the user and the server of a profile as its content. -/
def pageFor (name id ip : Text) : PageData :=
  ⟨0,⟨[⟨contentKey,.map [(.str userHeader,.map [(.str nameKey,.str name),(.str idKey,.str id)]),
    (.str serverHeader,.map [(.str ipKey,.str ip)])]⟩].toAList⟩⟩

theorem selection_all_or_nothing_ali :
    AllOrNothing asciiLowercase (pageFor "ali".toList "7".toList "1.2.3.4".toList) aliSelected :=
  (selection_all_or_nothing_iff asciiLowercase (pageFor "ali".toList "7".toList "1.2.3.4".toList) aliSelected
    wellFormed_aliSelected (fun h => by cases h)).mpr
      ⟨[],ali,[],rfl,List.forall_mem_nil _,.inr ⟨rfl,plain_aliFile⟩⟩

/-- A message about somebody else: afterwards it is the current profile itself. -/
theorem selection_not_all_or_nothing : aliSelected.currentProfile = some (.profile ali) ∧
    ¬ AllOrNothing asciiLowercase (pageFor "eve".toList "8".toList "1.2.3.4".toList) aliSelected :=
  ⟨rfl,not_allOrNothing_of_false (List.forall_mem_singleton.mpr rfl) (fun h => by cases h)⟩

end PeerConnect.Managers
