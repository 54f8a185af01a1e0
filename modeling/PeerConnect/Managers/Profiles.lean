import PeerConnect.Library.Coroutine
import PeerConnect.Library.IniAccepted
import PeerConnect.Library.Interpolation
import Mathlib.Logic.Function.Basic

/-! The profiles: each is a file of its own, and an entry of the main configuration. -/
namespace PeerConnect.Managers
open Library Text Ini

/-- Of `KeyError` and `LookupError` the one is the other as well. -/
inductive ProfileError
  | lookup
  | key
  | config (e : Ini.Error)
  deriving DecidableEq

abbrev ProfileData : Type := Dict Text (Dict Text Text)

def userHeader : Text := "USER".toList
def serverHeader : Text := "SERVER".toList
def userProfiles : Text := "USER_PROFILES".toList
def nameKey : Text := "name".toList
def idKey : Text := "id".toList
def ipKey : Text := "ip".toList
def portKey : Text := "port".toList

namespace ProfileData

def option (header key : Text) (d : ProfileData) : Option Text := (d.get? header).bind (Dict.get? key)

/-- `match_pattern` -/
def Matches (d : ProfileData) : Prop :=
  (d.option serverHeader ipKey).isSome ∧ (d.option serverHeader portKey).isSome ∧
    (d.option userHeader nameKey).isSome ∧ (d.option userHeader idKey).isSome

instance (d : ProfileData) : Decidable d.Matches := inferInstanceAs (Decidable (_ ∧ _))

end ProfileData

/-- One profile. -/
structure ProfileManager where
  fileName : Text
  profileData : ProfileData

namespace ProfileManager

def username (p : ProfileManager) : Option Text := p.profileData.option userHeader nameKey
def id (p : ProfileManager) : Option Text := p.profileData.option userHeader idKey
def serverIp (p : ProfileManager) : Option Text := p.profileData.option serverHeader ipKey
def serverPort (p : ProfileManager) : Option Text := p.profileData.option serverHeader portKey

end ProfileManager

/-- What the class has of all profiles, and the files. -/
structure Profiles where
  profileFiles : Text → Option Text
  configFile : Text
  mainConfig : Config (Option Text) := {}
  profileList : List ProfileManager := []

section Code
variable (L : Lowercase)

/-- `__load_profile_data`: a file that is missing reads as empty. -/
def loadProfileData (file : Option Text) : Except Ini.Error ProfileData := do
  let config ← Ini.read L false (file.getD [])
  config.sections.traverse fun s _ => config.items L s

def getProfileData (file : Option Text) : Except ProfileError ProfileData :=
  match loadProfileData L file with
  | .ok data => if data.Matches then .ok data else .error .lookup
  | .error e => .error (.config e)

/-- `ProfileManager(file_name)` -/
def profile (fileName : Text) : Coro ProfileError Profiles ProfileManager := do
  let file ← Coro.get fun s => s.profileFiles fileName
  let data ← Coro.ofExcept (getProfileData L file)
  pure ⟨fileName,data⟩

def append (p : ProfileManager) : Coro ProfileError Profiles Unit :=
  Coro.modify fun s => { s with profileList := s.profileList ++ [p] }

/-- The main configuration, and the file with it. -/
def saveMainConfig (config : Config (Option Text)) : Coro ProfileError Profiles Unit :=
  Coro.modify fun s => { s with mainConfig := config, configFile := Ini.write true config }

def writeToMainConfig (fileName : Text) : Coro ProfileError Profiles Unit := do
  let config ← Coro.get fun s => s.mainConfig.setOption L userProfiles fileName
  match config with
  | .ok config => saveMainConfig config
  | .error e => Coro.raise (.config e)

def removeFromMainConfig (fileName : Text) : Coro ProfileError Profiles Unit := do
  let config ← Coro.get Profiles.mainConfig
  saveMainConfig (config.removeOption L userProfiles fileName)

def profileConfig (settings : ProfileData) : Except Ini.Error (Config (Option Text)) :=
  ({} : Config (Option Text)).setItems L settings

/-- `__uniquify`, at the tenths of a second that have gone by. -/
def uniquify (username : Text) (time : ℕ) : Text := username ++ (toString time).toList

def addProfile (profileName : Text) (time : ℕ) (settings : ProfileData) :
    Coro ProfileError Profiles Unit := do
  let fileName := uniquify profileName time ++ ".ini".toList
  match profileConfig L settings with
  | .error e => Coro.raise (.config e)
  | .ok config =>
    Coro.modify fun s => { s with
      profileFiles := Function.update s.profileFiles fileName (some (Ini.write false config)) }
    writeToMainConfig L fileName
    let p ← profile L fileName
    append p

def deleteProfile (fileName : Text) : Coro ProfileError Profiles Unit := do
  Coro.modify fun s => { s with profileFiles := Function.update s.profileFiles fileName none }
  removeFromMainConfig L fileName

/-- A profile that is not complete is deleted. -/
def loadProfile (fileName : Text) : Coro ProfileError Profiles Unit :=
  Coro.tryCatch (profile L fileName >>= append) fun
    | .config e => Coro.raise (.config e)
    | _ => deleteProfile L fileName

def loadProfiles : List Text → Coro ProfileError Profiles Unit
  | [] => pure ()
  | fileName::rest => do
    loadProfile L fileName
    loadProfiles rest

def loadProfilesToProgram : Coro ProfileError Profiles Unit := do
  let file ← Coro.get Profiles.configFile
  match Ini.read L true file with
  | .error e => Coro.raise (.config e)
  | .ok config =>
    Coro.modify fun s => { s with mainConfig := config }
    if config.Has userProfiles then loadProfiles L (config.optionNames userProfiles)
    else Coro.raise .key

def refreshProfileList : Coro ProfileError Profiles Unit := do
  Coro.modify fun s => { s with profileList := [] }
  loadProfilesToProgram L

end Code

/-- The settings of a profile, their headers and keys in any order. -/
structure Settings where
  name : Text
  id : ℤ
  ip : Text
  port : ℕ
  user : Dict Text Text
  server : Dict Text Text
  data : ProfileData
  solid : Solid ip
  user_perm : user.Perm [(nameKey,name),(idKey,(toString id).toList)]
  server_perm : server.Perm [(ipKey,ip),(portKey,(toString port).toList)]
  data_perm : data.Perm [(userHeader,user),(serverHeader,server)]

/-- A call of `add_profile` with a name that can be the name of a file. -/
structure AddCall where
  settings : Settings
  time : ℕ
  accepted : '/' ∉ settings.name ∧ Char.ofNat 0 ∉ settings.name

namespace AddCall

def fileName (c : AddCall) : Text := uniquify c.settings.name c.time ++ ".ini".toList

end AddCall

def addProfiles (L : Lowercase) : List AddCall → Coro ProfileError Profiles Unit
  | [] => pure ()
  | c::rest => do
    addProfile L c.settings.name c.time c.settings.data
    addProfiles L rest

/-- There is a profile for the call, with the settings of the call; it has not been deleted. -/
structure Kept (c : AddCall) (s : Profiles) : Prop where
  listed : ∃ p ∈ s.profileList, p.fileName = c.fileName ∧ p.username = some c.settings.name ∧
    p.id = some (toString c.settings.id).toList ∧ p.serverIp = some c.settings.ip ∧
    p.serverPort = some (toString c.settings.port).toList
  file : s.profileFiles c.fileName ≠ none
  entry : c.fileName ∈ s.mainConfig.optionNames userProfiles

/-- The calls add their profiles, and all of them are there when the list is read again. -/
def Persist (L : Lowercase) (s : Profiles) (calls : List AddCall) : Prop :=
  ∃ s', (addProfiles L calls >>= fun _ => refreshProfileList L) s = .done () s' ∧
    ∀ c ∈ calls, Kept c s'

section Loading
variable {L : Lowercase} {s s' s'' : Profiles} {names names' : List Text}

/-- The profile that is stored under a name. -/
def view (L : Lowercase) (s : Profiles) (fileName : Text) : Except ProfileError ProfileData :=
  getProfileData L (s.profileFiles fileName)

theorem getProfileData_eq_ok {file : Option Text} {d : ProfileData} :
    getProfileData L file = .ok d ↔ loadProfileData L file = .ok d ∧ d.Matches := by
  unfold getProfileData
  cases loadProfileData L file with
  | error e => simp
  | ok data =>
    by_cases hm : data.Matches
    · simp only [if_pos hm, Except.ok.injEq]
      exact ⟨fun h => ⟨h,h ▸ hm⟩,And.left⟩
    · simp only [if_neg hm, Except.ok.injEq, reduceCtorEq, false_iff]
      rintro ⟨rfl,hd⟩
      exact hm hd

theorem getProfileData_none : getProfileData L none = .error .lookup := rfl

theorem getProfileData_ne_key (file : Option Text) : getProfileData L file ≠ .error .key := by
  unfold getProfileData
  split
  · split <;> nofun
  · nofun

theorem userProfiles_ne : userProfiles ≠ defaultSection := by decide

theorem deleteProfile_apply (fileName : Text) (s : Profiles) : deleteProfile L fileName s = .done ()
    ⟨Function.update s.profileFiles fileName none,
      Ini.write true (s.mainConfig.removeOption L userProfiles fileName),
      s.mainConfig.removeOption L userProfiles fileName,s.profileList⟩ := rfl

theorem loadProfile_apply (fileName : Text) (s : Profiles) : loadProfile L fileName s =
    match view L s fileName with
    | .ok d => .done () { s with profileList := s.profileList ++ [⟨fileName,d⟩] }
    | .error (.config e) => .raised (.config e) s
    | .error _ => deleteProfile L fileName s := by
  simp only [loadProfile, profile, append, Coro.tryCatch_apply, Coro.bind_apply, Coro.get_apply,
    Run.bind_done, view]
  cases getProfileData L (s.profileFiles fileName) with
  | ok d => rfl
  | error e => cases e <;> rfl

/-- The profiles that are stored under these names. -/
def found (L : Lowercase) (s : Profiles) (names : List Text) : List ProfileManager :=
  names.filterMap fun n =>
    match view L s n with
    | .ok d => some ⟨n,d⟩
    | .error _ => none

theorem mem_found {p : ProfileManager} :
    p ∈ found L s names ↔ p.fileName ∈ names ∧ view L s p.fileName = .ok p.profileData := by
  rw [found, List.mem_filterMap]
  constructor
  · rintro ⟨n,hn,hp⟩
    cases hview : view L s n with
    | error e => rw [hview] at hp; cases hp
    | ok d =>
      rw [hview] at hp
      cases hp
      exact ⟨hn,hview⟩
  · rintro ⟨hmem,hview⟩
    exact ⟨p.fileName,hmem,by rw [hview]⟩

/-- What loading does: it lists the profiles that are complete, and deletes no others than those that
are not. -/
structure Loaded (L : Lowercase) (names : List Text) (s s' : Profiles) : Prop where
  view_eq : view L s' = view L s
  files : ∀ f d, view L s f = .ok d → s'.profileFiles f = s.profileFiles f
  list : s'.profileList = s.profileList ++ found L s names
  complete : ∀ n ∈ names, ∀ e, view L s n ≠ .error (.config e)
  config : Ini.read L true s.configFile = .ok s.mainConfig → s.mainConfig.Has userProfiles →
    Ini.read L true s'.configFile = .ok s'.mainConfig ∧ s'.mainConfig.Has userProfiles ∧
      (∀ f ∈ s'.mainConfig.optionNames userProfiles, f ∈ s.mainConfig.optionNames userProfiles) ∧
      ((∀ n ∈ names, L.lower n = n) → ∀ f d, view L s f = .ok d →
        f ∈ s.mainConfig.optionNames userProfiles → f ∈ s'.mainConfig.optionNames userProfiles)

theorem Loaded.nil (s : Profiles) : Loaded L [] s s where
  view_eq := rfl
  files := fun _ _ _ => rfl
  list := (List.append_nil _).symm
  complete := nofun
  config := fun hread hhas => ⟨hread,hhas,fun _ => id,fun _ _ _ _ => id⟩

theorem Loaded.append (h : Loaded L names s s') (h' : Loaded L names' s' s'') :
    Loaded L (names ++ names') s s'' where
  view_eq := h'.view_eq.trans h.view_eq
  files := fun f d hd => (h'.files f d (h.view_eq ▸ hd)).trans (h.files f d hd)
  list := by
    rw [h'.list, h.list, List.append_assoc]
    simp only [found, List.filterMap_append, h.view_eq]
  complete := fun n hn => (List.mem_append.mp hn).elim (h.complete n)
    fun hn => h.view_eq ▸ h'.complete n hn
  config := by
    intro hread hhas
    obtain ⟨hread,hhas,hsub,hkept⟩ := h.config hread hhas
    obtain ⟨hread',hhas',hsub',hkept'⟩ := h'.config hread hhas
    refine ⟨hread',hhas',fun f hf => hsub f (hsub' f hf),fun hlower f d hd hf => ?_⟩
    obtain ⟨hnames,hnames'⟩ := List.forall_mem_append.mp hlower
    exact hkept' hnames' f d (h.view_eq ▸ hd) (hkept hnames f d hd hf)

theorem loaded_deleteProfile {n : Text} (hn : view L s n = .error .lookup)
    (h : deleteProfile L n s = .done () s') : Loaded L [n] s s' := by
  rw [deleteProfile_apply] at h
  cases h
  refine ⟨funext fun f => ?_,fun f d hd => ?_,?_,?_,fun hread hhas => ⟨?_,hhas.update _,?_,?_⟩⟩
  · by_cases hf : f = n
    · rw [hf, hn, view]
      exact (congrArg (getProfileData L) (Function.update_self n none s.profileFiles)).trans
        getProfileData_none
    · exact congrArg (getProfileData L) (Function.update_of_ne hf none s.profileFiles)
  · have hne : f ≠ n := by
      rintro rfl
      rw [hn] at hd
      cases hd
    exact Function.update_of_ne hne none s.profileFiles
  · simp [found, hn]
  · intro m hm e
    obtain rfl := List.mem_singleton.mp hm
    rw [hn]
    nofun
  · exact ((wellFormed_of_read hread).removeOption userProfiles n).read_write
  · intro f hf
    rw [Config.removeOption, Config.mem_optionNames_update userProfiles_ne hhas] at hf
    exact Config.mem_optionNames.mpr (hf.imp_left fun hf => (Dict.mem_keys_remove.mp hf).1)
  · intro hlower f d hd hf
    rw [Config.removeOption, Config.mem_optionNames_update userProfiles_ne hhas]
    refine (Config.mem_optionNames.mp hf).imp_left fun hf => Dict.mem_keys_remove.mpr ⟨hf,?_⟩
    rw [hlower n (List.mem_singleton_self n)]
    rintro rfl
    rw [hn] at hd
    cases hd

theorem loaded_loadProfile {n : Text} (h : loadProfile L n s = .done () s') : Loaded L [n] s s' := by
  rw [loadProfile_apply] at h
  cases hview : view L s n with
  | ok d =>
    rw [hview] at h
    cases h
    refine ⟨rfl,fun _ _ _ => rfl,?_,?_,fun hread hhas => ⟨hread,hhas,fun _ => id,fun _ _ _ _ => id⟩⟩
    · simp [found, hview]
    · intro m hm e
      obtain rfl := List.mem_singleton.mp hm
      rw [hview]
      nofun
  | error e =>
    rw [hview] at h
    cases e with
    | lookup => exact loaded_deleteProfile hview h
    | key => exact absurd hview (getProfileData_ne_key _)
    | config e => cases h

theorem loaded_loadProfiles (h : loadProfiles L names s = .done () s') : Loaded L names s s' := by
  induction names generalizing s with
  | nil => cases h; exact Loaded.nil _
  | cons n names ih =>
    obtain ⟨⟨⟩,s₁,h₁,h₂⟩ := Run.bind_eq_done h
    exact (loaded_loadProfile h₁).append (ih h₂)

/-- Loading comes to its end if every file that is there can be read. -/
theorem loadProfiles_done (h : ∀ n ∈ names, ∀ e, view L s n ≠ .error (.config e)) :
    ∃ s', loadProfiles L names s = .done () s' := by
  induction names generalizing s with
  | nil => exact ⟨s,rfl⟩
  | cons n names ih =>
    obtain ⟨hn,hnames⟩ := List.forall_mem_cons.mp h
    obtain ⟨s₁,h₁⟩ : ∃ s₁, loadProfile L n s = .done () s₁ := by
      rw [loadProfile_apply]
      cases hview : view L s n with
      | ok d => exact ⟨_,rfl⟩
      | error e =>
        cases e with
        | config e => exact absurd hview (hn e)
        | lookup => exact ⟨_,deleteProfile_apply n s⟩
        | key => exact absurd hview (getProfileData_ne_key _)
    obtain ⟨s',h'⟩ := ih (s := s₁) fun m hm e => (loaded_loadProfile h₁).view_eq ▸ hnames m hm e
    refine ⟨s',?_⟩
    rw [loadProfiles, Coro.bind_apply, h₁]
    exact h'

end Loading

end PeerConnect.Managers
