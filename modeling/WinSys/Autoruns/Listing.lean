import WinSys.Autoruns.OneEntry

/-!
# What the calls do to the list

* `delete_cases`: what a `Delete` can do
* `ActsOnOne`, `acts_on_one`
-/

namespace WinSys.Autoruns

open Infra Texts

variable {env : Env} {s t : System env} {c : Calls} {e : AutorunEntry}

/-! ## deleting -/

theorem deleteStored_cases (c : Calls) (s : System env) (e : AutorunEntry) :
    (∃ error ≠ ERROR_SUCCESS, deleteStored c s e = (error, s)) ∨
    (e.store = .registryValue ∧ deleteStored c s e
      = (ERROR_SUCCESS, s.deleteValue e.root e.subKey e.valueName c.written)) ∨
    (e.store = .startupFile ∧ deleteStored c s e
      = (ERROR_SUCCESS, s.deleteFile (joined e.location e.name))) := by
  unfold deleteStored
  cases hstore : e.store with
  | registryValue =>
    simp only
    split
    · exact .inl ⟨_, by decide, rfl⟩
    · split
      · exact .inl ⟨_, by decide, rfl⟩
      · split
        · next h => exact .inl ⟨_, h, rfl⟩
        · split
          · exact .inl ⟨_, by decide, rfl⟩
          · exact .inr (.inl ⟨trivial, rfl⟩)
  | startupFile =>
    simp only
    split
    · exact .inl ⟨_, by decide, rfl⟩
    · split
      · exact .inl ⟨_, by decide, rfl⟩
      · split
        · next h => exact .inl ⟨_, h, rfl⟩
        · exact .inr (.inr ⟨trivial, rfl⟩)

theorem delete_cases (c : Calls) (s : System env) (e : AutorunEntry) :
    (∃ error ≠ ERROR_SUCCESS, delete c s e = (error, s)) ∨
    (e.store = .registryValue ∧ delete c s e = (ERROR_SUCCESS,
      forgetApproved c (s.deleteValue e.root e.subKey e.valueName c.written) e)) ∨
    (e.store = .startupFile ∧ delete c s e = (ERROR_SUCCESS,
      forgetApproved c (s.deleteFile (joined e.location e.name)) e)) := by
  unfold delete
  split
  · exact .inl ⟨_, by decide, rfl⟩
  · obtain ⟨error, hne, heq⟩ | ⟨hstore, heq⟩ | ⟨hstore, heq⟩ := deleteStored_cases c s e
    · simp only [heq, if_neg hne]
      exact .inl ⟨error, hne, rfl⟩
    · simp only [heq]
      exact .inr (.inl ⟨hstore, rfl⟩)
    · simp only [heq]
      exact .inr (.inr ⟨hstore, rfl⟩)

theorem sameStored_forgetApproved (c : Calls) (s : System env) (e : AutorunEntry) :
    SameStored s (forgetApproved c s e) := by
  unfold forgetApproved
  split
  · exact sameStored_modifyKey s e _
  · exact ⟨rfl, fun _ _ => rfl⟩

theorem approvedValue_forgetApproved_of_not {x : AutorunEntry} (h : ¬ SameSlot env x e) :
    approvedValue (forgetApproved c s e) x = approvedValue s x := by
  unfold forgetApproved
  split
  · rw [approvedValue, System.readAt_deleteValue, if_neg]
    · rfl
    · exact fun hs => h ⟨hs.1.1, hs.1.2, hs.2⟩
  · rfl

theorem approvedValue_forgetApproved (hen : e.enabled ≠ none) (ho : c.openApproved = ERROR_SUCCESS)
    (hd : c.deleteApproved = ERROR_SUCCESS) : approvedValue (forgetApproved c s e) e = none := by
  rw [forgetApproved, if_pos ⟨hen, ho, hd⟩, approvedValue, System.readAt_deleteValue,
    if_pos ⟨⟨rfl, rfl⟩, rfl⟩]

/-- The state that goes with a deleted entry is no other entry's. -/
theorem enum_forgetApproved {b : Source} (hb : b ∈ sources) (hfrom : From t b e)
    (hne : ∀ x ∈ enum s, place env x ≠ place env e) :
    enum (forgetApproved c s e) = enum s := by
  by_cases hen : e.enabled = none
  · rw [forgetApproved, if_neg fun h => h.1 hen]
  · rw [enum_reapproved (sameStored_forgetApproved c s e)]
    refine (List.map_congr_left fun x hx => ?_).trans (List.map_id _)
    by_cases hex : x.enabled = none
    · exact reapproved_of_none hex
    · obtain ⟨a, ha, hxfrom, -⟩ := exists_source hx
      rw [reapproved_congr (u := s), reapproved_self hx, id]
      rw [approvedValue_forgetApproved_of_not]
      exact fun hs => hne x hx (hxfrom.place_eq ha hb hfrom hex hen hs)

/-- An entry that is deleted leaves its place. -/
theorem place_ne_of_erased (hplain : Plain s) (he : e ∈ enum s)
    {f g : AutorunEntry → AutorunEntry} (hf : ∀ x, place env (f x) = place env x)
    (hg : ∀ x, place env (g x) = place env x) (h : (enum t).map f = ((enum s).erase e).map g) :
    ∀ x ∈ enum t, place env x ≠ place env e := by
  intro x hx
  have hmem : f x ∈ ((enum s).erase e).map g := h ▸ List.mem_map_of_mem hx
  obtain ⟨y, hy, hyx⟩ := List.mem_map.mp hmem
  rw [List.erase_eq_filter_key (place_nodup hplain) he, List.mem_filter] at hy
  rw [← hf x, ← hyx, hg y]
  exact of_decide_eq_true hy.2

theorem enum_delete_value (hplain : Plain s) (he : e ∈ enum s) (hstore : e.store = .registryValue)
    (h : (delete c s e).1 = ERROR_SUCCESS) :
    (enum (delete c s e).2).map timeless = ((enum s).erase e).map timeless := by
  obtain ⟨error, hne, heq⟩ | ⟨-, heq⟩ | ⟨hfile, -⟩ := delete_cases c s e
  · rw [heq] at h
    exact absurd h hne
  · have herased := enum_deleteValue hplain he hstore c.written
    obtain ⟨b, hb, hfrom, -⟩ := exists_source he
    rw [heq, enum_forgetApproved hb hfrom
      (place_ne_of_erased (f := timeless) (g := timeless) hplain he (fun _ => rfl) (fun _ => rfl)
        herased)]
    exact herased
  · cases hstore.symm.trans hfile

theorem files_forgetApproved : (forgetApproved c s e).files = s.files :=
  (sameStored_forgetApproved c s e).files

theorem lookedUp_congr (h : t.files = s.files) (x : AutorunEntry) : lookedUp t x = lookedUp s x := by
  simp only [lookedUp, withImageFound, System.isFile_congr h]

theorem enum_delete_file (hplain : Plain s) (htwo : TwoFolders env) (he : e ∈ enum s)
    (hstore : e.store = .startupFile) (h : (delete c s e).1 = ERROR_SUCCESS) :
    enum (delete c s e).2 = ((enum s).erase e).map (lookedUp (delete c s e).2) := by
  obtain ⟨error, hne, heq⟩ | ⟨hvalue, -⟩ | ⟨-, heq⟩ := delete_cases c s e
  · rw [heq] at h
    exact absurd h hne
  · cases hstore.symm.trans hvalue
  · have herased := enum_deleteFile hplain htwo he hstore
    obtain ⟨b, hb, hfrom, -⟩ := exists_source he
    have hplaces := place_ne_of_erased (f := id) (g := lookedUp _) hplain he (fun _ => rfl)
      (fun _ => rfl) ((List.map_id _).trans herased)
    rw [heq, enum_forgetApproved hb hfrom hplaces, herased]
    exact List.map_congr_left fun x _ => (lookedUp_congr files_forgetApproved x).symm

/-- A success deletes the state where the system lets it. -/
theorem approvedValue_delete (h : (delete c s e).1 = ERROR_SUCCESS) (hen : e.enabled ≠ none)
    (ho : c.openApproved = ERROR_SUCCESS) (hd : c.deleteApproved = ERROR_SUCCESS) :
    approvedValue (delete c s e).2 e = none := by
  obtain ⟨error, hne, heq⟩ | ⟨-, heq⟩ | ⟨-, heq⟩ := delete_cases c s e
  · rw [heq] at h
    exact absurd h hne
  · rw [heq, approvedValue_forgetApproved hen ho hd]
  · rw [heq, approvedValue_forgetApproved hen ho hd]

theorem eq_of_tag {a b : Source} (ha : a ∈ sources) (hb : b ∈ sources) {x : AutorunEntry}
    (hx : From t a x) (he : From s b e) (h : place env x = place env e) : a = b := by
  refine List.inj_on_of_nodup_map tags_nodup ha hb ?_
  rw [place, place, Prod.mk.injEq, Prod.mk.injEq, Prod.mk.injEq, hx.store, he.store, hx.root,
    he.root, hx.subKey, he.subKey] at h
  obtain ⟨⟨hstore, hroot, hkey⟩, -⟩ := h
  have hlen := congrArg List.length hkey
  rw [pathKey_length, pathKey_length] at hlen
  rw [hstore, hroot, hlen]

/-- Where there is no state, an entry at the place is listed as enabled. -/
theorem enabled_of_approvedValue_none (he : e ∈ enum s) (hen : e.enabled ≠ none)
    (hnone : approvedValue t e = none) {x : AutorunEntry} (hx : x ∈ enum t)
    (hplace : place env x = place env e) : x.enabled = some true := by
  obtain ⟨b, hb, hfrom, -⟩ := exists_source he
  obtain ⟨a, ha, hxfrom, -⟩ := exists_source hx
  obtain rfl := eq_of_tag ha hb hxfrom hfrom hplace
  rw [hfrom.enabled, ne_eq, Option.map_eq_none_iff, ← ne_eq, Option.ne_none_iff_exists'] at hen
  obtain ⟨p, hp⟩ := hen
  have hread : t.readAt a.root (approvedKey ++ p) x.valueName = none := by
    rw [approvedValue, hfrom.approvedName p hp, hfrom.root] at hnone
    rw [← hnone]
    unfold System.readAt RegKey.readValue
    rw [show upper env (cstr x.valueName) = upper env (cstr e.valueName) from
      congrArg Prod.snd hplace]
  rw [hxfrom.enabled, hp, Option.map_some, isApproved_eq, hread]
  rfl

/-! ## enabling -/

theorem sameStored_setEnabled (c : Calls) (s : System env) (e : AutorunEntry) (enable : Bool) :
    SameStored s (setEnabled c s e enable).2 := by
  obtain ⟨error, -, heq⟩ | ⟨error, -, heq⟩ | ⟨-, heq⟩ := setEnabled_cases c s e enable
  · rw [heq]
    exact ⟨rfl, fun _ _ => rfl⟩
  · rw [heq]
    exact sameStored_createKey s e c.written
  · rw [heq]
    exact sameStored_withState c s e enable

theorem setEnabled_error (c : Calls) (s t : System env) (e : AutorunEntry) (enable : Bool) :
    (setEnabled c s e enable).1 = (setEnabled c t e enable).1 := by
  simp only [setEnabled]
  split
  · rfl
  · split
    · rfl
    · split <;> rfl

/-- What is read in a key under a name. -/
def valueAt (s : System env) (root : HKey) (subKey name : WString) : Option (UInt32 × Bytes) :=
  (s.readAt root subKey name).map typeAndData

/-- The name in the key is where the entry's state is. -/
def IsSlot (env : Env) (e : AutorunEntry) (root : HKey) (subKey name : WString) : Prop :=
  (root = e.root ∧ pathKey env subKey = pathKey env (approvedKey ++ approvedName e)) ∧
    upper env (cstr name) = upper env (cstr e.valueName)

open Classical in
/-- A success writes the state, and nothing else is read differently. -/
theorem valueAt_setEnabled (c : Calls) (s : System env) (e : AutorunEntry) (enable : Bool)
    (root : HKey) (subKey name : WString) :
    valueAt (setEnabled c s e enable).2 root subKey name =
      if (setEnabled c s e enable).1 = ERROR_SUCCESS ∧ IsSlot env e root subKey name then
        some (REG_BINARY, approvedData enable c.now)
      else valueAt s root subKey name := by
  obtain ⟨error, hne, heq⟩ | ⟨error, hne, heq⟩ | ⟨-, heq⟩ := setEnabled_cases c s e enable
  · rw [heq, if_neg fun h => hne h.1]
  · rw [heq, if_neg fun h => hne h.1, valueAt, System.readAt_createKey, valueAt]
  · rw [heq, valueAt, withState]
    refine (System.readAt_setValue ..).trans ?_
    simp only [IsSlot, true_and]
    rfl

/-- Two successful calls write two values. -/
theorem not_both_slots (hplain : Plain s) {e₁ e₂ : AutorunEntry} (h₁ : e₁ ∈ enum s)
    (h₂ : e₂ ∈ enum s) (hne : e₁ ≠ e₂) (hen₁ : e₁.enabled ≠ none) (hen₂ : e₂.enabled ≠ none)
    {root : HKey} {subKey name : WString} (hs₁ : IsSlot env e₁ root subKey name)
    (hs₂ : IsSlot env e₂ root subKey name) : False := by
  refine hne (eq_of_sameSlot hplain h₁ h₂ hen₁ hen₂ ⟨?_, ?_, ?_⟩)
  · exact hs₁.1.1.symm.trans hs₂.1.1
  · exact hs₁.1.2.symm.trans hs₂.1.2
  · exact hs₁.2.symm.trans hs₂.2

theorem valueAt_setEnabled_comm (hplain : Plain s) {e₁ e₂ : AutorunEntry} (h₁ : e₁ ∈ enum s)
    (h₂ : e₂ ∈ enum s) (hne : e₁ ≠ e₂) (c₁ c₂ : Calls) (b₁ b₂ : Bool) (root : HKey)
    (subKey name : WString) :
    valueAt (setEnabled c₂ (setEnabled c₁ s e₁ b₁).2 e₂ b₂).2 root subKey name
      = valueAt (setEnabled c₁ (setEnabled c₂ s e₂ b₂).2 e₁ b₁).2 root subKey name := by
  rw [valueAt_setEnabled, valueAt_setEnabled, valueAt_setEnabled, valueAt_setEnabled,
    setEnabled_error c₂ _ s, setEnabled_error c₁ (setEnabled c₂ s e₂ b₂).2 s]
  by_cases hw₁ : (setEnabled c₁ s e₁ b₁).1 = ERROR_SUCCESS ∧ IsSlot env e₁ root subKey name
  · by_cases hw₂ : (setEnabled c₂ s e₂ b₂).1 = ERROR_SUCCESS ∧ IsSlot env e₂ root subKey name
    · exact (not_both_slots hplain h₁ h₂ hne (setEnabled_succeeds hw₁.1).1
        (setEnabled_succeeds hw₂.1).1 hw₁.2 hw₂.2).elim
    · rw [if_neg hw₂, if_pos hw₁, if_pos hw₁]
  · rw [if_neg hw₁, if_neg hw₁]

theorem enum_setEnabled_comm (hplain : Plain s) {e₁ e₂ : AutorunEntry} (h₁ : e₁ ∈ enum s)
    (h₂ : e₂ ∈ enum s) (hne : e₁ ≠ e₂) (c₁ c₂ : Calls) (b₁ b₂ : Bool) :
    enum (setEnabled c₂ (setEnabled c₁ s e₁ b₁).2 e₂ b₂).2
      = enum (setEnabled c₁ (setEnabled c₂ s e₂ b₂).2 e₁ b₁).2 := by
  rw [enum_reapproved ((sameStored_setEnabled c₁ s e₁ b₁).trans (sameStored_setEnabled c₂ _ e₂ b₂)),
    enum_reapproved ((sameStored_setEnabled c₂ s e₂ b₂).trans (sameStored_setEnabled c₁ _ e₁ b₁))]
  exact List.map_congr_left fun x _ => reapproved_congr
    (valueAt_setEnabled_comm hplain h₁ h₂ hne c₁ c₂ b₁ b₂ _ _ _)

/-! ## what the calls do to the list -/

structure ActsOnOne (s : System env) : Prop where
  nodup : (enum s).Nodup
  /-- A successful `SetEnabled` changes one entry's `Enabled`. -/
  setEnabled_lists : ∀ c enable, ∀ e ∈ enum s, (setEnabled c s e enable).1 = ERROR_SUCCESS →
    enum (setEnabled c s e enable).2
      = (enum s).map fun x => if x = e then { e with enabled := some enable } else x
  /-- A successful `Delete` of a value removes one entry; its key's time changes. -/
  delete_value_lists : ∀ c, ∀ e ∈ enum s, e.store = .registryValue →
    (delete c s e).1 = ERROR_SUCCESS →
    (enum (delete c s e).2).map timeless = ((enum s).erase e).map timeless
  /-- A successful `Delete` of a file removes one entry; the images of the others are looked for
  among the files that are left. -/
  delete_file_lists : ∀ c, ∀ e ∈ enum s, e.store = .startupFile →
    (delete c s e).1 = ERROR_SUCCESS →
    enum (delete c s e).2 = ((enum s).erase e).map (lookedUp (delete c s e).2)
  /-- When the state is deleted with the entry there is none, and as long as none is written an
  entry of the name that is there again is enabled. -/
  delete_forgets : ∀ c, ∀ e ∈ enum s, e.enabled ≠ none → (delete c s e).1 = ERROR_SUCCESS →
    c.openApproved = ERROR_SUCCESS → c.deleteApproved = ERROR_SUCCESS →
    approvedValue (delete c s e).2 e = none ∧
      ∀ t : System env, approvedValue t e = approvedValue (delete c s e).2 e →
        ∀ x ∈ enum t, place env x = place env e → x.enabled = some true
  /-- A call that fails changes nothing that is listed, whatever the entry. -/
  setEnabled_fails : ∀ c e enable, (setEnabled c s e enable).1 ≠ ERROR_SUCCESS →
    enum (setEnabled c s e enable).2 = enum s
  delete_fails : ∀ c e, (delete c s e).1 ≠ ERROR_SUCCESS → enum (delete c s e).2 = enum s
  setEnabled_none : ∀ c e enable, e.enabled = none →
    setEnabled c s e enable = (ERROR_NOT_SUPPORTED, s)
  delete_not_deletable : ∀ c e, e.deletable = false → delete c s e = (ERROR_NOT_SUPPORTED, s)
  /-- `SetEnabled` on one entry and on another: each has its answer in either order, and the list
  and all that is read in the registry are the same. -/
  setEnabled_commutes : ∀ c₁ c₂ b₁ b₂, ∀ e₁ ∈ enum s, ∀ e₂ ∈ enum s, e₁ ≠ e₂ →
    (setEnabled c₂ (setEnabled c₁ s e₁ b₁).2 e₂ b₂).1 = (setEnabled c₂ s e₂ b₂).1 ∧
    (setEnabled c₁ (setEnabled c₂ s e₂ b₂).2 e₁ b₁).1 = (setEnabled c₁ s e₁ b₁).1 ∧
    enum (setEnabled c₂ (setEnabled c₁ s e₁ b₁).2 e₂ b₂).2
      = enum (setEnabled c₁ (setEnabled c₂ s e₂ b₂).2 e₁ b₁).2 ∧
    ∀ root subKey name,
      valueAt (setEnabled c₂ (setEnabled c₁ s e₁ b₁).2 e₂ b₂).2 root subKey name
        = valueAt (setEnabled c₁ (setEnabled c₂ s e₂ b₂).2 e₁ b₁).2 root subKey name

theorem setEnabled_error_enum {enable : Bool}
    (h : (setEnabled c s e enable).1 ≠ ERROR_SUCCESS) : enum (setEnabled c s e enable).2 = enum s := by
  obtain ⟨error, -, heq⟩ | ⟨error, -, heq⟩ | ⟨-, heq⟩ := setEnabled_cases c s e enable
  · rw [heq]
  · rw [heq]
    exact enum_createKey s e c.written
  · rw [heq] at h
    exact absurd rfl h

theorem delete_error_eq (h : (delete c s e).1 ≠ ERROR_SUCCESS) : (delete c s e).2 = s := by
  obtain ⟨error, -, heq⟩ | ⟨-, heq⟩ | ⟨-, heq⟩ := delete_cases c s e
  · rw [heq]
  · rw [heq] at h
    exact absurd rfl h
  · rw [heq] at h
    exact absurd rfl h

/-- Over every state of the registry and of two startup folders. -/
theorem acts_on_one (htwo : TwoFolders env) (hplain : Plain s) : ActsOnOne s where
  nodup := enum_nodup hplain
  setEnabled_lists := by
    intro c enable e he h
    obtain ⟨hen, hstate⟩ := setEnabled_succeeds h
    rw [hstate]
    exact enum_withState hplain he hen enable
  delete_value_lists := fun _ _ he hstore h => enum_delete_value hplain he hstore h
  delete_file_lists := fun _ _ he hstore h => enum_delete_file hplain htwo he hstore h
  delete_forgets := by
    intro c e he hen h ho hd
    have hnone := approvedValue_delete h hen ho hd
    refine ⟨hnone, fun t ht x hx hplace => ?_⟩
    exact enabled_of_approvedValue_none he hen (ht.trans hnone) hx hplace
  setEnabled_fails := fun _ _ _ h => setEnabled_error_enum h
  delete_fails := fun _ _ h => congrArg enum (delete_error_eq h)
  setEnabled_none := fun _ _ _ h => by rw [setEnabled, if_pos h]
  delete_not_deletable := fun _ _ h => by rw [delete, h]; rfl
  setEnabled_commutes := by
    intro c₁ c₂ b₁ b₂ e₁ h₁ e₂ h₂ hne
    refine ⟨setEnabled_error .., setEnabled_error .., ?_, ?_⟩
    · exact enum_setEnabled_comm hplain h₁ h₂ hne c₁ c₂ b₁ b₂
    · exact valueAt_setEnabled_comm hplain h₁ h₂ hne c₁ c₂ b₁ b₂

/-! ## what the other entries show -/

section Sample

def upcaseAscii (ch : WChar) : WChar := if 0x61 ≤ ch ∧ ch ≤ 0x7A then ch - 0x20 else ch

/-- A system with these values of the two variables. -/
def sampleEnv (appData programData : WString) : Env where
  upcase := upcaseAscii
  expandEnvironment := fun text => some <|
    if wide "%APPDATA%" <+: text then appData ++ text.drop 9
    else if wide "%ProgramData%" <+: text then programData ++ text.drop 13
    else text
  systemRoot := wide "C:\\Windows"
  searchPath := fun _ _ _ => none

def apartEnv : Env := sampleEnv (wide "C:\\U") (wide "C:\\P")

def sharedEnv : Env := sampleEnv (wide "C:\\U") (wide "C:\\U")

def startupFile : File where
  directory := wide "C:\\U\\Microsoft\\Windows\\Start Menu\\Programs\\Startup"
  name := wide "a.exe"
  isDirectory := false
  lastWrite := 1
  shortcut := none
  noNul := by decide

def textValue (name command : WString) : RegistryValue :=
  { name, type := REG_SZ, data := command.flatMap fun ch => leBytes 2 ch.toNat }

/-- A registry with these values in the machine's `Run` key. -/
def machineRun (env : Env) (values : KeyedList (valueKey env)) (root : HKey) (subKey : WString) :
    Option (RegKey env) :=
  if root = .localMachine ∧
      subKey = pathKey env (wide "Software\\Microsoft\\Windows\\CurrentVersion\\Run") then
    some { values, lastWrite := 1 }
  else none

/-- A file in the user's startup folder and a value that runs it. -/
def fileAndValue : System apartEnv where
  registry := machineRun apartEnv ⟨[textValue (wide "x")
    (quote :: joined startupFile.directory startupFile.name ++ [quote])], by decide⟩
  files := ⟨[startupFile], by decide⟩

/-- Two names that are one before their NUL. -/
def twoNames : System apartEnv where
  registry := machineRun apartEnv ⟨[textValue (wide "x") (wide "a"),
    textValue (wide "x" ++ 0 :: wide "y") (wide "b")], by decide⟩
  files := ⟨[], by decide⟩

/-- One folder as both. -/
def oneFolder : System sharedEnv where
  registry := fun _ _ => none
  files := ⟨[startupFile], by decide⟩

instance (s : System env) : Decidable (Plain s) :=
  decidable_of_iff (∀ k ∈ runKeys, ((s.openKey k.root k.subKey).all fun key =>
      key.values.toList.all fun v => decide (0 ∉ v.name)) = true) <| by
    refine forall_congr' fun k => forall_congr' fun _ => ?_
    rw [Option.all_eq_true]
    refine forall_congr' fun key => forall_congr' fun _ => ?_
    rw [List.all_eq_true]
    exact forall_congr' fun v => forall_congr' fun _ => decide_eq_true_iff

instance (env : Env) : Decidable (TwoFolders env) :=
  inferInstanceAs (Decidable (¬ _ = _))

set_option maxRecDepth 2000 in
theorem acts_on_one_fileAndValue : (enum fileAndValue).length = 2 ∧ ActsOnOne fileAndValue :=
  ⟨by decide +kernel, acts_on_one (by decide +kernel) (by decide +kernel)⟩

set_option maxRecDepth 2000 in
/-- What an entry runs may be another's file; a `PCWSTR` ends at a NUL; and one folder may be both
startup folders. -/
theorem others_change :
    (TwoFolders apartEnv ∧ Plain fileAndValue ∧ ∃ e ∈ enum fileAndValue,
      (delete {} fileAndValue e).1 = ERROR_SUCCESS ∧
      (enum (delete {} fileAndValue e).2).map timeless
        ≠ ((enum fileAndValue).erase e).map timeless) ∧
    (TwoFolders apartEnv ∧ ∃ e ∈ enum twoNames,
      (setEnabled {} twoNames e false).1 = ERROR_SUCCESS ∧
      (enum (setEnabled {} twoNames e false).2).map timeless
        ≠ ((enum twoNames).map fun x => if x = e then { e with enabled := some false } else x).map
          timeless) ∧
    (Plain oneFolder ∧ ∃ e ∈ enum oneFolder,
      (delete {} oneFolder e).1 = ERROR_SUCCESS ∧
      (enum (delete {} oneFolder e).2).map timeless
        ≠ ((enum oneFolder).erase e).map timeless) := by
  decide +kernel

end Sample

end WinSys.Autoruns
