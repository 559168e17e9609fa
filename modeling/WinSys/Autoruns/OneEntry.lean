import WinSys.Autoruns.Sources

/-!
# Enabling and deleting act on one entry

* `enum_reapproved`: where only states are written, the entries are the same but for `Enabled`
* `enum_deleteValue`, `enum_deleteFile`: deleting one leaves the others
* `acts_on_one`
-/

namespace WinSys.Autoruns

open Infra Texts

variable {env : Env} {s t : System env} {c : Calls} {e : AutorunEntry}

/-! ## the states -/

/-- The parity rule, on a value's type and data. -/
def approves : Option (UInt32 × Bytes) → Bool
  | none => true
  | some (type, data) => type != REG_BINARY || data.head?.all fun b => b &&& 1 == 0

def typeAndData (v : RegistryValue) : UInt32 × Bytes := (v.type, v.data)

theorem isApproved_eq (s : System env) (root : HKey) (approved name : WString) :
    isApproved s root approved name
      = approves ((s.readAt root (approvedKey ++ approved) name).map typeAndData) := by
  unfold isApproved System.readAt
  split
  · next h => rw [h]; rfl
  · next key h =>
    rw [h, Option.bind_some]
    split
    · next hv => rw [hv]; rfl
    · next v hv => rw [hv]; rfl

/-- Writing a state and reading it. -/
theorem approves_approvedData (enable : Bool) (now : UInt64) :
    approves (some (REG_BINARY, approvedData enable now)) = enable := by
  cases enable <;> rfl

def approvedValue (s : System env) (x : AutorunEntry) : Option RegistryValue :=
  s.readAt x.root (approvedKey ++ approvedName x) x.valueName

/-- The entry with the state that is read now. -/
def reapproved (s : System env) (x : AutorunEntry) : AutorunEntry :=
  { x with enabled := x.enabled.map fun _ => approves ((approvedValue s x).map typeAndData) }

/-- Nothing but states differs. -/
structure SameStored (s t : System env) : Prop where
  files : t.files = s.files
  runKeys : ∀ k ∈ runKeys, t.openKey k.root k.subKey = s.openKey k.root k.subKey

theorem SameStored.trans {u : System env} (h : SameStored s t) (h' : SameStored t u) :
    SameStored s u :=
  ⟨h'.files.trans h.files, fun k hk => (h'.runKeys k hk).trans (h.runKeys k hk)⟩

theorem runEntry_reapproved (hfile : t.isFile = s.isFile) {k : RunKey} (hk : k ∈ runKeys)
    (key : RegKey env) (v : RegistryValue) :
    runEntry t k key v = (runEntry s k key v).map (reapproved t) := by
  simp only [runEntry]
  split
  · rfl
  · rw [Option.map_some, Option.some_inj, reapproved]
    cases hp : k.approved with
    | none => simp [registryEntry, hfile]
    | some p =>
      have hpk := runKeys_approved k hk p hp
      simp [registryEntry, hfile, isApproved_eq, approvedValue, approvedName, hpk]

theorem startupEntry_reapproved (f : StartupFolder) (fd : File) :
    startupEntry t f fd = (startupEntry s f fd).map (reapproved t) := by
  simp only [startupEntry, isApproved_eq]
  split
  · rfl
  · split
    · rfl
    · split
      · split <;> rfl
      · rfl

theorem entriesOf_reapproved (h : SameStored s t) {src : Source} (hsrc : src ∈ sources) :
    entriesOf t src = (entriesOf s src).map (reapproved t) := by
  cases src with
  | run k =>
    have hk : k ∈ runKeys := by simpa [sources] using hsrc
    simp only [entriesOf, runEntries, h.runKeys k hk]
    split
    · rfl
    · rw [List.map_filterMap]
      exact List.filterMap_congr fun v _ =>
        runEntry_reapproved (System.isFile_congr h.files) hk _ v
  | folder f =>
    simp only [entriesOf, startupEntries, findFiles, h.files]
    rw [List.map_filterMap]
    exact List.filterMap_congr fun fd _ => startupEntry_reapproved f fd

/-- Where only states are written, the entries are the same but for `Enabled`. -/
theorem enum_reapproved (h : SameStored s t) : enum t = (enum s).map (reapproved t) := by
  rw [enum_eq, enum_eq, List.map_flatMap]
  refine List.flatMap_congr fun src hsrc => ?_
  rw [entriesOf_reapproved h hsrc, List.map_map, List.map_map]
  refine List.map_congr_left fun x _ => ?_
  simp only [Function.comp_apply, withImageFound, reapproved, System.isFile_congr h.files]
  rfl

/-- An entry's `Enabled` is what its state says. -/
theorem reapproved_self {x : AutorunEntry} (hx : x ∈ enum s) : reapproved s x = x := by
  have hmap : (enum s).map (reapproved s) = (enum s).map id := by
    rw [← enum_reapproved ⟨rfl, fun _ _ => rfl⟩, List.map_id]
  exact List.map_inj_left.mp hmap x hx

theorem reapproved_congr {u : System env} {x : AutorunEntry}
    (h : (approvedValue t x).map typeAndData = (approvedValue u x).map typeAndData) :
    reapproved t x = reapproved u x := by
  rw [reapproved, reapproved, h]

/-! ## writing a state -/

theorem exists_approved (e : AutorunEntry) :
    ∃ src ∈ sources, src.approved = some (approvedName e) := by
  unfold approvedName
  split
  · exact ⟨.folder userStartup, by decide, rfl⟩
  · split
    · exact ⟨.run ⟨.localMachine, wide "Software\\WOW6432Node\\Microsoft\\Windows\\CurrentVersion\\Run",
        some (wide "Run32"), true⟩, by decide, rfl⟩
    · exact ⟨.run ⟨.localMachine, wide "Software\\Microsoft\\Windows\\CurrentVersion\\Run",
        some (wide "Run"), false⟩, by decide, rfl⟩

theorem mem_sources_run {k : RunKey} : .run k ∈ sources ↔ k ∈ runKeys := by simp [sources]

theorem sameStored_modifyKey (s : System env) (e : AutorunEntry)
    (f : Option (RegKey env) → Option (RegKey env)) :
    SameStored s (s.modifyKey e.root (approvedKey ++ approvedName e) f) where
  files := rfl
  runKeys := by
    intro k hk
    obtain ⟨src, hsrc, hp⟩ := exists_approved e
    rw [System.openKey_modifyKey, if_neg]
    exact fun h => pathKey_approved_ne hsrc (mem_sources_run.mpr hk) hp h.2.symm

/-- What `SetEnabled` leaves when it succeeds. -/
def withState (c : Calls) (s : System env) (e : AutorunEntry) (enable : Bool) : System env :=
  (s.createKey e.root (approvedKey ++ approvedName e) c.written).setValue e.root
    (approvedKey ++ approvedName e) e.valueName REG_BINARY (approvedData enable c.now) c.written

theorem setEnabled_cases (c : Calls) (s : System env) (e : AutorunEntry) (enable : Bool) :
    (∃ error ≠ ERROR_SUCCESS, setEnabled c s e enable = (error, s)) ∨
    (∃ error ≠ ERROR_SUCCESS, setEnabled c s e enable
      = (error, s.createKey e.root (approvedKey ++ approvedName e) c.written)) ∨
    (e.enabled ≠ none ∧ setEnabled c s e enable = (ERROR_SUCCESS, withState c s e enable)) := by
  unfold setEnabled
  split
  · exact .inl ⟨_, by decide, rfl⟩
  · next hen =>
    split
    · next h => exact .inl ⟨_, h, rfl⟩
    · simp only
      split
      · next h => exact .inr (.inl ⟨_, h, rfl⟩)
      · exact .inr (.inr ⟨hen, rfl⟩)

theorem setEnabled_succeeds {enable : Bool}
    (h : (setEnabled c s e enable).1 = ERROR_SUCCESS) :
    e.enabled ≠ none ∧ (setEnabled c s e enable).2 = withState c s e enable := by
  obtain ⟨error, hne, heq⟩ | ⟨error, hne, heq⟩ | ⟨hen, heq⟩ := setEnabled_cases c s e enable
  · rw [heq] at h; exact absurd h hne
  · rw [heq] at h; exact absurd h hne
  · rw [heq]; exact ⟨hen, rfl⟩

theorem sameStored_createKey (s : System env) (e : AutorunEntry) (written : UInt64) :
    SameStored s (s.createKey e.root (approvedKey ++ approvedName e) written) :=
  sameStored_modifyKey s e _

theorem sameStored_withState (c : Calls) (s : System env) (e : AutorunEntry) (enable : Bool) :
    SameStored s (withState c s e enable) :=
  (sameStored_createKey s e c.written).trans (sameStored_modifyKey _ e _)

theorem approvedValue_withState (c : Calls) (s : System env) (e x : AutorunEntry) (enable : Bool) :
    (approvedValue (withState c s e enable) x).map typeAndData =
      if (x.root = e.root ∧ pathKey env (approvedKey ++ approvedName x)
          = pathKey env (approvedKey ++ approvedName e)) ∧
        upper env (cstr x.valueName) = upper env (cstr e.valueName)
      then some (REG_BINARY, approvedData enable c.now) else (approvedValue s x).map typeAndData :=
  System.readAt_setValue ..

theorem approvedValue_withState_of_not {x : AutorunEntry} (h : ¬ SameSlot env x e) (enable : Bool) :
    (approvedValue (withState c s e enable) x).map typeAndData
      = (approvedValue s x).map typeAndData := by
  rw [approvedValue_withState, if_neg]
  exact fun hs => h ⟨hs.1.1, hs.1.2, hs.2⟩

theorem reapproved_of_none {x : AutorunEntry} (h : x.enabled = none) : reapproved t x = x := by
  rw [reapproved, h, Option.map_none, ← h]

theorem reapproved_withState {enable : Bool} (hen : e.enabled ≠ none) :
    reapproved (withState c s e enable) e = { e with enabled := some enable } := by
  obtain ⟨b, hb⟩ := Option.ne_none_iff_exists'.mp hen
  rw [reapproved, approvedValue_withState, if_pos ⟨⟨rfl, rfl⟩, rfl⟩, approves_approvedData, hb,
    Option.map_some]

theorem enum_withState (hplain : Plain s) (he : e ∈ enum s) (hen : e.enabled ≠ none)
    (enable : Bool) :
    enum (withState c s e enable)
      = (enum s).map fun x => if x = e then { e with enabled := some enable } else x := by
  rw [enum_reapproved (sameStored_withState c s e enable)]
  refine List.map_congr_left fun x hx => ?_
  split
  · next h => rw [h, reapproved_withState hen]
  · next h =>
    by_cases hex : x.enabled = none
    · exact reapproved_of_none hex
    · rw [reapproved_congr (u := s), reapproved_self hx]
      exact approvedValue_withState_of_not (fun hs => h (eq_of_sameSlot hplain hx he hex hen hs)) _

theorem approvedValue_createKey (s : System env) (e x : AutorunEntry) (written : UInt64) :
    approvedValue (s.createKey e.root (approvedKey ++ approvedName e) written) x
      = approvedValue s x :=
  System.readAt_createKey ..

/-- A StartupApproved key that is created is empty. -/
theorem enum_createKey (s : System env) (e : AutorunEntry) (written : UInt64) :
    enum (s.createKey e.root (approvedKey ++ approvedName e) written) = enum s := by
  rw [enum_reapproved (sameStored_createKey s e written)]
  refine (List.map_congr_left fun x hx => ?_).trans (List.map_id _)
  rw [reapproved_congr (u := s), reapproved_self hx, id]
  rw [approvedValue_createKey]

/-! ## deleting a value -/

def timeless (x : AutorunEntry) : AutorunEntry := { x with lastModified := 0 }

theorem values_deleteValue (key : RegKey env) (name : WString) (written : UInt64) :
    (key.deleteValue name written).values.toList
      = key.values.toList.filter fun v => upper env v.name ≠ upper env (cstr name) := by
  unfold RegKey.deleteValue
  split
  · rfl
  · next h =>
    have hnone := KeyedList.get?_eq_none.mp (Option.not_isSome_iff_eq_none.mp h)
    exact (List.filter_eq_self.mpr fun v hv => decide_eq_true (hnone v hv)).symm

theorem isApproved_congr {root : HKey} {p : WString}
    (h : t.openKey root (approvedKey ++ p) = s.openKey root (approvedKey ++ p)) (name : WString) :
    isApproved t root p name = isApproved s root p name := by
  rw [isApproved, isApproved, h]

/-- The place of an entry is one of a name in its own source. -/
theorem place_ne_iff {src : Source} {x : AutorunEntry} (hx : From t src x) :
    place env x ≠ place env e ↔ ¬ ((src.store = e.store ∧ src.root = e.root ∧
      pathKey env src.subKey = pathKey env e.subKey) ∧
        upper env (cstr x.valueName) = upper env (cstr e.valueName)) := by
  rw [place, place, ne_eq, Prod.mk.injEq, Prod.mk.injEq, Prod.mk.injEq, hx.store, hx.root,
    hx.subKey]

section DeleteValue

variable {b : Source} (hb : b ∈ sources) (he : From s b e) (written : UInt64)
include hb he

theorem openKey_approved_deleteValue {a : Source} (ha : a ∈ sources) {p : WString}
    (hp : a.approved = some p) (root : HKey) :
    (s.deleteValue e.root e.subKey e.valueName written).openKey root (approvedKey ++ p)
      = s.openKey root (approvedKey ++ p) := by
  rw [System.deleteValue, System.openKey_modifyKey, if_neg]
  intro h
  rw [he.subKey] at h
  exact pathKey_approved_ne ha hb hp h.2

theorem runEntry_deleteValue {k : RunKey} (hk : k ∈ runKeys) (key key' : RegKey env)
    (v : RegistryValue) :
    (runEntry (s.deleteValue e.root e.subKey e.valueName written) k key' v).map timeless
      = (runEntry s k key v).map timeless := by
  simp only [runEntry]
  split
  · rfl
  · rw [Option.map_some, Option.map_some, Option.some_inj, timeless, timeless]
    cases hp : k.approved with
    | none => rfl
    | some p =>
      rw [Option.map_some, Option.map_some, isApproved_congr
        (openKey_approved_deleteValue hb he written (mem_sources_run.mpr hk) hp k.root)]
      rfl

theorem runEntries_deleteValue (hplain : Plain s) (hstore : e.store = .registryValue) {k : RunKey}
    (hk : k ∈ runKeys) :
    (runEntries (s.deleteValue e.root e.subKey e.valueName written) k).map timeless
      = ((runEntries s k).filter fun x => place env x ≠ place env e).map timeless := by
  unfold runEntries
  rw [System.deleteValue, System.openKey_modifyKey, ← System.deleteValue]
  cases hkey : s.openKey k.root k.subKey with
  | none => simp
  | some key =>
    -- the key's values, less the one that is deleted when it is in this key
    have hrun : ∀ (key' : RegKey env) (p : RegistryValue → Bool),
        key'.values.toList = key.values.toList.filter p →
        (∀ v ∈ key.values.toList, p v = true ↔ ¬ ((k.root = e.root ∧
          pathKey env k.subKey = pathKey env e.subKey) ∧
            upper env v.name = upper env (cstr e.valueName))) →
        (key'.values.toList.filterMap
            (runEntry (s.deleteValue e.root e.subKey e.valueName written) k key')).map timeless
          = ((key.values.toList.filterMap (runEntry s k key)).filter
              fun x => place env x ≠ place env e).map timeless := by
      intro key' p hvalues hp
      rw [hvalues, List.filterMap_filter, List.map_filterMap, List.filter_filterMap,
        List.map_filterMap]
      refine List.filterMap_congr fun v hv => ?_
      have hsame := runEntry_deleteValue hb he written hk key key' v
      cases hx : runEntry s k key v with
      | none =>
        rw [hx] at hsame
        split
        · exact hsame
        · rfl
      | some x =>
        obtain ⟨hfrom, hname⟩ := runEntry_from hk hx
        have hiff : p v = true ↔ place env x ≠ place env e := by
          rw [hp v hv, place_ne_iff hfrom, hname, cstr_of_notMem (hplain k hk key hkey v hv)]
          simp [Source.store, Source.root, Source.subKey, hstore]
        rw [hx] at hsame
        by_cases hpv : p v = true
        · rw [if_pos hpv, hsame, Option.filter_some, if_pos (decide_eq_true (hiff.mp hpv))]
        · rw [if_neg hpv, Option.filter_some, if_neg fun h => hpv (hiff.mpr (of_decide_eq_true h))]
    by_cases hmatch : k.root = e.root ∧ pathKey env k.subKey = pathKey env e.subKey
    · rw [if_pos hmatch]
      refine hrun (key.deleteValue e.valueName written) _ (values_deleteValue key _ _) fun v _ => ?_
      simp [hmatch]
    · rw [if_neg hmatch]
      refine hrun key (fun _ => true) (List.filter_true _).symm fun v _ => ?_
      simp [hmatch]

theorem startupEntries_deleteValue (f : StartupFolder) (hf : .folder f ∈ sources) :
    startupEntries (s.deleteValue e.root e.subKey e.valueName written) f = startupEntries s f := by
  have happ := isApproved_congr
    (openKey_approved_deleteValue hb he written hf (p := wide "StartupFolder") rfl f.root)
  unfold startupEntries findFiles
  refine List.filterMap_congr fun fd _ => ?_
  simp only [startupEntry, happ]

theorem entriesOf_deleteValue (hplain : Plain s) (hstore : e.store = .registryValue) {a : Source}
    (ha : a ∈ sources) :
    (entriesOf (s.deleteValue e.root e.subKey e.valueName written) a).map timeless
      = ((entriesOf s a).filter fun x => place env x ≠ place env e).map timeless := by
  cases a with
  | run k => exact runEntries_deleteValue hb he written hplain hstore (mem_sources_run.mp ha)
  | folder f =>
    rw [entriesOf, entriesOf, startupEntries_deleteValue hb he written f ha,
      List.filter_eq_self.mpr]
    intro x hx
    refine decide_eq_true ((place_ne_iff (entriesOf_from ha hx)).mpr ?_)
    simp [Source.store, hstore]

end DeleteValue

/-- Entries are the same but for what is set aside when their sources' are. -/
theorem enum_filter_of_sources {f g : AutorunEntry → AutorunEntry}
    (h : ∀ a ∈ sources, ((entriesOf t a).map (withImageFound t)).map f
      = (((entriesOf s a).filter fun x => place env x ≠ place env e).map (withImageFound s)).map g) :
    (enum t).map f = ((enum s).filter fun x => place env x ≠ place env e).map g := by
  rw [enum_eq, enum_eq, List.map_flatMap, List.filter_flatMap, List.map_flatMap]
  refine List.flatMap_congr fun a ha => ?_
  rw [h a ha, List.filter_map]
  rfl

theorem enum_deleteValue (hplain : Plain s) (he : e ∈ enum s) (hstore : e.store = .registryValue)
    (written : UInt64) :
    (enum (s.deleteValue e.root e.subKey e.valueName written)).map timeless
      = ((enum s).erase e).map timeless := by
  rw [List.erase_eq_filter_key (place_nodup hplain) he]
  obtain ⟨b, hb, hfrom, -⟩ := exists_source he
  refine enum_filter_of_sources fun a ha => ?_
  have hsame := congrArg (List.map (withImageFound s))
    (entriesOf_deleteValue hb hfrom written hplain hstore ha)
  rw [List.map_map, List.map_map] at hsame
  rw [List.map_map, List.map_map]
  exact hsame

/-! ## deleting a file -/

/-- The entry with its image looked for again among the files there are. -/
def lookedUp (t : System env) (x : AutorunEntry) : AutorunEntry :=
  withImageFound t { x with
    imagePath :=
      match x.store with
      | .registryValue => resolveImage env t.isFile x.command
      | .startupFile => x.imagePath }

theorem runEntry_lookedUp (path : WString) (k : RunKey) (key : RegKey env) (v : RegistryValue) :
    (runEntry (s.deleteFile path) k key v).map (withImageFound (s.deleteFile path))
      = (runEntry s k key v).map (lookedUp (s.deleteFile path) ∘ withImageFound s) := by
  simp only [runEntry]
  split <;> rfl

theorem startupEntry_lookedUp (path : WString) (f : StartupFolder) (fd : File) :
    (startupEntry (s.deleteFile path) f fd).map (withImageFound (s.deleteFile path))
      = (startupEntry s f fd).map (lookedUp (s.deleteFile path) ∘ withImageFound s) := by
  simp only [startupEntry]
  split
  · rfl
  · split
    · rfl
    · split
      · split <;> rfl
      · rfl

/-- Startup folders are told by their roots. -/
theorem startupFolders_root : ∀ f ∈ startupFolders, ∀ g ∈ startupFolders, f.root = g.root → f = g := by
  decide

theorem startupFolders_eq (htwo : TwoFolders env) : ∀ f ∈ startupFolders, ∀ g ∈ startupFolders,
    pathKey env (expand env f.folder) = pathKey env (expand env g.folder) → f = g := by
  intro f hf g hg h
  rw [startupFolders, List.mem_pair] at hf hg
  obtain rfl | rfl := hf <;> obtain rfl | rfl := hg
  · rfl
  · exact absurd h htwo
  · exact absurd h.symm htwo
  · rfl

/-- The file of an entry. -/
theorem exists_file (he : e ∈ enum s) (hstore : e.store = .startupFile) :
    ∃ f ∈ startupFolders, From s (.folder f) e ∧ ∃ fd ∈ s.files.toList,
      pathKey env fd.directory = pathKey env (expand env f.folder) ∧ e.valueName = fd.name ∧
      pathKey env (joined e.location e.name) = fileKey env fd ∧ fd.isDirectory = false := by
  obtain ⟨src, hsrc, hfrom, y, hy, rfl⟩ := exists_source he
  cases src with
  | run k => cases hfrom.store.symm.trans hstore
  | folder f =>
    have hf : f ∈ startupFolders := by simpa [sources] using hsrc
    obtain ⟨fd, hfd, hdir, hx⟩ := mem_startupEntries.mp hy
    obtain ⟨-, hvalue, hname, hlocation, hfile⟩ := startupEntry_from hx
    refine ⟨f, hf, hfrom, fd, hfd, hdir, hvalue, ?_, hfile⟩
    rw [fileKey_eq (startupFolders_noNul f hf) hdir]
    show pathKey env (joined y.location y.name) = _
    rw [hlocation, hname]

theorem runEntries_deleteFile (path : WString) (k : RunKey) :
    (runEntries (s.deleteFile path) k).map (withImageFound (s.deleteFile path))
      = (runEntries s k).map (lookedUp (s.deleteFile path) ∘ withImageFound s) := by
  unfold runEntries
  rw [System.openKey_deleteFile]
  cases s.openKey k.root k.subKey with
  | none => rfl
  | some key =>
    simp only [List.map_filterMap]
    exact List.filterMap_congr fun v _ => runEntry_lookedUp path k key v

/-- A file of a folder is the one of an entry exactly when it is listed at the entry's place. -/
theorem fileKey_eq_iff (htwo : TwoFolders env) {f g : StartupFolder} (hf : f ∈ startupFolders)
    (hg : g ∈ startupFolders) {fd d : File} (hfd : fd ∈ s.files.toList) (hd : d ∈ s.files.toList)
    (hdir : pathKey env fd.directory = pathKey env (expand env f.folder))
    (hdirg : pathKey env d.directory = pathKey env (expand env g.folder)) :
    fileKey env d = fileKey env fd ↔ g.root = f.root ∧ upper env d.name = upper env fd.name := by
  constructor
  · intro h
    obtain rfl := List.inj_on_of_nodup_map s.files.nodup hd hfd h
    rw [startupFolders_eq htwo g hg f hf (hdirg.symm.trans hdir)]
    exact ⟨rfl, rfl⟩
  · rintro ⟨hroot, hname⟩
    obtain rfl := startupFolders_root g hg f hf hroot
    have hnul := startupFolders_noNul g hg
    rw [fileKey_eq hnul hdir, fileKey_eq hnul hdirg, pathKey_joined (notMem_expand hnul) d.noNul.2,
      pathKey_joined (notMem_expand hnul) fd.noNul.2, hname]

theorem startupEntries_deleteFile (htwo : TwoFolders env) (he : e ∈ enum s)
    (hstore : e.store = .startupFile) {g : StartupFolder} (hg : g ∈ startupFolders) :
    (startupEntries (s.deleteFile (joined e.location e.name)) g).map
        (withImageFound (s.deleteFile (joined e.location e.name)))
      = ((startupEntries s g).filter fun x => place env x ≠ place env e).map
          (lookedUp (s.deleteFile (joined e.location e.name)) ∘ withImageFound s) := by
  obtain ⟨f, hf, hfrom, fd, hfd, hdir, hvalue, hpath, -⟩ := exists_file he hstore
  have hfiles : findFiles (s.deleteFile (joined e.location e.name)) (expand env g.folder)
      = (findFiles s (expand env g.folder)).filter fun d => fileKey env d ≠ fileKey env fd := by
    unfold findFiles
    rw [List.filter_filter, ← hpath, System.deleteFile]
    show List.filter _ (List.filter _ _) = _
    rw [List.filter_filter]
    exact List.filter_congr fun d _ => Bool.and_comm ..
  rw [startupEntries, startupEntries, hfiles, List.filterMap_filter, List.map_filterMap,
    List.filter_filterMap, List.map_filterMap]
  refine List.filterMap_congr fun d hd => ?_
  obtain ⟨hds, hdirg⟩ := List.mem_filter.mp hd
  have hkey := fileKey_eq_iff htwo hf hg hfd hds hdir (of_decide_eq_true hdirg)
  have hsame := startupEntry_lookedUp (s := s) (joined e.location e.name) g d
  cases hx : startupEntry s g d with
  | none =>
    rw [hx] at hsame
    split
    · exact hsame
    · rfl
  | some x =>
    obtain ⟨hxfrom, hxname, -⟩ := startupEntry_from hx
    have hiff : fileKey env d ≠ fileKey env fd ↔ place env x ≠ place env e := by
      rw [place_ne_iff hxfrom, hxname, hvalue, cstr_of_notMem d.noNul.2, cstr_of_notMem fd.noNul.2,
        ne_eq, hkey]
      simp [Source.store, Source.root, Source.subKey, hstore, hfrom.root, hfrom.subKey]
    rw [hx] at hsame
    by_cases hp : fileKey env d ≠ fileKey env fd
    · rw [if_pos (decide_eq_true hp), hsame, Option.filter_some,
        if_pos (decide_eq_true (hiff.mp hp))]
    · rw [if_neg fun h => hp (of_decide_eq_true h), Option.filter_some,
        if_neg fun h => hp (hiff.mpr (of_decide_eq_true h))]
      rfl

theorem entriesOf_deleteFile (htwo : TwoFolders env) (he : e ∈ enum s)
    (hstore : e.store = .startupFile) {a : Source} (ha : a ∈ sources) :
    (entriesOf (s.deleteFile (joined e.location e.name)) a).map
        (withImageFound (s.deleteFile (joined e.location e.name)))
      = ((entriesOf s a).filter fun x => place env x ≠ place env e).map
          (lookedUp (s.deleteFile (joined e.location e.name)) ∘ withImageFound s) := by
  cases a with
  | run k =>
    rw [List.filter_eq_self.mpr]
    · exact runEntries_deleteFile _ k
    · intro x hx
      refine decide_eq_true ((place_ne_iff (entriesOf_from ha hx)).mpr ?_)
      simp [Source.store, hstore]
  | folder g => exact startupEntries_deleteFile htwo he hstore (by simpa [sources] using ha)

theorem enum_deleteFile (hplain : Plain s) (htwo : TwoFolders env) (he : e ∈ enum s)
    (hstore : e.store = .startupFile) :
    enum (s.deleteFile (joined e.location e.name))
      = ((enum s).erase e).map (lookedUp (s.deleteFile (joined e.location e.name))) := by
  rw [List.erase_eq_filter_key (place_nodup hplain) he, ← List.map_id (enum _)]
  refine enum_filter_of_sources fun a ha => ?_
  rw [entriesOf_deleteFile htwo he hstore ha, List.map_id, List.map_map]

end WinSys.Autoruns
