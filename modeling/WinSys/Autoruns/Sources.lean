import WinSys.Autoruns.Startup

/-!
# Where an entry is stored, and where its state is

The eight keys and the two folders are ten sources of entries. A source and a name are the place of
an entry; a root, a StartupApproved key and a name are the slot of its state.

* `Source`, `enum_eq`
* `From`: what every entry of a source has
* `place_nodup`: no two entries at one place
* `eq_of_sameSlot`: no two entries with one slot
-/

namespace WinSys.Autoruns

open Infra Texts

/-! ## the sources -/

inductive Source
  | run (k : RunKey)
  | folder (f : StartupFolder)
deriving DecidableEq, Repr

namespace Source

def store : Source → AutorunStore
  | run _ => .registryValue
  | folder _ => .startupFile

def root : Source → HKey
  | run k => k.root
  | folder f => f.root

def subKey : Source → WString
  | run k => k.subKey
  | folder _ => []

def approved : Source → Option WString
  | run k => k.approved
  | folder _ => some (wide "StartupFolder")

end Source

def sources : List Source := runKeys.map .run ++ startupFolders.map .folder

variable {env : Env} {s t : System env}

def entriesOf (s : System env) : Source → List AutorunEntry
  | .run k => runEntries s k
  | .folder f => startupEntries s f

theorem enum_eq (s : System env) :
    enum s = sources.flatMap fun src => (entriesOf s src).map (withImageFound s) := by
  rw [enum, sources, List.map_append, List.flatMap_append, List.flatMap_map, List.flatMap_map,
    addRunKeys, addStartupFolders, List.map_flatMap, List.map_flatMap]
  rfl

/-- The keys and folders differ, and so do the keys of the states: already the lengths of their
paths do. -/
theorem tags_nodup :
    (sources.map fun src => (src.store, src.root, (cstr src.subKey).length)).Nodup := by
  decide +kernel

theorem approved_injective : ∀ a ∈ sources, ∀ b ∈ sources, ∀ p ∈ a.approved, ∀ q ∈ b.approved,
    a.root = b.root → (cstr (approvedKey ++ p)).length = (cstr (approvedKey ++ q)).length →
      a = b := by
  decide +kernel

theorem approved_ne_subKey : ∀ a ∈ sources, ∀ b ∈ sources, ∀ p ∈ a.approved,
    (cstr (approvedKey ++ p)).length ≠ (cstr b.subKey).length := by
  decide +kernel

theorem pathKey_length (path : WString) : (pathKey env path).length = (cstr path).length :=
  List.length_map _

/-- No state is in a Run key. -/
theorem pathKey_approved_ne {a b : Source} (ha : a ∈ sources) (hb : b ∈ sources) {p : WString}
    (hp : a.approved = some p) :
    pathKey env (approvedKey ++ p) ≠ pathKey env b.subKey := by
  intro h
  have hlen := congrArg List.length h
  rw [pathKey_length, pathKey_length] at hlen
  exact approved_ne_subKey a ha b hb p hp hlen

/-! ## the entries of a source -/

structure From (s : System env) (src : Source) (x : AutorunEntry) : Prop where
  store : x.store = src.store
  root : x.root = src.root
  subKey : x.subKey = src.subKey
  approvedName : ∀ p, src.approved = some p → approvedName x = p
  enabled : x.enabled = src.approved.map fun p => isApproved s src.root p x.valueName
  deletable : x.deletable = true

theorem runKeys_approved : ∀ k ∈ runKeys, ∀ p ∈ k.approved,
    p = if k.wow64 then wide "Run32" else wide "Run" := by
  decide

theorem runEntry_from {k : RunKey} (hk : k ∈ runKeys) {key : RegKey env} {v : RegistryValue}
    {x : AutorunEntry} (h : runEntry s k key v = some x) :
    From s (.run k) x ∧ x.valueName = v.name := by
  simp only [runEntry] at h
  split at h
  · cases h
  · cases h
    refine ⟨⟨rfl, rfl, rfl, fun p hp => ?_, rfl, rfl⟩, rfl⟩
    exact (runKeys_approved k hk p hp).symm

theorem startupEntry_from {f : StartupFolder} {fd : File} {x : AutorunEntry}
    (h : startupEntry s f fd = some x) :
    From s (.folder f) x ∧ x.valueName = fd.name ∧ x.name = fd.name ∧
      x.location = expand env f.folder ∧ fd.isDirectory = false := by
  unfold startupEntry at h
  split at h
  · cases h
  · next hdir =>
    have hfile : fd.isDirectory = false := Bool.eq_false_iff.mpr hdir
    split at h
    · cases h
    · split at h
      · split at h
        · cases h
          exact ⟨⟨rfl, rfl, rfl, fun _ hp => Option.some_inj.mp hp, rfl, rfl⟩, rfl, rfl, rfl, hfile⟩
        · cases h
          exact ⟨⟨rfl, rfl, rfl, fun _ hp => Option.some_inj.mp hp, rfl, rfl⟩, rfl, rfl, rfl, hfile⟩
      · cases h
        exact ⟨⟨rfl, rfl, rfl, fun _ hp => Option.some_inj.mp hp, rfl, rfl⟩, rfl, rfl, rfl, hfile⟩

theorem mem_runEntries {k : RunKey} {x : AutorunEntry} :
    x ∈ runEntries s k ↔ ∃ key, s.openKey k.root k.subKey = some key ∧
      ∃ v ∈ key.values.toList, runEntry s k key v = some x := by
  unfold runEntries
  split
  · next h => simp [h]
  · next key h => simp [h]

theorem mem_startupEntries {f : StartupFolder} {x : AutorunEntry} :
    x ∈ startupEntries s f ↔ ∃ fd ∈ s.files.toList,
      pathKey env fd.directory = pathKey env (expand env f.folder) ∧ startupEntry s f fd = some x := by
  simp [startupEntries, findFiles, and_assoc]

theorem entriesOf_from {src : Source} (hsrc : src ∈ sources) {x : AutorunEntry}
    (h : x ∈ entriesOf s src) : From s src x := by
  cases src with
  | run k =>
    obtain ⟨key, -, v, -, hx⟩ := mem_runEntries.mp h
    have hk : k ∈ runKeys := by simpa [sources] using hsrc
    exact (runEntry_from hk hx).1
  | folder f =>
    obtain ⟨fd, -, -, hx⟩ := mem_startupEntries.mp h
    exact (startupEntry_from hx).1

theorem From.withImageFound {src : Source} {x : AutorunEntry} (h : From s src x) :
    From s src (withImageFound t x) :=
  ⟨h.store, h.root, h.subKey, h.approvedName, h.enabled, h.deletable⟩

theorem exists_source {x : AutorunEntry} (h : x ∈ enum s) :
    ∃ src ∈ sources, From s src x ∧ ∃ y ∈ entriesOf s src, withImageFound s y = x := by
  rw [enum_eq, List.mem_flatMap] at h
  obtain ⟨src, hsrc, hx⟩ := h
  obtain ⟨y, hy, rfl⟩ := List.mem_map.mp hx
  exact ⟨src, hsrc, (entriesOf_from hsrc hy).withImageFound, y, hy, rfl⟩

/-! ## places -/

/-- A key or a folder, and a name. -/
def place (env : Env) (x : AutorunEntry) : (AutorunStore × HKey × WString) × WString :=
  ((x.store, x.root, pathKey env x.subKey), upper env (cstr x.valueName))

/-- Value names are as Win32 functions take them. -/
def Plain (s : System env) : Prop :=
  ∀ k ∈ runKeys, ∀ key, s.openKey k.root k.subKey = some key →
    ∀ v ∈ key.values.toList, 0 ∉ v.name

/-- The two startup folders are two. -/
def TwoFolders (env : Env) : Prop :=
  pathKey env (expand env userStartup.folder) ≠ pathKey env (expand env commonStartup.folder)

theorem cstr_of_notMem {text : WString} (h : 0 ∉ text) : cstr text = text :=
  List.takeWhile_eq_self_iff.mpr fun c hc =>
    decide_eq_true fun h0 : c = 0 => h (h0 ▸ hc)

theorem notMem_cstr (text : WString) : 0 ∉ cstr text := by
  intro h
  simpa using List.mem_takeWhile_imp h

theorem notMem_expand {text : WString} (h : 0 ∉ text) : 0 ∉ expand env text := by
  unfold expand
  split
  · split
    · exact h
    · exact notMem_cstr _
  · exact h

theorem notMem_joined {directory name : WString} (hd : 0 ∉ directory) (hn : 0 ∉ name) :
    0 ∉ joined directory name := by
  rw [joined, List.mem_append, List.mem_cons]
  rintro (h | h | h)
  · exact hd h
  · exact absurd h (by decide)
  · exact hn h

theorem pathKey_joined {directory name : WString} (hd : 0 ∉ directory) (hn : 0 ∉ name) :
    pathKey env (joined directory name)
      = pathKey env directory ++ env.upcase backslash :: upper env name := by
  rw [pathKey, cstr_of_notMem (notMem_joined hd hn), pathKey, cstr_of_notMem hd]
  simp [upper, joined]

theorem runEntries_nodup (hplain : Plain s) {k : RunKey} (hk : k ∈ runKeys) :
    ((runEntries s k).map (place env)).Nodup := by
  unfold runEntries
  split
  · exact List.nodup_nil
  · next key hkey =>
    refine List.nodup_map_filterMap key.values.nodup fun v hv w hw x hx y hy hxy => ?_
    have hname := congrArg Prod.snd hxy
    rw [place, place, (runEntry_from hk hx).2, (runEntry_from hk hy).2,
      cstr_of_notMem (hplain k hk key hkey v hv), cstr_of_notMem (hplain k hk key hkey w hw)] at hname
    exact hname

theorem fileKey_eq {f : StartupFolder} (hf : 0 ∉ f.folder) {fd : File}
    (h : pathKey env fd.directory = pathKey env (expand env f.folder)) :
    fileKey env fd = pathKey env (joined (expand env f.folder) fd.name) := by
  rw [fileKey, pathKey_joined fd.noNul.1 fd.noNul.2, pathKey_joined (notMem_expand hf) fd.noNul.2, h]

theorem startupFolders_noNul : ∀ f ∈ startupFolders, 0 ∉ f.folder := by decide

theorem startupEntries_nodup {f : StartupFolder} (hf : f ∈ startupFolders) :
    ((startupEntries s f).map (place env)).Nodup := by
  have hnul := startupFolders_noNul f hf
  refine List.nodup_map_filterMap
    ((List.Sublist.map (fileKey env) List.filter_sublist).nodup s.files.nodup)
    fun a ha b hb x hx y hy hxy => ?_
  have hname := congrArg Prod.snd hxy
  rw [place, place, (startupEntry_from hx).2.1, (startupEntry_from hy).2.1,
    cstr_of_notMem a.noNul.2, cstr_of_notMem b.noNul.2] at hname
  have hda := of_decide_eq_true (List.mem_filter.mp ha).2
  have hdb := of_decide_eq_true (List.mem_filter.mp hb).2
  rw [fileKey_eq hnul hda, fileKey_eq hnul hdb, pathKey_joined (notMem_expand hnul) a.noNul.2,
    pathKey_joined (notMem_expand hnul) b.noNul.2]
  exact congrArg _ (congrArg _ hname)

theorem entriesOf_nodup (hplain : Plain s) {src : Source} (hsrc : src ∈ sources) :
    ((entriesOf s src).map (place env)).Nodup := by
  cases src with
  | run k => exact runEntries_nodup hplain (by simpa [sources] using hsrc)
  | folder f => exact startupEntries_nodup (by simpa [sources] using hsrc)

/-- No two entries at one place. -/
theorem place_nodup (hplain : Plain s) : ((enum s).map (place env)).Nodup := by
  rw [enum_eq]
  let tag : (AutorunStore × HKey × WString) × WString → AutorunStore × HKey × ℕ :=
    fun p => (p.1.1, p.1.2.1, p.1.2.2.length)
  refine List.nodup_map_flatMap tag tags_nodup (fun src hsrc => ?_) fun src hsrc x hx => ?_
  · rw [List.map_map]
    exact entriesOf_nodup hplain hsrc
  · obtain ⟨y, hy, rfl⟩ := List.mem_map.mp hx
    have hy := entriesOf_from hsrc hy
    simp only [tag, place, withImageFound, hy.store, hy.root, hy.subKey, pathKey_length]

theorem enum_nodup (hplain : Plain s) : (enum s).Nodup := List.Nodup.of_map _ (place_nodup hplain)

theorem eq_of_place (hplain : Plain s) {x y : AutorunEntry} (hx : x ∈ enum s) (hy : y ∈ enum s)
    (h : place env x = place env y) : x = y :=
  List.inj_on_of_nodup_map (place_nodup hplain) hx hy h

/-! ## slots -/

/-- The states of the two are one value. -/
structure SameSlot (env : Env) (x y : AutorunEntry) : Prop where
  root : x.root = y.root
  key : pathKey env (approvedKey ++ approvedName x) = pathKey env (approvedKey ++ approvedName y)
  name : upper env (cstr x.valueName) = upper env (cstr y.valueName)

theorem From.place_eq {a b : Source} (ha : a ∈ sources) (hb : b ∈ sources) {x y : AutorunEntry}
    (hx : From s a x) (hy : From t b y) (hex : x.enabled ≠ none) (hey : y.enabled ≠ none)
    (h : SameSlot env x y) : place env x = place env y := by
  rw [hx.enabled, ne_eq, Option.map_eq_none_iff, ← ne_eq, Option.ne_none_iff_exists'] at hex
  rw [hy.enabled, ne_eq, Option.map_eq_none_iff, ← ne_eq, Option.ne_none_iff_exists'] at hey
  obtain ⟨p, hp⟩ := hex
  obtain ⟨q, hq⟩ := hey
  have hroot : a.root = b.root := by rw [← hx.root, ← hy.root, h.root]
  have hlen := congrArg List.length h.key
  rw [pathKey_length, pathKey_length, hx.approvedName p hp, hy.approvedName q hq] at hlen
  obtain rfl := approved_injective a ha b hb p hp q hq hroot hlen
  rw [place, place, hx.store, hy.store, hx.root, hy.root, hx.subKey, hy.subKey, h.name]

/-- No two entries with one slot. -/
theorem eq_of_sameSlot (hplain : Plain s) {x y : AutorunEntry} (hx : x ∈ enum s) (hy : y ∈ enum s)
    (hex : x.enabled ≠ none) (hey : y.enabled ≠ none) (h : SameSlot env x y) : x = y := by
  obtain ⟨a, ha, hxa, -⟩ := exists_source hx
  obtain ⟨b, hb, hyb, -⟩ := exists_source hy
  exact eq_of_place hplain hx hy (hxa.place_eq ha hb hyb hex hey h)

end WinSys.Autoruns
