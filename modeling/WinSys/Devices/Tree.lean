import WinSys.Infra.MultiSz
import WinSys.Infra.Preorder

/-!
# The device tree as a list

`Devices::Enum` walks the tree of the devices that are there, from the root down, and adds to the
list the disconnected ones. A device has the index of its parent and its depth.

* `walk`, `enum`, `setClassNames`: the source
* `Hangs`: the tree that the configuration manager's answers make
* `walk_eq`: the walk gives the tree's list
* `enum_eq`, `enum_tree`: all devices, and what of the tree is in the list
-/

namespace WinSys.Devices

open Infra Reads

/-! ## the source -/

/-- What `Read` reads of a device. -/
structure DeviceProperties where
  instanceId : WString
  /-- `Class` -/
  deviceClass : WString
  classGuid : WString
deriving DecidableEq, Repr

structure DeviceInfo extends DeviceProperties where
  className : WString := []
  present : Bool := true
  parent : Int := -1
  depth : ℕ := 0
deriving DecidableEq, Repr

/-- What the configuration manager answers. -/
structure ConfigManager (DevInst : Type) where
  /-- `CM_Locate_DevNodeW` of no ID -/
  root : Option DevInst
  /-- `CM_Get_Child` -/
  child : DevInst → Option DevInst
  /-- `CM_Get_Sibling` -/
  sibling : DevInst → Option DevInst
  /-- `Read` -/
  read : DevInst → DeviceProperties
  /-- `CM_Get_Device_ID_ListW`; none: it fails. -/
  deviceIds : Option WString
  /-- `CM_Locate_DevNodeW` of an ID, as a phantom -/
  locate : WString → Option DevInst
  /-- The name of a class, empty if it has none. -/
  classProperty : WString → WString

variable {DevInst : Type} (cm : ConfigManager DevInst)

/-- A device that was read, with its place. -/
def deviceAt (devInst : DevInst) (parent : Int) (depth : ℕ) : DeviceInfo :=
  { toDeviceProperties := cm.read devInst, parent, depth }

/-- `Walk`; none when so many turns are not enough. -/
def walk : ℕ → DevInst → Int → ℕ → List DeviceInfo → Option (List DeviceInfo)
  | 0, _, _, _, _ => none
  | turns + 1, devInst, parent, depth, devices => do
    let devices := devices ++ [deviceAt cm devInst parent depth]
    let index : Int := (devices.length : Int) - 1
    let devices ← match cm.child devInst with
      | some child => walk turns child index (depth + 1) devices
      | none => some devices
    -- the root has no siblings
    if parent ≥ 0 then
      match cm.sibling devInst with
      | some sibling => walk turns sibling parent depth devices
      | none => some devices
    else some devices

/-- `SetClassNames`, with the names so far. -/
def setClassNames : List (WString × WString) → List DeviceInfo → List DeviceInfo
  | _, [] => []
  | names, d :: ds =>
    if d.classGuid = [] then { d with className := d.deviceClass } :: setClassNames names ds
    else
      match names.lookup d.classGuid with
      | some name => { d with className := name } :: setClassNames names ds
      | none =>
        let property := cm.classProperty d.classGuid
        let name := if property = [] then d.deviceClass else property
        { d with className := name } :: setClassNames ((d.classGuid, name) :: names) ds

/-- The disconnected devices: those of the IDs that aren't there, and can be located. -/
def disconnected (present : List WString) (ids : List WString) : List DeviceInfo :=
  (ids.filter (!present.contains ·)).filterMap fun id =>
    (cm.locate id).map fun devInst => { toDeviceProperties := cm.read devInst, present := false }

/-- `Devices::Enum`; none when the root can't be located, or so many turns are not enough. -/
def enum (turns : ℕ) (withDisconnected : Bool) : Reads (Option (List DeviceInfo)) :=
  match cm.root.bind fun root => walk cm turns root (-1) 0 [] with
  | none => pure none
  | some devices =>
    match withDisconnected, cm.deviceIds with
    | true, some text => do
      let ids ← trustingStrings text
      let more := disconnected cm (devices.map (·.instanceId)) ids
      return some (setClassNames cm [] (devices ++ more))
    | _, _ => return some (setClassNames cm [] devices)

/-! ## the tree -/

/-- What hangs from a device and its siblings. -/
inductive Hangs : Option DevInst → Siblings DevInst → Prop
  | nil : Hangs none .nil
  | cons {devInst : DevInst} {children rest : Siblings DevInst}
      (hchildren : Hangs (cm.child devInst) children) (hrest : Hangs (cm.sibling devInst) rest) :
      Hangs (some devInst) (.cons devInst children rest)

/-- A device of the tree, as it is in the list. -/
def toDevice (p : Placed DevInst) : DeviceInfo :=
  deviceAt cm p.value (indexOf p.parent) p.depth

variable {cm} {devInst : DevInst} {children rest : Siblings DevInst}

theorem walk_succ (turns : ℕ) (devInst : DevInst) (parent : Int) (depth : ℕ)
    (devices : List DeviceInfo) :
    walk cm (turns + 1) devInst parent depth devices
      = ((match cm.child devInst with
          | some child => walk cm turns child devices.length (depth + 1)
              (devices ++ [deviceAt cm devInst parent depth])
          | none => some (devices ++ [deviceAt cm devInst parent depth])).bind
        fun devices =>
          if parent ≥ 0 then
            match cm.sibling devInst with
            | some sibling => walk cm turns sibling parent depth devices
            | none => some devices
          else some devices) := by
  have hindex : ((devices ++ [deviceAt cm devInst parent depth]).length : Int) - 1
      = devices.length := by
    simp
  rw [walk, hindex]
  cases cm.child devInst with
  | none => rfl
  | some child => rfl

/-- **The walk gives the list of what hangs from a device**, behind what is there already. -/
theorem walk_siblings {turns : ℕ} {devInst : DevInst} {s : Siblings DevInst}
    (h : Hangs cm (some devInst) s) (hturns : s.size ≤ turns) (parent depth : ℕ)
    (devices : List DeviceInfo) :
    walk cm turns devInst parent depth devices
      = some (devices ++ (s.list (some parent) depth devices.length).map (toDevice cm)) := by
  induction turns generalizing devInst s parent depth devices with
  | zero =>
    cases h with
    | cons hchildren hrest =>
      rw [Siblings.size] at hturns
      omega
  | succ turns ih =>
    cases h with
    | @cons _ children rest hchildren hrest =>
      rw [Siblings.size] at hturns
      -- the devices after the children, then after the siblings
      have hchild (devices : List DeviceInfo) (index : ℕ) :
          (match cm.child devInst with
            | some child => walk cm turns child index (depth + 1) devices
            | none => some devices)
          = some (devices ++ (children.list (some index) (depth + 1) devices.length).map
              (toDevice cm)) := by
        cases hc : cm.child devInst with
        | none =>
          rw [hc] at hchildren
          cases hchildren
          exact congrArg some (List.append_nil devices).symm
        | some child => exact ih (hc ▸ hchildren) (by omega) index (depth + 1) devices
      have hsibling (devices : List DeviceInfo) :
          (match cm.sibling devInst with
            | some sibling => walk cm turns sibling parent depth devices
            | none => some devices)
          = some (devices ++ (rest.list (some parent) depth devices.length).map (toDevice cm)) := by
        cases hs : cm.sibling devInst with
        | none =>
          rw [hs] at hrest
          cases hrest
          exact congrArg some (List.append_nil devices).symm
        | some sibling => exact ih (hs ▸ hrest) (by omega) parent depth devices
      rw [walk_succ, hchild, Option.bind_some, if_pos (Int.natCast_nonneg parent), hsibling]
      simp [Siblings.list, toDevice, indexOf, Nat.add_assoc, Nat.add_comm 1 children.size]

/-- The root's siblings are no matter. -/
theorem walk_root {turns : ℕ} (h : Hangs cm (cm.child devInst) children)
    (hturns : children.size < turns) :
    walk cm turns devInst (-1) 0 []
      = some (((Siblings.cons devInst children .nil).list none 0 0).map (toDevice cm)) := by
  obtain ⟨turns, rfl⟩ := Nat.exists_eq_succ_of_ne_zero (Nat.ne_zero_of_lt hturns)
  rw [walk_succ]
  cases hc : cm.child devInst with
  | none =>
    rw [hc] at h
    cases h
    rfl
  | some child =>
    have hwalk := walk_siblings (hc ▸ h) (Nat.le_of_lt_succ hturns) 0 1
      [deviceAt cm devInst (-1) 0]
    simp only [List.nil_append, List.length_nil, Nat.zero_add, Nat.cast_zero] at hwalk ⊢
    rw [hwalk]
    simp [Siblings.list, toDevice, indexOf]

/-! ## the class names -/

variable (cm) in
/-- The name of a device's class: the class's, or else what the first device of the class says. -/
def classNameOf (devices : List DeviceInfo) (d : DeviceInfo) : WString :=
  if d.classGuid = [] then d.deviceClass
  else if cm.classProperty d.classGuid ≠ [] then cm.classProperty d.classGuid
  else ((devices.find? fun q => q.classGuid = d.classGuid).map (·.deviceClass)).getD []

variable (cm) in
/-- A device with its class's name, where some names are known. -/
def named (names : List (WString × WString)) (devices : List DeviceInfo) (d : DeviceInfo) :
    DeviceInfo :=
  { d with className :=
      if d.classGuid = [] then d.deviceClass
      else (names.lookup d.classGuid).getD (classNameOf cm devices d) }

/-- A device of another class is no matter. -/
theorem classNameOf_cons_of_ne {d q : DeviceInfo} (h : d.classGuid ≠ q.classGuid)
    (devices : List DeviceInfo) :
    classNameOf cm (d :: devices) q = classNameOf cm devices q := by
  unfold classNameOf
  rw [List.find?_cons_of_neg (by simpa using h)]

theorem named_cons_of_ne {names names' : List (WString × WString)} {d q : DeviceInfo}
    (h : d.classGuid ≠ q.classGuid) (hnames : names'.lookup q.classGuid = names.lookup q.classGuid)
    (devices : List DeviceInfo) : named cm names' devices q = named cm names (d :: devices) q := by
  rw [named, named, classNameOf_cons_of_ne h, hnames]

/-- The names are those of the first devices of the classes. -/
theorem setClassNames_eq (names : List (WString × WString)) (devices : List DeviceInfo) :
    setClassNames cm names devices = devices.map (named cm names devices) := by
  induction devices generalizing names with
  | nil => rfl
  | cons d ds ih =>
    rw [setClassNames, List.map_cons]
    by_cases hguid : d.classGuid = []
    · rw [if_pos hguid, ih, named, if_pos hguid]
      refine congrArg (_ :: ·) (List.map_congr_left fun q _ => ?_)
      by_cases hq : q.classGuid = []
      · rw [named, named, if_pos hq, if_pos hq]
      · exact named_cons_of_ne (fun h => hq (h ▸ hguid)) rfl ds
    · rw [if_neg hguid]
      cases hlookup : names.lookup d.classGuid with
      | some name =>
        have hd : named cm names (d :: ds) d = { d with className := name } := by
          rw [named, if_neg hguid, hlookup, Option.getD_some]
        rw [hd]
        show { d with className := name } :: setClassNames cm names ds = _
        rw [ih]
        refine congrArg (_ :: ·) (List.map_congr_left fun q _ => ?_)
        by_cases hq : d.classGuid = q.classGuid
        · rw [named, named, ← hq, hlookup, Option.getD_some, Option.getD_some]
        · exact named_cons_of_ne hq rfl ds
      | none =>
        set name := if cm.classProperty d.classGuid = [] then d.deviceClass
          else cm.classProperty d.classGuid with hname
        have hown {q : DeviceInfo} (hq : d.classGuid = q.classGuid) :
            classNameOf cm (d :: ds) q = name := by
          have hfirst : (d :: ds).find? (fun r => r.classGuid = q.classGuid) = some d :=
            List.find?_cons_of_pos (by simpa using hq)
          rw [classNameOf, hfirst, ← hq, if_neg hguid, hname]
          by_cases hproperty : cm.classProperty d.classGuid = []
          · rw [if_pos hproperty, if_neg (not_not.mpr hproperty)]
            rfl
          · rw [if_neg hproperty, if_pos hproperty]
        have hd : named cm names (d :: ds) d = { d with className := name } := by
          rw [named, if_neg hguid, hlookup, Option.getD_none, hown rfl]
        rw [hd]
        show { d with className := name } :: setClassNames cm ((d.classGuid, name) :: names) ds = _
        rw [ih]
        refine congrArg (_ :: ·) (List.map_congr_left fun q _ => ?_)
        by_cases hq : d.classGuid = q.classGuid
        · have hlookup' : ((d.classGuid, name) :: names).lookup q.classGuid = some name := by
            rw [← hq, List.lookup_cons_self]
          rw [named, named, hlookup', ← hq, hlookup, Option.getD_some, Option.getD_none, hown hq]
        · refine named_cons_of_ne hq ?_ ds
          have hne : (q.classGuid == d.classGuid) = false := by
            simpa using fun h : q.classGuid = d.classGuid => hq h.symm
          rw [List.lookup_cons, hne]

/-! ## all devices -/

/-- The IDs of the devices of a tree. -/
def treeIds (cm : ConfigManager DevInst) (root : DevInst) (children : Siblings DevInst) :
    List WString :=
  (root :: children.toList).map fun devInst => (cm.read devInst).instanceId

/-- The other IDs whose devices can be located. -/
def otherIds (cm : ConfigManager DevInst) (present ids : List WString) : List WString :=
  ids.filter fun id => !present.contains id && (cm.locate id).isSome

/-- What the configuration manager has: a tree and a list of IDs, each device once, and by its ID. -/
structure Consistent (cm : ConfigManager DevInst) (root : DevInst) (children : Siblings DevInst)
    (ids : List WString) : Prop where
  rooted : cm.root = some root
  hangs : Hangs cm (cm.child root) children
  listed : ∃ rest, cm.deviceIds = some (multiSz ids ++ rest)
  items : ∀ id ∈ ids, Item id
  ids_nodup : ids.Nodup
  tree_nodup : (treeIds cm root children).Nodup
  located : ∀ id ∈ ids, ∀ devInst ∈ cm.locate id, (cm.read devInst).instanceId = id

/-- The devices of the tree. -/
def treeDevices (cm : ConfigManager DevInst) (root : DevInst) (children : Siblings DevInst) :
    List DeviceInfo :=
  ((Siblings.cons root children .nil).list none 0 0).map (toDevice cm)

theorem map_instanceId_treeDevices (root : DevInst) (children : Siblings DevInst) :
    (treeDevices cm root children).map (·.instanceId) = treeIds cm root children := by
  have hvalues : ((Siblings.cons root children .nil).list none 0 0).map (·.value) = _ :=
    Siblings.map_value_list _
  rw [Siblings.toList, Siblings.toList, List.append_nil] at hvalues
  rw [treeDevices, List.map_map, treeIds, ← hvalues, List.map_map]
  rfl

theorem map_instanceId_disconnected {present ids : List WString}
    (h : ∀ id ∈ ids, ∀ devInst ∈ cm.locate id, (cm.read devInst).instanceId = id) :
    (disconnected cm present ids).map (·.instanceId) = otherIds cm present ids := by
  unfold disconnected otherIds
  induction ids with
  | nil => rfl
  | cons id ids ih =>
    have hrest := ih fun id hid => h id (List.mem_cons_of_mem _ hid)
    rw [List.filter_cons, List.filter_cons]
    by_cases hid : id ∈ present
    · rw [if_neg (by simpa using hid), if_neg (by simp [hid]), hrest]
    · rw [if_pos (by simpa using hid), List.filterMap_cons]
      cases hlocate : cm.locate id with
      | none =>
        rw [if_neg (by simp)]
        exact hrest
      | some devInst =>
        rw [if_pos (by simp [hid])]
        show (cm.read devInst).instanceId :: _ = _
        rw [h id List.mem_cons_self devInst hlocate, hrest]

theorem present_treeDevices {d : DeviceInfo} {root : DevInst} {children : Siblings DevInst}
    (h : d ∈ treeDevices cm root children) : d.present = true := by
  obtain ⟨p, -, rfl⟩ := List.mem_map.mp h
  rfl

theorem mem_disconnected {present ids : List WString} {d : DeviceInfo}
    (h : d ∈ disconnected cm present ids) : d.present = false ∧ d.parent = -1 := by
  obtain ⟨id, -, hlocate⟩ := List.mem_filterMap.mp h
  obtain ⟨devInst, -, rfl⟩ := Option.map_eq_some_iff.mp hlocate
  exact ⟨rfl, rfl⟩

@[simp]
theorem length_treeDevices (cm : ConfigManager DevInst) (root : DevInst) (children : Siblings DevInst) :
    (treeDevices cm root children).length = children.size + 1 := by
  rw [treeDevices, List.length_map, Siblings.length_list]
  rfl

/-- A device that isn't the root is below one before it. -/
theorem parent_treeDevices {root : DevInst} {children : Siblings DevInst} {i : ℕ} {d : DeviceInfo}
    (h : (treeDevices cm root children)[i]? = some d) (hi : 0 < i) :
    ∃ j q, j < i ∧ d.parent = (j : ℕ) ∧ (treeDevices cm root children)[j]? = some q
      ∧ d.depth = q.depth + 1 := by
  rw [treeDevices, List.getElem?_map] at h
  obtain ⟨p, hp, rfl⟩ := Option.map_eq_some_iff.mp h
  cases i with
  | zero => cases hi
  | succ i =>
    -- behind the root there are only its children's trees
    have hchild : (children.list (some 0) 1 1)[i]? = some p := by
      simpa [Siblings.list] using hp
    have hsome : ∃ j, p.parent = some j := by
      obtain ⟨hparent, -⟩ | ⟨j, q, -, hparent, -⟩ := Siblings.parent_list children hchild
      · exact ⟨0, hparent⟩
      · exact ⟨_, hparent⟩
    obtain ⟨j, hj⟩ := hsome
    obtain ⟨hlt, q, hq, hdepth⟩ := Siblings.parent_spec _ hp hj
    refine ⟨j, toDevice cm q, hlt, ?_, ?_, hdepth⟩
    · rw [toDevice, hj]
      rfl
    · rw [treeDevices, List.getElem?_map, hq]
      rfl

/-- What the class names depend on is kept. -/
theorem classNameOf_map_named (names : List (WString × WString)) (devices : List DeviceInfo)
    (d : DeviceInfo) : classNameOf cm (devices.map (named cm names devices)) d
      = classNameOf cm devices d := by
  unfold classNameOf
  rw [List.find?_map, Option.map_map]
  rfl

/-- The IDs that are asked for. -/
def asked (withDisconnected : Bool) (ids : List WString) : List WString :=
  if withDisconnected then ids else []

theorem mem_asked {withDisconnected : Bool} {ids : List WString} {id : WString}
    (h : id ∈ asked withDisconnected ids) : id ∈ ids := by
  cases withDisconnected with
  | false => cases h
  | true => exact h

theorem value_enum {turns : ℕ} {root : DevInst} {ids : List WString} {withDisconnected : Bool}
    (h : Consistent cm root children ids) (hturns : children.size < turns) :
    (enum cm turns withDisconnected).Safe ∧ (enum cm turns withDisconnected).value
      = some ((treeDevices cm root children
          ++ disconnected cm ((treeDevices cm root children).map (·.instanceId))
            (asked withDisconnected ids)).map
        (named cm [] (treeDevices cm root children
          ++ disconnected cm ((treeDevices cm root children).map (·.instanceId))
            (asked withDisconnected ids)))) := by
  obtain ⟨rest, hids⟩ := h.listed
  obtain ⟨hsafe, hvalue⟩ := trustingStrings_multiSz h.items rest
  have hwalk : (cm.root.bind fun root => walk cm turns root (-1) 0 [])
      = some (treeDevices cm root children) := by
    rw [h.rooted, Option.bind_some, walk_root h.hangs hturns]
    rfl
  unfold enum
  rw [hwalk, hids, ← setClassNames_eq]
  cases withDisconnected with
  | false =>
    have hnone (present : List WString) : disconnected cm present (asked false ids) = [] := rfl
    rw [hnone, List.append_nil]
    exact ⟨safe_pure _, rfl⟩
  | true =>
    refine ⟨(safe_bind _ _).mpr ⟨hsafe, safe_pure _⟩, ?_⟩
    show some (setClassNames cm [] _) = _
    rw [hvalue]
    rfl

/-- **The list has every device once.** The tree comes first, each device but the root below one
before it; then come the located devices of the other IDs, if they are asked for, in order, without a
parent. A class has one name. -/
theorem enum_devices {turns : ℕ} {root : DevInst} {ids : List WString} (withDisconnected : Bool)
    (h : Consistent cm root children ids) (hturns : children.size < turns) :
    ∃ devices, (enum cm turns withDisconnected).value = some devices
      ∧ (enum cm turns withDisconnected).Safe
      ∧ (devices.map (·.instanceId)).Nodup
      ∧ devices.map (·.instanceId) = treeIds cm root children
        ++ otherIds cm (treeIds cm root children) (asked withDisconnected ids)
      ∧ (∀ i d, devices[i]? = some d → 0 < i → d.present = true →
        ∃ (j : ℕ) (q : DeviceInfo), j < i ∧ d.parent = (j : Int) ∧ devices[j]? = some q ∧ d.depth = q.depth + 1)
      ∧ (∀ d ∈ devices.drop (children.size + 1), d.present = false ∧ d.parent = -1)
      ∧ ∀ d ∈ devices, d.className = classNameOf cm devices d := by
  obtain ⟨hsafe, hvalue⟩ := @value_enum _ cm _ turns root ids withDisconnected h hturns
  set tree := treeDevices cm root children with htree
  set missing := disconnected cm (tree.map (·.instanceId)) (asked withDisconnected ids) with hmissing
  set finish := named cm [] (tree ++ missing) with hfinish
  have hids : ((tree ++ missing).map finish).map (·.instanceId)
      = treeIds cm root children
        ++ otherIds cm (treeIds cm root children) (asked withDisconnected ids) := by
    rw [List.map_map, List.map_append, ← map_instanceId_treeDevices, ← htree, hmissing]
    exact congrArg _ (map_instanceId_disconnected fun id hid => h.located id (mem_asked hid))
  refine ⟨_, hvalue, hsafe, ?_, hids, ?_, ?_, ?_⟩
  · rw [hids]
    have hasked : (asked withDisconnected ids).Nodup := by
      cases withDisconnected with
      | false => exact List.nodup_nil
      | true => exact h.ids_nodup
    refine List.nodup_append.mpr ⟨h.tree_nodup, hasked.filter _, fun id hid id' hid' heq => ?_⟩
    have hnot := (List.mem_filter.mp hid').2
    rw [← heq, List.contains_iff_mem.mpr hid] at hnot
    cases hnot
  · intro i d hd hi hpresent
    rw [List.getElem?_map] at hd
    obtain ⟨p, hp, rfl⟩ := Option.map_eq_some_iff.mp hd
    have hlt : i < tree.length := by
      by_contra hge
      rw [List.getElem?_append_right (Nat.le_of_not_lt hge)] at hp
      have habsent : p.present = true := hpresent
      rw [(mem_disconnected (List.mem_of_getElem? hp)).1] at habsent
      cases habsent
    rw [List.getElem?_append_left hlt] at hp
    obtain ⟨j, q, hj, hparent, hq, hdepth⟩ := parent_treeDevices hp hi
    refine ⟨j, finish q, hj, hparent, ?_, hdepth⟩
    rw [List.getElem?_map, List.getElem?_append_left (by omega), hq]
    rfl
  · intro d hd
    rw [← List.map_drop, ← length_treeDevices cm root children, ← htree,
      List.drop_left] at hd
    obtain ⟨p, hp, rfl⟩ := List.mem_map.mp hd
    show p.present = false ∧ p.parent = -1
    exact mem_disconnected hp
  · intro d hd
    obtain ⟨p, -, rfl⟩ := List.mem_map.mp hd
    rw [hfinish, classNameOf_map_named, ← hfinish]
    show (if p.classGuid = [] then p.deviceClass else _) = classNameOf cm (tree ++ missing) (finish p)
    rw [List.lookup_nil, Option.getD_none]
    show _ = classNameOf cm (tree ++ missing) p
    by_cases hguid : p.classGuid = []
    · rw [if_pos hguid, classNameOf, if_pos hguid]
    · rw [if_neg hguid]

/-! A root with two devices, the first with one of its own, and a device that is gone. -/

def someIds : List WString := [wide "HTREE", wide "ACPI", wide "PCI", wide "USB", wide "GONE"]

def someManager : ConfigManager ℕ where
  root := some 0
  child devInst := if devInst = 0 then some 1 else if devInst = 1 then some 3 else none
  sibling devInst := if devInst = 1 then some 2 else none
  read devInst :=
    { instanceId := someIds.getD devInst [], deviceClass := wide "System", classGuid := wide "guid" }
  deviceIds := some (multiSz someIds)
  locate id := if id = wide "GONE" then some 4 else none
  classProperty _ := []

def someChildren : Siblings ℕ := .cons 1 (.cons 3 .nil .nil) (.cons 2 .nil .nil)

theorem consistent_someManager : Consistent someManager 0 someChildren someIds where
  rooted := rfl
  hangs := .cons (.cons .nil .nil) (.cons .nil .nil)
  listed := ⟨[], by rw [List.append_nil]; rfl⟩
  items := by decide
  ids_nodup := by decide
  tree_nodup := by decide
  located := by decide

theorem enum_devices_someManager :
    ∃ devices, (enum someManager 4 true).value = some devices
      ∧ devices.map (·.instanceId)
        = treeIds someManager 0 someChildren
          ++ otherIds someManager (treeIds someManager 0 someChildren) someIds := by
  obtain ⟨devices, hdevices, -, -, hids, -⟩ :=
    @enum_devices _ someManager _ 4 _ _ true consistent_someManager (by decide)
  exact ⟨devices, hdevices, hids⟩

/-- **Nothing of the tree is lost**: the IDs and the parents' indices of the devices that are there
determine the tree. -/
theorem enum_tree {DevInst' : Type} {cm' : ConfigManager DevInst'} {root : DevInst}
    {root' : DevInst'} {children' : Siblings DevInst'} {ids ids' : List WString} {turns turns' : ℕ}
    (withDisconnected : Bool) (hturns : children.size < turns) (hturns' : children'.size < turns')
    (h : Consistent cm root children ids) (h' : Consistent cm' root' children' ids')
    (heq : ∀ devices ∈ (enum cm turns withDisconnected).value,
      ∀ devices' ∈ (enum cm' turns' withDisconnected).value,
      (devices.filter (·.present)).map (fun d => (d.instanceId, d.parent))
        = (devices'.filter (·.present)).map fun d => (d.instanceId, d.parent)) :
    (Siblings.cons root children .nil).map (fun devInst => (cm.read devInst).instanceId)
      = (Siblings.cons root' children' .nil).map fun devInst => (cm'.read devInst).instanceId := by
  have hplaces {T : Type} {m : ConfigManager T} {r : T} {s : Siblings T} {is : List WString} {n : ℕ}
      (hm : Consistent m r s is) (hn : s.size < n) :
      ∃ devices ∈ (enum m n withDisconnected).value,
        (devices.filter (·.present)).map (fun d => (d.instanceId, d.parent))
          = (((Siblings.cons r s .nil).map fun devInst => (m.read devInst).instanceId).list none 0 0).map
            fun p => (p.value, indexOf p.parent) := by
    refine ⟨_, (value_enum hm hn).2, ?_⟩
    rw [List.filter_map, List.filter_append, List.filter_eq_self.mpr, List.filter_eq_nil_iff.mpr,
      List.append_nil, Siblings.map_list, List.map_map, List.map_map, treeDevices, List.map_map]
    · rfl
    · intro d hd
      show ¬d.present = true
      rw [(mem_disconnected hd).1]
      exact Bool.false_ne_true
    · intro d hd
      show d.present = true
      exact present_treeDevices hd
  obtain ⟨devices, hdevices, hlist⟩ := hplaces h hturns
  obtain ⟨devices', hdevices', hlist'⟩ := hplaces h' hturns'
  have hsame := heq devices hdevices devices' hdevices'
  rw [hlist, hlist'] at hsame
  have hinj : Function.Injective (Prod.map (id : WString → WString) indexOf) :=
    Prod.map_injective.mpr ⟨Function.injective_id, fun i j => indexOf_inj⟩
  refine Siblings.list_inj (List.map_injective_iff.mpr hinj ?_)
  rw [List.map_map, List.map_map]
  exact hsame

theorem enum_tree_someManager :
    (Siblings.cons 0 someChildren .nil).map (fun devInst => (someManager.read devInst).instanceId)
      = (Siblings.cons 0 someChildren .nil).map fun devInst => (someManager.read devInst).instanceId :=
  enum_tree true (by decide : someChildren.size < 4) (by decide : someChildren.size < 5)
    consistent_someManager consistent_someManager fun devices hdevices devices' hdevices' => by
      have hsame : (enum someManager 4 true).value = (enum someManager 5 true).value :=
        (value_enum consistent_someManager (by decide)).2.trans
          (value_enum consistent_someManager (by decide)).2.symm
      rw [← hsame] at hdevices'
      cases hdevices.symm.trans hdevices'
      rfl

end WinSys.Devices
