import WinSys.Infra.Dict
import WinSys.Infra.Wide
import Mathlib.Logic.Function.Basic

/-!
# The modules of a process

`ProcessModuleTracker` lists what is mapped in a process, call after call, and keeps the objects of
the modules that stay. With a handle to the process it walks the process's regions, else it reads a
ToolHelp snapshot.

* `Target`: what the handle shows during a call
* `ProcessModuleTracker`: the lists, the map by key, and the module objects
* `Walk`: the walk over the regions
-/

namespace WinSys.Modules

open Infra

/-! ## the process -/

inductive RegionState
  | commit | reserve | free
deriving DecidableEq, Repr

inductive RegionType
  | isPrivate | mapped | image
deriving DecidableEq, Repr

/-- `MEMORY_BASIC_INFORMATION`. -/
structure Region where
  baseAddress : UInt64
  allocationBase : UInt64
  regionSize : UInt64
  state : RegionState
  type : RegionType
deriving DecidableEq, Repr

/-- The fields of a PE header that are read, as both optional headers have them. -/
structure NtHeader where
  machine : UInt16
  imageBase32 : UInt32
  imageBase64 : UInt64
  dllCharacteristics : UInt16
deriving DecidableEq, Repr

structure Target where
  regions : List Region
  mappedFileName : UInt64 → WString
  ntHeader : UInt64 → Option NtHeader
  dosName : WString → WString

/-- `VirtualQueryEx`: the region at an address. -/
def Target.virtualQuery (target : Target) (address : UInt64) : Option Region :=
  target.regions.find? fun r =>
    decide (r.baseAddress ≤ address) && decide (address - r.baseAddress < r.regionSize)

/-- An entry of a ToolHelp snapshot. -/
structure ModuleEntry where
  module : WString
  exePath : WString
  hModule : UInt64
  modBaseSize : UInt32
deriving DecidableEq, Repr

/-! ## the tracker -/

inductive MapType
  | image | data
deriving DecidableEq, Repr

structure ModuleInfo where
  name : WString := []
  path : WString := []
  imageBase : UInt64 := 0
  base : UInt64 := 0
  moduleSize : UInt32 := 0
  characteristics : UInt16 := 0
  type : MapType := .image
deriving DecidableEq, Repr

structure ProcessModuleTracker where
  hasHandle : Bool := true
  /-- The module objects ever made, below `made`. -/
  objects : ℕ → ModuleInfo := fun _ => {}
  made : ℕ := 0
  modules : List ℕ := []
  newModules : List ℕ := []
  /-- In no particular order. -/
  unloadedModules : Multiset ℕ := 0
  moduleMap : Finmap fun _ : WString => ℕ := ∅

def machineArm : UInt16 := 0x01C0

def machineI386 : UInt16 := 0x014C

/-- Tells a module from another at the same address after an unload and a load. -/
def moduleKey (path : WString) (base : UInt64) : WString :=
  path ++ wide "#" ++ decimal base.toNat

/-- What follows the last backslash. -/
def fileName (path : WString) : WString := (path.reverse.takeWhile (· ≠ backslash)).reverse

/-- A new module; its PE header is read once. -/
def Target.fillModule (target : Target) (mbi : Region) (ntPath : WString) : ModuleInfo :=
  let mi : ModuleInfo :=
    { base := mbi.allocationBase, type := if mbi.type = .mapped then .data else .image }
  let mi := if ntPath = [] then mi
    else { mi with path := target.dosName ntPath, name := fileName ntPath }
  if mi.type = .image then
    match target.ntHeader mbi.baseAddress with
    | some nt =>
      if nt.machine = machineArm ∨ nt.machine = machineI386 then
        { mi with imageBase := nt.imageBase32.toUInt64, characteristics := nt.dllCharacteristics }
      else { mi with imageBase := nt.imageBase64, characteristics := nt.dllCharacteristics }
    | none => mi
  else mi

def ModuleEntry.fillModule (me : ModuleEntry) : ModuleInfo where
  name := me.module
  path := me.exePath
  base := me.hModule
  moduleSize := me.modBaseSize

/-! ## a call -/

/-- What a call has gathered. -/
structure Walk where
  objects : ℕ → ModuleInfo
  made : ℕ
  modules : List ℕ := []
  newModules : List ℕ := []
  map : Finmap fun _ : WString => ℕ := ∅
  /-- The module the regions belong to. -/
  current : Option ℕ := none
  currentBase : UInt64 := 0

namespace Walk

variable (w : Walk)

/-- The object of a key: the one it had, or a new one. -/
def find (moduleMap : Finmap fun _ : WString => ℕ) (key : WString) (mi : ModuleInfo) :
    ℕ × Walk :=
  match moduleMap.lookup key with
  | some m => (m, w)
  | none =>
    (w.made, { w with
      objects := Function.update w.objects w.made mi
      made := w.made + 1
      newModules := w.newModules ++ [w.made] })

def setSize (m : ℕ) (size : UInt32) : Walk :=
  { w with objects := Function.update w.objects m { w.objects m with moduleSize := size } }

/-- A module is listed, without a size yet. -/
def list (m : ℕ) (key : WString) (base : UInt64) : Walk :=
  { w.setSize m 0 with
    current := some m
    currentBase := base
    map := w.map.insertNew key m
    modules := w.modules ++ [m] }

/-- The start of a mapping. -/
def enter (moduleMap : Finmap fun _ : WString => ℕ) (target : Target) (mbi : Region) : Walk :=
  let ntPath := target.mappedFileName mbi.allocationBase
  let key := moduleKey ntPath mbi.allocationBase
  let found := w.find moduleMap key (target.fillModule mbi ntPath)
  found.2.list found.1 key mbi.allocationBase

/-- A region of the current module. -/
def addRegion (mbi : Region) : Walk :=
  match w.current with
  | some m => w.setSize m ((w.objects m).moduleSize + mbi.regionSize.toUInt32)
  | none => w

def region (moduleMap : Finmap fun _ : WString => ℕ) (target : Target) (mbi : Region) : Walk :=
  if mbi.state = .commit ∧ mbi.type ≠ .isPrivate then
    (if mbi.allocationBase ≠ w.currentBase then w.enter moduleMap target mbi else w).addRegion mbi
  else w

/-- The regions from an address on, at most `fuel`. -/
def regions (moduleMap : Finmap fun _ : WString => ℕ) (target : Target) :
    ℕ → UInt64 → Walk → Walk
  | 0, _, w => w
  | fuel + 1, address, w =>
    match target.virtualQuery address with
    | some mbi => regions moduleMap target fuel (address + mbi.regionSize)
        (w.region moduleMap target mbi)
    | none => w

/-- A ToolHelp entry. -/
def entry (moduleMap : Finmap fun _ : WString => ℕ) (me : ModuleEntry) : Walk :=
  let key := moduleKey me.exePath me.hModule
  let found := w.find moduleMap key me.fillModule
  { found.2 with
    map := found.2.map.insertNew key found.1
    modules := found.2.modules ++ [found.1] }

end Walk

namespace ProcessModuleTracker

variable (t : ProcessModuleTracker)

/-- The modules of the map that another map does not have. -/
def gone (map : Finmap fun _ : WString => ℕ) : Multiset ℕ :=
  (t.moduleMap.eraseIf fun key _ => decide (key ∈ map)).values

def update (w : Walk) : ProcessModuleTracker :=
  { t with
    objects := w.objects
    made := w.made
    modules := w.modules
    newModules := w.newModules
    unloadedModules := t.gone w.map
    moduleMap := w.map }

def enumModulesWithVirtualQuery (target : Target) : ProcessModuleTracker :=
  t.update (Walk.regions t.moduleMap target target.regions.length 0
    { objects := t.objects, made := t.made })

def enumModulesWithToolHelp (snapshot : Option (List ModuleEntry)) : ProcessModuleTracker :=
  match snapshot with
  | none => t
  | some entries => t.update (entries.foldl (fun w me => w.entry t.moduleMap me)
      { objects := t.objects, made := t.made })

/-- The tracker after a call, and the number of modules it returns. -/
def enumModules (target : Target) (snapshot : Option (List ModuleEntry)) :
    ProcessModuleTracker × UInt32 :=
  if t.hasHandle then
    let t := t.enumModulesWithVirtualQuery target
    (t, t.modules.length.toUInt32)
  else
    let after := t.enumModulesWithToolHelp snapshot
    (after, if snapshot.isSome then after.modules.length.toUInt32 else 0)

end ProcessModuleTracker

end WinSys.Modules
