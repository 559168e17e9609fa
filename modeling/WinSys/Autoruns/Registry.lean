import WinSys.Autoruns.Image
import WinSys.Infra.Bytes
import WinSys.Infra.KeyedList

/-!
# The registry and the files

Keys, values and files are named without regard to case.

* `RegKey`: a key's values, no two of one name
* `System`: the keys the caller may read, and the files
-/

namespace WinSys.Autoruns

open Infra Texts

/-- `HKEY`: the roots that `RootName` knows. -/
inductive HKey
  | localMachine | currentUser | classesRoot | users
deriving DecidableEq, Repr

def rootName : HKey → WString
  | .localMachine => wide "HKLM"
  | .currentUser => wide "HKCU"
  | .classesRoot => wide "HKCR"
  | .users => wide "HKU"

def REG_SZ : UInt32 := 1
def REG_EXPAND_SZ : UInt32 := 2
def REG_BINARY : UInt32 := 3
def REG_MULTI_SZ : UInt32 := 7

structure RegistryValue where
  name : WString
  type : UInt32
  data : Bytes
deriving DecidableEq, Repr

/-- `String()`. -/
def RegistryValue.string (v : RegistryValue) : WString :=
  if v.type ≠ REG_SZ ∧ v.type ≠ REG_EXPAND_SZ ∧ v.type ≠ REG_MULTI_SZ then []
  else cstr (units v.data)

structure File where
  directory : WString
  /-- `cFileName`. -/
  name : WString
  isDirectory : Bool
  lastWrite : UInt64
  /-- What a shell link of the file says, when one loads: its target and arguments. -/
  shortcut : Option (WString × WString)
  noNul : 0 ∉ directory ∧ 0 ∉ name
deriving DecidableEq

section Named

variable (env : Env)

/-- A name as it is compared. -/
def upper (text : WString) : WString := text.map env.upcase

/-! ## a key -/

def valueKey (v : RegistryValue) : WString := upper env v.name

structure RegKey where
  /-- In the order of `RegEnumValueW`. -/
  values : KeyedList (valueKey env)
  lastWrite : UInt64

variable {env}

namespace RegKey

variable (key : RegKey env) (name : WString)

/-- `ReadValue`. -/
def readValue : Option RegistryValue := key.values.get? (upper env (cstr name))

/-- `RegSetValueExW`; a value that is there keeps its name as it is written. -/
def setValue (type : UInt32) (data : Bytes) (written : UInt64) : RegKey env :=
  { values := key.values.put
      { name := ((key.readValue name).map RegistryValue.name).getD (cstr name), type, data }
    lastWrite := written }

/-- `RegDeleteValueW`; a value that is not there changes nothing. -/
def deleteValue (written : UInt64) : RegKey env :=
  if (key.readValue name).isSome then
    { values := key.values.erase (upper env (cstr name)), lastWrite := written }
  else key

/-- The value that is set is the one of the name, whatever the spelling it keeps. -/
theorem readValue_setValue (type : UInt32) (data : Bytes) (written : UInt64) (other : WString) :
    (key.setValue name type data written).readValue other =
      if upper env (cstr other) = upper env (cstr name) then
        some { name := ((key.readValue name).map RegistryValue.name).getD (cstr name), type, data }
      else key.readValue other := by
  have hkey : upper env (((key.readValue name).map RegistryValue.name).getD (cstr name))
      = upper env (cstr name) := by
    cases hv : key.readValue name with
    | none => rfl
    | some v => exact (KeyedList.get?_eq_some.mp hv).2
  rw [readValue, setValue, KeyedList.get?_put]
  exact if_congr (by rw [valueKey, hkey]) rfl rfl

theorem readValue_deleteValue (written : UInt64) (other : WString) :
    (key.deleteValue name written).readValue other =
      if upper env (cstr other) = upper env (cstr name) then none else key.readValue other := by
  unfold deleteValue
  split
  · rw [readValue, KeyedList.get?_erase]
    rfl
  · next h =>
    split
    · next ho =>
      rw [readValue, ho]
      exact Option.not_isSome_iff_eq_none.mp h
    · rfl

end RegKey

/-! ## the system -/

variable (env)

/-- A path as it is compared. -/
def pathKey (path : WString) : WString := upper env (cstr path)

def joined (directory name : WString) : WString := directory ++ backslash :: name

def fileKey (f : File) : WString := pathKey env (joined f.directory f.name)

structure System where
  /-- The keys, each under its path below the root as it is compared. -/
  registry : HKey → WString → Option (RegKey env)
  /-- In the order of `FindNextFileW` within a directory. -/
  files : KeyedList (fileKey env)

variable {env}

namespace System

variable (s : System env)

def file (path : WString) : Option File := s.files.get? (pathKey env path)

/-- `IsFile`. -/
def isFile (path : WString) : Bool := (s.file path).any fun f => !f.isDirectory

/-- `OpenKey`. -/
def openKey (root : HKey) (subKey : WString) : Option (RegKey env) :=
  s.registry root (pathKey env subKey)

def modifyKey (root : HKey) (subKey : WString) (f : Option (RegKey env) → Option (RegKey env)) :
    System env :=
  { s with registry := fun r k =>
      if r = root ∧ k = pathKey env subKey then f (s.registry r k) else s.registry r k }

/-- `RegCreateKeyExW`: a key that is there is opened. -/
def createKey (root : HKey) (subKey : WString) (written : UInt64) : System env :=
  s.modifyKey root subKey fun key => some (key.getD { values := .empty, lastWrite := written })

def setValue (root : HKey) (subKey name : WString) (type : UInt32) (data : Bytes)
    (written : UInt64) : System env :=
  s.modifyKey root subKey fun key => key.map fun k => k.setValue name type data written

def deleteValue (root : HKey) (subKey name : WString) (written : UInt64) : System env :=
  s.modifyKey root subKey fun key => key.map fun k => k.deleteValue name written

def deleteFile (path : WString) : System env :=
  { s with files := s.files.erase (pathKey env path) }

/-- The value of a name in a key, none where the key is not there either. -/
def readAt (root : HKey) (subKey name : WString) : Option RegistryValue :=
  (s.openKey root subKey).bind fun key => key.readValue name

variable {s}

@[simp]
theorem files_modifyKey (root : HKey) (subKey : WString)
    (f : Option (RegKey env) → Option (RegKey env)) : (s.modifyKey root subKey f).files = s.files :=
  rfl

@[simp]
theorem openKey_deleteFile (path : WString) (root : HKey) (subKey : WString) :
    (s.deleteFile path).openKey root subKey = s.openKey root subKey := rfl

theorem isFile_congr {t : System env} (h : t.files = s.files) : t.isFile = s.isFile := by
  funext path
  rw [isFile, isFile, file, file, h]

theorem openKey_modifyKey (root r : HKey) (subKey k : WString)
    (f : Option (RegKey env) → Option (RegKey env)) :
    (s.modifyKey root subKey f).openKey r k =
      if r = root ∧ pathKey env k = pathKey env subKey then f (s.openKey r k)
      else s.openKey r k := rfl

theorem readAt_setValue (root r : HKey) (subKey k name n : WString) (type : UInt32) (data : Bytes)
    (written created : UInt64) :
    (((s.createKey root subKey created).setValue root subKey name type data written).readAt r k n).map
        (fun v => (v.type, v.data)) =
      if (r = root ∧ pathKey env k = pathKey env subKey) ∧ upper env (cstr n) = upper env (cstr name)
      then some (type, data) else (s.readAt r k n).map fun v => (v.type, v.data) := by
  rw [readAt, setValue, openKey_modifyKey, createKey, openKey_modifyKey]
  by_cases hk : r = root ∧ pathKey env k = pathKey env subKey
  · rw [if_pos hk, if_pos hk, Option.map_some, Option.bind_some, RegKey.readValue_setValue]
    by_cases hn : upper env (cstr n) = upper env (cstr name)
    · rw [if_pos hn, if_pos ⟨hk, hn⟩]
      rfl
    · rw [if_neg hn, if_neg fun h => hn h.2, readAt]
      cases s.openKey r k <;> rfl
  · rw [if_neg hk, if_neg hk, if_neg fun h => hk h.1, readAt]

theorem readAt_createKey (root r : HKey) (subKey k n : WString) (created : UInt64) :
    (s.createKey root subKey created).readAt r k n = s.readAt r k n := by
  rw [readAt, createKey, openKey_modifyKey]
  split
  · rw [readAt]
    cases s.openKey r k <;> rfl
  · rfl

theorem readAt_deleteValue (root r : HKey) (subKey k name n : WString) (written : UInt64) :
    (s.deleteValue root subKey name written).readAt r k n =
      if (r = root ∧ pathKey env k = pathKey env subKey) ∧ upper env (cstr n) = upper env (cstr name)
      then none else s.readAt r k n := by
  rw [readAt, deleteValue, openKey_modifyKey]
  by_cases hk : r = root ∧ pathKey env k = pathKey env subKey
  · rw [if_pos hk, readAt]
    cases s.openKey r k with
    | none => rw [Option.map_none, Option.bind_none, ite_self]
    | some key =>
      rw [Option.map_some, Option.bind_some, Option.bind_some, RegKey.readValue_deleteValue]
      by_cases hn : upper env (cstr n) = upper env (cstr name)
      · rw [if_pos hn, if_pos ⟨hk, hn⟩]
      · rw [if_neg hn, if_neg fun h => hn h.2]
  · rw [if_neg hk, if_neg fun h => hk h.1, readAt]

end System

end Named

end WinSys.Autoruns
