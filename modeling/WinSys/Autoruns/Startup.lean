import WinSys.Autoruns.Registry

/-!
# Run keys and startup folders

What `Enum` lists of the Run keys and the two startup folders, and what `SetEnabled` and `Delete`
do to such an entry. The other locations read none of this and are not listed here.

* `AutorunEntry`, `RunKey`, `StartupFolder`
* `enum`
* `Calls`: what the system answers during a call
* `setEnabled`, `delete`
-/

namespace WinSys.Autoruns

open Infra Texts

inductive AutorunStore
  | registryValue | startupFile
deriving DecidableEq, Repr

structure AutorunEntry where
  store : AutorunStore := .registryValue
  location : WString
  name : WString
  command : WString := []
  imagePath : WString := []
  imageFound : Bool := false
  details : WString := []
  /-- None: always on. -/
  enabled : Option Bool := none
  deletable : Bool := false
  lastModified : Int64
  root : HKey
  subKey : WString := []
  /-- For the StartupApproved key too. -/
  valueName : WString
  wow64 : Bool := false
deriving DecidableEq, Repr

def approvedKey : WString :=
  wide "Software\\Microsoft\\Windows\\CurrentVersion\\Explorer\\StartupApproved\\"

/-- A row of `AddRunKeys`'s table. -/
structure RunKey where
  root : HKey
  subKey : WString
  /-- The StartupApproved key, for those Task Manager can disable. -/
  approved : Option WString
  wow64 : Bool
deriving DecidableEq, Repr

def runKeys : List RunKey :=
  [⟨.localMachine, wide "Software\\Microsoft\\Windows\\CurrentVersion\\Run",
      some (wide "Run"), false⟩,
    ⟨.localMachine, wide "Software\\WOW6432Node\\Microsoft\\Windows\\CurrentVersion\\Run",
      some (wide "Run32"), true⟩,
    ⟨.currentUser, wide "Software\\Microsoft\\Windows\\CurrentVersion\\Run",
      some (wide "Run"), false⟩,
    ⟨.localMachine, wide "Software\\Microsoft\\Windows\\CurrentVersion\\RunOnce", none, false⟩,
    ⟨.localMachine, wide "Software\\WOW6432Node\\Microsoft\\Windows\\CurrentVersion\\RunOnce",
      none, true⟩,
    ⟨.currentUser, wide "Software\\Microsoft\\Windows\\CurrentVersion\\RunOnce", none, false⟩,
    ⟨.localMachine, wide "Software\\Microsoft\\Windows\\CurrentVersion\\Policies\\Explorer\\Run",
      none, false⟩,
    ⟨.currentUser, wide "Software\\Microsoft\\Windows\\CurrentVersion\\Policies\\Explorer\\Run",
      none, false⟩]

/-- A row of `AddStartupFolders`'s table. -/
structure StartupFolder where
  folder : WString
  /-- Whose `StartupApproved\StartupFolder`. -/
  root : HKey
deriving DecidableEq, Repr

def userStartup : StartupFolder :=
  ⟨wide "%APPDATA%\\Microsoft\\Windows\\Start Menu\\Programs\\Startup", .currentUser⟩

def commonStartup : StartupFolder :=
  ⟨wide "%ProgramData%\\Microsoft\\Windows\\Start Menu\\Programs\\StartUp", .localMachine⟩

def startupFolders : List StartupFolder := [userStartup, commonStartup]

/-! ## the list -/

variable {env : Env}

section Enum

variable (s : System env)

/-- Missing or an even first byte is enabled. -/
def isApproved (root : HKey) (approved name : WString) : Bool :=
  match s.openKey root (approvedKey ++ approved) with
  | none => true
  | some key =>
    match key.readValue name with
    | none => true
    | some value => value.type != REG_BINARY || value.data.head?.all fun b => b &&& 1 == 0

def registryEntry (root : HKey) (subKey : WString) (key : RegKey env) (name command : WString) :
    AutorunEntry where
  store := .registryValue
  root := root
  subKey := subKey
  valueName := name
  location := rootName root ++ backslash :: subKey
  name := if name = [] then wide "(Default)" else name
  command := command
  imagePath := resolveImage env s.isFile command
  lastModified := key.lastWrite.toInt64

def runEntry (k : RunKey) (key : RegKey env) (v : RegistryValue) : Option AutorunEntry :=
  let command := v.string
  if command = [] then none
  else some { registryEntry s k.root k.subKey key v.name command with
    wow64 := k.wow64
    deletable := true
    enabled := k.approved.map fun approved => isApproved s k.root approved v.name }

def runEntries (k : RunKey) : List AutorunEntry :=
  match s.openKey k.root k.subKey with
  | none => []
  | some key => key.values.toList.filterMap (runEntry s k key)

def addRunKeys : List AutorunEntry := runKeys.flatMap (runEntries s)

def startupEntry (f : StartupFolder) (fd : File) : Option AutorunEntry :=
  let folder := expand env f.folder
  if fd.isDirectory then none
  else if sameFold fd.name (wide "desktop.ini") then none
  else
    let e : AutorunEntry :=
      { store := .startupFile
        location := folder
        name := fd.name
        root := f.root
        valueName := fd.name
        deletable := true
        lastModified := fd.lastWrite.toInt64
        enabled := some (isApproved s f.root (wide "StartupFolder") fd.name) }
    let path := joined folder fd.name
    if endsWith fd.name (wide ".lnk") then
      match fd.shortcut with
      | none => some e
      | some (target, args) =>
        some { e with
          imagePath := expand env target
          command := if args = [] then target else quote :: target ++ quote :: 0x20 :: args
          details := args }
    else some { e with command := path, imagePath := path }

/-- The files of a directory, as `FindFirstFileW` and `FindNextFileW` go through them. -/
def findFiles (directory : WString) : List File :=
  s.files.toList.filter fun fd => pathKey env fd.directory = pathKey env directory

def startupEntries (f : StartupFolder) : List AutorunEntry :=
  (findFiles s (expand env f.folder)).filterMap (startupEntry s f)

def addStartupFolders : List AutorunEntry := startupFolders.flatMap (startupEntries s)

/-- The last loop of `Enum`. -/
def withImageFound (e : AutorunEntry) : AutorunEntry :=
  { e with imageFound := e.imagePath != [] && s.isFile e.imagePath }

def enum : List AutorunEntry := (addRunKeys s ++ addStartupFolders s).map (withImageFound s)

end Enum

/-! ## enabling and deleting -/

def ERROR_SUCCESS : UInt32 := 0
def ERROR_FILE_NOT_FOUND : UInt32 := 2
def ERROR_ACCESS_DENIED : UInt32 := 5
def ERROR_NOT_SUPPORTED : UInt32 := 50

/-- What the system answers: the error of each call, and the time. -/
structure Calls where
  createKey : UInt32 := ERROR_SUCCESS
  setValue : UInt32 := ERROR_SUCCESS
  openKey : UInt32 := ERROR_SUCCESS
  deleteValue : UInt32 := ERROR_SUCCESS
  deleteFile : UInt32 := ERROR_SUCCESS
  /-- Of the StartupApproved key, and its value. -/
  openApproved : UInt32 := ERROR_SUCCESS
  deleteApproved : UInt32 := ERROR_SUCCESS
  /-- `GetSystemTimeAsFileTime`. -/
  now : UInt64 := 0
  /-- The last-write time of the keys that are written. -/
  written : UInt64 := 0

def approvedName (e : AutorunEntry) : WString :=
  match e.store with
  | .startupFile => wide "StartupFolder"
  | .registryValue => if e.wow64 then wide "Run32" else wide "Run"

/-- 2 enabled; 3 disabled, with the time it was disabled. -/
def approvedData (enable : Bool) (now : UInt64) : Bytes :=
  if enable then [2, 0, 0, 0, 0, 0, 0, 0, 0, 0, 0, 0]
  else [3, 0, 0, 0] ++ leBytes 8 now.toNat

section Calls

variable (c : Calls) (s : System env) (e : AutorunEntry)

/-- The error, with which the call has succeeded when it is `ERROR_SUCCESS`, and the state after. -/
def setEnabled (enable : Bool) : UInt32 × System env :=
  if e.enabled = none then (ERROR_NOT_SUPPORTED, s)
  else if c.createKey ≠ ERROR_SUCCESS then (c.createKey, s)
  else
    let s := s.createKey e.root (approvedKey ++ approvedName e) c.written
    if c.setValue ≠ ERROR_SUCCESS then (c.setValue, s)
    else (ERROR_SUCCESS, s.setValue e.root (approvedKey ++ approvedName e) e.valueName REG_BINARY
      (approvedData enable c.now) c.written)

/-- Its Startup apps state goes with it (best effort). -/
def forgetApproved : System env :=
  if e.enabled ≠ none ∧ c.openApproved = ERROR_SUCCESS ∧ c.deleteApproved = ERROR_SUCCESS then
    s.deleteValue e.root (approvedKey ++ approvedName e) e.valueName c.written
  else s

/-- The first half of `Delete`: the value or the file. -/
def deleteStored : UInt32 × System env :=
  match e.store with
  | .registryValue =>
    match s.openKey e.root e.subKey with
    | none => (ERROR_ACCESS_DENIED, s)
    | some key =>
      if c.openKey ≠ ERROR_SUCCESS then (ERROR_ACCESS_DENIED, s)
      else if c.deleteValue ≠ ERROR_SUCCESS then (c.deleteValue, s)
      else if key.readValue e.valueName = none then (ERROR_FILE_NOT_FOUND, s)
      else (ERROR_SUCCESS, s.deleteValue e.root e.subKey e.valueName c.written)
  | .startupFile =>
    let path := joined e.location e.name
    match s.file path with
    | none => (ERROR_FILE_NOT_FOUND, s)
    | some fd =>
      if fd.isDirectory then (ERROR_ACCESS_DENIED, s)
      else if c.deleteFile ≠ ERROR_SUCCESS then (c.deleteFile, s)
      else (ERROR_SUCCESS, s.deleteFile path)

def delete : UInt32 × System env :=
  if !e.deletable then (ERROR_NOT_SUPPORTED, s)
  else
    let (error, s) := deleteStored c s e
    if error = ERROR_SUCCESS then (error, forgetApproved c s e) else (error, s)

end Calls

end WinSys.Autoruns
