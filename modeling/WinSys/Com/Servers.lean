import Mathlib.Data.List.DropRight
import WinSys.Com.Paths

/-!
# Servers of registered COM classes

What `ReadClass` finds out about a class's server from the values it is registered by: the file a
command line runs, and for an interpreter what that runs.

* `serverPath`, `rundllTarget`: the parts of a command line
* `isSystemDll`: whether `rundll32` runs a DLL of Windows' own
* `readServer`
-/

namespace WinSys.Com

open Infra Texts

/-- What the system answers. -/
structure Env where
  /-- `ExpandEnvironmentStrings`; none: it fails. -/
  expandEnvironment : WString → Option WString
  windowsDirectory : Option WString
  systemDirectory : Option WString
  systemWow64Directory : Option WString
  /-- `GetFileAttributes` for a path. -/
  isThere : WString → Bool

/-! ## texts -/

def space : WChar := 0x20

def comma : WChar := 0x2C

variable (env : Env)

/-- The text itself, if the expanded one doesn't fit in `2 * MAX_PATH`. -/
def expandStrings (text : WString) : WString :=
  match env.expandEnvironment (cstr text) with
  | none => text
  | some expanded => if expanded.length + 1 ≤ 520 then expanded else text

/-- A variable by another one. -/
def replaceVariable (text name other : WString) : WString :=
  match find name (lower text) with
  | none => text
  | some at_ => text.take at_ ++ other ++ text.drop (at_ + name.length)

/-- Environment variables as the view's processes have them. -/
def expand (text : WString) (wow64 : Bool) : WString :=
  if 0x25 ∉ text then text
  else if wow64 then
    expandStrings env (replaceVariable
      (replaceVariable text (wide "%programfiles%") (wide "%ProgramFiles(x86)%"))
      (wide "%commonprogramfiles%") (wide "%CommonProgramFiles(x86)%"))
  else expandStrings env text

/-! ## paths -/

/-- The file is under a folder by its text. -/
def Under (folder file : WString) : Prop :=
  file.length > folder.length ∧ startsWithFold file folder ∧ file[folder.length]? = some backslash

instance (folder file : WString) : Decidable (Under folder file) :=
  inferInstanceAs (Decidable (_ ∧ _))

/-- The file system's redirection of a 32-bit class's System32. -/
def viewPath (path : WString) (wow64 : Bool) : WString :=
  if !wow64 then path
  else
    match env.systemDirectory with
    | none => path
    | some system =>
      if path.length < system.length ∨ !startsWithFold path system ∨
          (path.length > system.length ∧ path[system.length]? ≠ some backslash) then path
      else
        match env.systemWow64Directory with
        | none => path
        | some wow => wow ++ path.drop system.length

/-- The path in front of a command line. -/
def leadingPath (value : WString) : WString :=
  if value.head? = some quote then (value.drop 1).takeWhile (· ≠ quote)
  else
    match find (wide ".exe") (lower value) with
    | some exe => value.take (exe + 4)
    | none => value.takeWhile (· ≠ space)

/-- `ComServers::ServerPath` -/
def serverPath (value : WString) : WString :=
  let path := leadingPath (value.dropWhile (· = space))
  if 0x25 ∈ path then expandStrings env path else path

/-- What is behind the executable. -/
def behindExe (rest : WString) : WString :=
  if rest.head? = some quote then ((rest.drop 1).dropWhile (· ≠ quote)).drop 1
  else
    match find (wide ".exe") (lower rest) with
    | some exe => rest.drop (exe + 4)
    | none => []

/-- A file in quotes, or up to the comma. -/
def leadingDll (rest : WString) : WString :=
  if rest.head? = some quote then (rest.drop 1).takeWhile (· ≠ quote)
  else rest.takeWhile fun c => c ≠ comma ∧ c ≠ space

/-- The DLL in a command line of `rundll32`. -/
def rundllTarget (commandLine : WString) : WString :=
  leadingDll ((behindExe (commandLine.dropWhile (· = space))).dropWhile (· = space))

/-- A bare name or a file in the Windows folder. -/
def isSystemDll (file : WString) : Bool :=
  if file = [] then false
  else if backslash ∉ file then true
  else
    match env.windowsDirectory with
    | none => false
    | some windows => Under windows file

def interpreters : List WString := [
  wide "rundll32.exe", wide "regsvr32.exe", wide "powershell.exe", wide "pwsh.exe", wide "cmd.exe",
  wide "mshta.exe", wide "wscript.exe", wide "cscript.exe", wide "msiexec.exe", wide "conhost.exe"]

/-- `ComRegistry::InterpreterOf` -/
def interpreterOf (file : WString) : WString :=
  let name := lower (file.rtakeWhile fun c => c ≠ backslash ∧ c ≠ slash)
  if name ∈ interpreters then name else []

/-! ## the server -/

inductive ComServerType where
  | other
  | inProc
  | handler
  | localServer
  | surrogate
  | service
deriving DecidableEq, Repr

structure AppIdInfo where
  serviceName : WString := []
  surrogate : Bool := false

/-- The values a class's server is registered by. -/
structure ClassValues where
  inproc : WString := []
  localServer : WString := []
  handler : WString := []
  app : Option AppIdInfo := none

structure ComClassRegistration where
  type : ComServerType := .other
  server : WString := []
  serverFile : WString := []
  serverMissing : Bool := false
  interpreter : WString := []
  interpreterRunsSystemDll : Bool := false
deriving DecidableEq, Repr

variable (wow64 : Bool)

/-- A DLL's file, missing only if its path is a full one. -/
def setServerFile (c : ComClassRegistration) (file : WString) : ComClassRegistration :=
  let file :=
    if file.length ≥ 2 ∧ file.head? = some quote then (file.drop 1).takeWhile (· ≠ quote) else file
  let serverFile := expand env file wow64
  let full := serverFile.length > 2 ∧
    (serverFile[1]? = some 0x3A ∨ wide "\\\\" <+: serverFile)
  { c with serverFile, serverMissing := full ∧ !env.isThere (cstr (viewPath env serverFile wow64)) }

/-- What `ReadClass` says of the server. -/
def readServer (v : ClassValues) : ComClassRegistration :=
  if v.localServer ≠ [] then
    let serverFile := serverPath env (expand env v.localServer wow64)
    let full := serverFile.length > 2 ∧ serverFile[1]? = some 0x3A
    let interpreter := interpreterOf serverFile
    {
      type := .localServer
      server := v.localServer
      serverFile
      serverMissing := full ∧ !env.isThere (cstr serverFile)
      interpreter
      interpreterRunsSystemDll :=
        if interpreter = wide "rundll32.exe" then
          isSystemDll env (rundllTarget (expand env v.localServer wow64))
        else false }
  else if v.app.any fun app => app.serviceName ≠ [] then
    { type := .service, server := (v.app.map AppIdInfo.serviceName).getD [] }
  else if v.inproc ≠ [] then
    setServerFile env wow64 {
      type := if v.app.any AppIdInfo.surrogate then .surrogate else .inProc
      server := v.inproc } v.inproc
  else if v.handler ≠ [] then
    setServerFile env wow64 { type := .handler, server := v.handler } v.handler
  else {}

end WinSys.Com
