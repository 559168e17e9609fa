import WinSys.Infra.Wide

/-!
# Registry events and key names

`RegistryEvent` as the table gets it from the parser, the tests on an event's status, and the
names shown for keys (`RegistryIoParser`, `HandleNames::RegistryName`).

What the code takes from the system is in `Env`: the upper-casing of a character and the current
user's root key.
-/

namespace WinSys.Registry

open Infra

/-- Microsoft-Windows-Kernel-Registry's event IDs, one per operation. -/
inductive RegistryOperation
  | none | createKey | openKey | deleteKey | queryKey | setValue | deleteValue | queryValue
  | enumerateKey | enumerateValue | queryMultipleValues | setKeyInformation | flushKey | closeKey
  | querySecurity | setSecurity
deriving DecidableEq, Repr

/-- Why a key object couldn't be named. -/
inductive RegistryUnnamed
  | none | closed | kernelHandle | «protected»
deriving DecidableEq, Repr

/--
An event's fields, as far as the counting needs them.

`serial` is a history variable: it tells the events of a run apart, and no function reads it.
-/
structure RegistryEvent where
  operation : RegistryOperation := .none
  keyObject : UInt64 := 0
  baseObject : UInt64 := 0
  status : UInt32 := 0
  disposition : UInt32 := 0
  stamp : ℤ := 0
  name : WString := []
  valueName : WString := []
  serial : ℕ := 0
deriving DecidableEq, Repr

/-- What the code takes from the system. -/
structure Env where
  /-- `RtlUpcaseUnicodeChar`. -/
  upcase : WChar → WChar
  /-- `\REGISTRY\USER\<SID>` of the current user; empty when the token can't be read. -/
  currentUser : WString

/-- An environment to run examples in: ASCII upper case and a user's key. -/
def Env.ascii : Env where
  upcase c := if 0x61 ≤ c ∧ c ≤ 0x7A then c - 0x20 else c
  currentUser := wide "\\REGISTRY\\USER\\S-1-5-21-1"

/-! ## operations and statuses -/

/-- An open or a create, which give a key object its name. -/
def RegistryEvent.isOpen (e : RegistryEvent) : Bool :=
  e.operation = .openKey || e.operation = .createKey

/-- The operations `OnEvent` returns on at once. -/
def RegistryOperation.isIgnored (op : RegistryOperation) : Bool :=
  op = .none || op = .closeKey || op = .flushKey

/-- None of these is an open. -/
theorem RegistryEvent.isOpen_of_ignored {e : RegistryEvent} (h : e.operation.isIgnored = true) :
    e.isOpen = false := by
  cases hop : e.operation <;> simp [RegistryOperation.isIgnored, hop] at h
  all_goals simp [RegistryEvent.isOpen, hop]

def statusReparse : UInt32 := 0x104

def statusBufferTooSmall : UInt32 := 0xC0000023

def regCreatedNewKey : UInt32 := 1

def isRetried (status : UInt32) : Bool := status = statusReparse

def isFailure (status : UInt32) : Bool :=
  status &&& 0xC0000000 = 0xC0000000 && status ≠ statusBufferTooSmall

/-- A successful open or create: neither failed nor left to the kernel's retry. -/
def RegistryEvent.opens (e : RegistryEvent) : Bool :=
  e.isOpen && !isRetried e.status && !isFailure e.status

/-! ## names -/

/-- One of `RegistryName`'s replacements: the whole prefix, or up to a backslash. -/
def replacePrefix (pre with_ name : WString) : Option WString :=
  if pre = [] || !startsWithFold name pre then none
  else if name.length > pre.length && name[pre.length]? ≠ some backslash then none
  else some (with_ ++ name.drop pre.length)

/-- `\REGISTRY\MACHINE\...` and `\REGISTRY\USER\<SID>\...` as the registry editor shows them. -/
def Env.registryName (env : Env) (name : WString) : WString :=
  ((replacePrefix (env.currentUser ++ wide "_Classes") (wide "HKCU\\Software\\Classes") name)
    <|> replacePrefix env.currentUser (wide "HKCU") name
    <|> replacePrefix (wide "\\REGISTRY\\MACHINE") (wide "HKLM") name
    <|> replacePrefix (wide "\\REGISTRY\\USER") (wide "HKU") name).getD name

def Env.upper (env : Env) (text : WString) : WString := text.map env.upcase

/-- A row's key for an unnamed key object. -/
def objectText (object : UInt64) : WString := wide "#" ++ hex object

def unnamedName (object : UInt64) : RegistryUnnamed → WString
  | .closed => wide "(key " ++ (wide "0x" ++ hex object) ++ wide ", closed)"
  | .kernelHandle => wide "(kernel key " ++ (wide "0x" ++ hex object) ++ wide ")"
  | .«protected» => wide "(key " ++ (wide "0x" ++ hex object) ++ wide " of a protected process)"
  | .none => wide "(key " ++ (wide "0x" ++ hex object) ++ wide ")"

theorem replacePrefix_ne_nil {pre with_ name : WString} (hw : with_ ≠ []) {r : WString}
    (h : replacePrefix pre with_ name = some r) : r ≠ [] := by
  unfold replacePrefix at h
  split at h
  · simp at h
  · split at h
    · simp at h
    · rw [← Option.some.inj h]
      simp [hw]

/-- A name stays a name: only the empty one is shown empty. -/
theorem Env.registryName_ne_nil (env : Env) {name : WString} (h : name ≠ []) :
    env.registryName name ≠ [] := by
  unfold Env.registryName
  cases h1 : replacePrefix (env.currentUser ++ wide "_Classes")
      (wide "HKCU\\Software\\Classes") name with
  | some r => exact replacePrefix_ne_nil (by decide) h1
  | none =>
    cases h2 : replacePrefix env.currentUser (wide "HKCU") name with
    | some r => exact replacePrefix_ne_nil (by decide) h2
    | none =>
      cases h3 : replacePrefix (wide "\\REGISTRY\\MACHINE") (wide "HKLM") name with
      | some r => exact replacePrefix_ne_nil (by decide) h3
      | none =>
        cases h4 : replacePrefix (wide "\\REGISTRY\\USER") (wide "HKU") name with
        | some r => exact replacePrefix_ne_nil (by decide) h4
        | none => exact h

end WinSys.Registry
