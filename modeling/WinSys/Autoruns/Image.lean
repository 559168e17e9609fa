import WinSys.Infra.Blanks
import WinSys.Infra.Text
import WinSys.Texts

/-!
# The file a command line runs

* `Env`: what the system answers about names and places
* `findFile`, `firstPath`: a path as typed, and the first token of a command line
* `resolveImage`
-/

namespace WinSys.Autoruns

open Infra Texts

/-- What does not change while autoruns are listed and edited. -/
structure Env where
  /-- The character names are compared as, in the registry and in the file system. -/
  upcase : WChar → WChar
  /-- `ExpandEnvironmentStringsW`; none: it fails. -/
  expandEnvironment : WString → Option WString
  systemRoot : WString
  /-- `SearchPathW` among the files there are, for a name and an extension. -/
  searchPath : (WString → Bool) → WString → Option WString → Option WString

/-! ## texts -/

/-- `_wcsicmp(text.c_str(), other) == 0`. -/
def sameFold (text other : WString) : Bool := (cstr text).map foldCase == (cstr other).map foldCase

def endsWith (text suffix : WString) : Bool :=
  decide (suffix.length ≤ text.length) && sameFold (text.drop (text.length - suffix.length)) suffix

/-- `" \t\r\n"`. -/
def blank (c : WChar) : Bool := c == 0x20 || c == 0x09 || c == 0x0D || c == 0x0A

def trim (text : WString) : WString := trimmed blank text

def fileName (path : WString) : WString := path.rtakeWhile fun c => c ≠ backslash ∧ c ≠ 0x2F

section Image

variable (env : Env)

def expand (text : WString) : WString :=
  if 0x25 ∈ text then
    match env.expandEnvironment (cstr text) with
    | none => text
    | some result => cstr result
  else text

variable (isFile : WString → Bool)

/-! ## finding the file -/

def findFile (path : WString) (extension : Option WString) : WString :=
  if path = [] then path
  else
    let path :=
      if startsWithFold path (wide "\\SystemRoot\\") then env.systemRoot ++ path.drop 11
      else if wide "\\??\\" <+: path then path.drop 4
      else path
    if isFile path then path
    else if extension.any fun ext => isFile (path ++ ext) then path ++ extension.getD []
    else
      let rooted := path.head? = some backslash ∨ path[1]? = some 0x3A
      let full := env.systemRoot ++ backslash :: path
      if ¬ rooted ∧ backslash ∈ path ∧ isFile full then full
      else if backslash ∉ path then
        (env.searchPath isFile (cstr path) extension).getD path
      else path

/-- Whether a run of words names a file. -/
def namesFile (candidate : WString) (extension : Option WString) : Bool :=
  isFile candidate || (extension.any fun ext => isFile (candidate ++ ext)) ||
    (candidate[1]? == some 0x3A && isFile (findFile env isFile candidate extension))

/-- The loop of `FirstPath`, over the ends of the runs of words. -/
def firstRun (text : WString) (extension : Option WString) : List ℕ → WString → ℕ → WString × ℕ
  | [], first, firstEnd => (findFile env isFile first extension, firstEnd)
  | stop :: stops, first, firstEnd =>
    let candidate := text.take stop
    let (first, firstEnd) := if first = [] then (candidate, stop) else (first, firstEnd)
    if namesFile env isFile candidate extension then
      (findFile env isFile candidate extension, stop)
    else firstRun text extension stops first firstEnd

/-- The first token, and where the rest starts. -/
def firstPath (text : WString) (extension : Option WString) : WString × ℕ :=
  match text with
  | [] => ([], 0)
  | c :: tail =>
    if c = quote then
      let stop := tail.idxOf quote
      (findFile env isFile (tail.take stop) extension, min (stop + 2) text.length)
    else
      firstRun env isFile text extension (text.idxsOf 0x20 ++ [text.length]) [] text.length

/-! ## the image -/

/-- The switches before `rundll32`'s DLL; each takes a character at least. -/
def dropSwitches : ℕ → WString → WString
  | 0, args => args
  | fuel + 1, args =>
    if args.head? = some 0x2F ∨ args.head? = some 0x2D then
      match find [0x20] args with
      | none => []
      | some space => dropSwitches fuel (trim (args.drop space))
    else args

/-- What `rundll32` runs: its DLL. -/
def rundllTarget (args : WString) : WString :=
  let args := dropSwitches args.length args
  if args = [] then []
  else
    let comma :=
      if args.head? = some quote then
        (findFrom [quote] args 1).bind fun stop => findFrom [0x2C] args stop
      else find [0x2C] args
    (firstPath env isFile (trim (args.take (comma.getD args.length))) (some (wide ".dll"))).1

def resolveImage (command : WString) : WString :=
  -- Userinit's list ends with a comma
  let text := (trim (expand env command)).rdropWhile (· == 0x2C)
  if text = [] then []
  else
    let (image, rest) := firstPath env isFile text (some (wide ".exe"))
    let name := fileName image
    if sameFold name (wide "rundll32.exe") || sameFold name (wide "rundll32") then
      let path := rundllTarget env isFile (trim (text.drop rest))
      if path = [] then image else path
    else image

end Image

end WinSys.Autoruns
