import WinSys.Infra.Bytes
import WinSys.Infra.Dict
import WinSys.Infra.Text
import WinSys.Infra.Wide
import Mathlib.Data.List.DropRight
import Mathlib.Data.Rat.Init

/-!
# The helper's protocol

`WslProtocol` reads what a shell loop in a distribution prints: a frame for every request, with the
lines of files under `/proc` between marks.
-/

namespace WinSys.Wsl

open Infra

/-- A constant of ASCII characters. -/
def ascii (s : String) : Bytes := s.toList.map fun c => c.toNat.toUInt8

/-- The text conversions of the system: UTF-8 to UTF-16, and a number's text to a double. -/
structure Conversions where
  fromUtf8 : Bytes → WString
  strtod : Bytes → ℚ

/-! ## lines and fields -/

def newline : UInt8 := 10

def carriageReturn : UInt8 := 13

def space : UInt8 := 32

def tab : UInt8 := 9

/-- A line without a carriage return at its end. -/
def withoutReturn (line : Bytes) : Bytes :=
  if line.getLast? = some carriageReturn then line.dropLast else line

/-- What `NextLine` gives, one after the other. -/
def textLines (text : Bytes) : List Bytes := (lines newline text).map withoutReturn

def isDigit (ch : UInt8) : Bool := 48 ≤ ch && ch ≤ 57

/-- The digits at the start; overflow wraps. -/
def toNumber (text : Bytes) : UInt64 :=
  (text.takeWhile isDigit).foldl (fun value ch => value * 10 + (ch - 48).toUInt64) 0

def isBlank (ch : UInt8) : Bool := ch = space || ch = tab

/-- The space separated fields. -/
def split (text : Bytes) : List Bytes := (text.splitOnP isBlank).filter (· ≠ [])

/-- The process ID in `/proc/<pid>/...`. -/
def pidOfPath (path : Bytes) : UInt32 :=
  if ascii "/proc/" <+: path then (toNumber (path.drop 6)).toUInt32 else 0

/-! ## what is read -/

structure WslProcess where
  pid : UInt32
  parentPid : UInt32
  name : WString
  state : WChar
  /-- The real user ID; the last one if not read. -/
  uid : UInt32 := 0xFFFFFFFF
  user : WString := []
  userTicks : UInt64
  systemTicks : UInt64
  threads : UInt32
  startTicks : UInt64
  virtualBytes : UInt64
  residentBytes : UInt64
  commandLine : WString := []
deriving DecidableEq, Repr

structure WslThread where
  tid : UInt32
  pid : UInt32
  name : WString
  state : WChar
  userTicks : UInt64
  systemTicks : UInt64
  startTicks : UInt64
deriving DecidableEq, Repr

/-- What the helper says once. -/
structure WslSystem where
  clockTicks : UInt32 := 100
  processors : UInt32 := 1
  pageSize : UInt32 := 4096
  helperPid : UInt32 := 0
  users : Finmap fun _ : UInt32 => WString := ∅

structure WslFrame where
  uptimeSeconds : ℚ := 0
  cpuTotalTicks : UInt64 := 0
  cpuIdleTicks : UInt64 := 0
  memTotal : UInt64 := 0
  memAvailable : UInt64 := 0
  processes : List WslProcess := []
  hasThreads : Bool := false
  threads : List WslThread := []
deriving DecidableEq, Repr

section Parsing

variable (conv : Conversions)

/-! ## a stat line -/

/-- A `char` is signed. -/
def charToWide (ch : UInt8) : WChar := if ch < 0x80 then ch.toUInt16 else ch.toUInt16 + 0xFF00

/-- `pid (comm) state ppid ...`; the name ends at the last `)`. -/
def parseStat (line : Bytes) (pageSize : UInt32) : Option WslProcess :=
  match find (ascii " (") line, rfind 41 line with
  | some opening, some closing =>
    if closing < opening then none
    else
      let pid := (toNumber (line.take opening)).toUInt32
      if pid = 0 then none
      else
        -- the fields after the name: utime 14, stime 15, threads 20, starttime 22, vsize 23, rss 24
        let f := split (line.drop (closing + 1))
        if f.length < 22 then none
        else
          let field := fun i => f.getD i []
          some {
            pid := pid
            name := conv.fromUtf8 ((line.drop (opening + 2)).take (closing - opening - 2))
            state := charToWide ((field 0).getD 0 0)
            parentPid := (toNumber (field 1)).toUInt32
            userTicks := toNumber (field 11)
            systemTicks := toNumber (field 12)
            threads := (toNumber (field 17)).toUInt32
            startTicks := toNumber (field 19)
            virtualBytes := toNumber (field 20)
            residentBytes := toNumber (field 21) * pageSize.toUInt64 }
  | _, _ => none

/-! ## a frame -/

inductive Section
  | none | header | stat | uid | cmdline | thread
deriving DecidableEq, Repr

/-- The marks that end a section, with the one that they begin. -/
def sectionOf (line : Bytes) : Option Section :=
  if line = ascii "#S" then some .stat
  else if line = ascii "#U" then some .uid
  else if line = ascii "#C" then some .cmdline
  else if line = ascii "#T" then some .thread
  else if line = ascii "#E" then some .none
  else none

/-- A frame as far as it is read. -/
structure Reader where
  frame : WslFrame := {}
  uids : Finmap fun _ : UInt32 => UInt32 := ∅
  commandLines : Finmap fun _ : UInt32 => WString := ∅
  current : Section := .none
  ended : Bool := false
  header : Bool := false
  cmdlinePid : UInt32 := 0
  threadPid : UInt32 := 0
  cmdline : Bytes := []

/-- Without the spaces and line ends at its end. -/
def trimEnd (text : Bytes) : Bytes :=
  text.rdropWhile fun ch => ch = space || ch = newline

/-- `==> file <==` -/
def isFileHeader (line : Bytes) : Bool := ascii "==> /proc/" <+: line && ascii " <==" <:+ line

/-- The fields of `/proc/stat`'s first line: user, nice, system, idle, iowait, irq, softirq, steal. -/
def WslFrame.addCpu (frame : WslFrame) (f : List Bytes) : WslFrame :=
  let ticks := ((f.drop 1).take 8).map toNumber
  { frame with
    cpuTotalTicks := ticks.foldl (· + ·) frame.cpuTotalTicks
    cpuIdleTicks := ((ticks.drop 3).take 2).foldl (· + ·) frame.cpuIdleTicks }

/-- A thread's stat line has its ID where a process's has its own. -/
def WslProcess.thread (t : WslProcess) (pid : UInt32) : WslThread where
  tid := t.pid
  pid := pid
  name := t.name
  state := t.state
  userTicks := t.userTicks
  systemTicks := t.systemTicks
  startTicks := t.startTicks

namespace Reader

variable (r : Reader)

def flushCmdline : Reader :=
  { r with
    commandLines :=
      if r.cmdlinePid = 0 then r.commandLines
      else r.commandLines.insert r.cmdlinePid (conv.fromUtf8 (trimEnd r.cmdline))
    cmdlinePid := 0
    cmdline := [] }

def readHeader (line : Bytes) : Reader :=
  let f := split line
  if ascii "cpu " <+: line then { r with frame := r.frame.addCpu f }
  else if ascii "MemTotal:" <+: line ∧ 2 ≤ f.length then
    { r with frame := { r.frame with memTotal := toNumber (f.getD 1 []) * 1024 } }
  else if ascii "MemAvailable:" <+: line ∧ 2 ≤ f.length then
    { r with frame := { r.frame with memAvailable := toNumber (f.getD 1 []) * 1024 } }
  else if f ≠ [] ∧ r.frame.uptimeSeconds = 0 then
    { r with frame := { r.frame with uptimeSeconds := conv.strtod (f.getD 0 []) } }
  else r

def readStat (pageSize : UInt32) (line : Bytes) : Reader :=
  match parseStat conv line pageSize with
  | none => r
  | some p => { r with frame := { r.frame with processes := r.frame.processes ++ [p] } }

/-- `/proc/123/status:Uid:\t1000\t1000\t1000\t1000` -/
def readUid (line : Bytes) : Reader :=
  match find (ascii ":Uid:") line with
  | none => r
  | some colon =>
    match split (line.drop (colon + 5)) with
    | [] => r
    | uid :: _ => { r with uids := r.uids.insert (pidOfPath line) (toNumber uid).toUInt32 }

/-- A file header starts a process's; the text follows, which may be empty. -/
def readCmdline (line : Bytes) : Reader :=
  if isFileHeader line then
    { r.flushCmdline conv with cmdlinePid := pidOfPath (line.drop 4) }
  else if r.cmdlinePid = 0 then r
  else { r with cmdline := (if r.cmdline = [] then [] else r.cmdline ++ [space]) ++ line }

/-- A file header, then the thread's stat line. -/
def readThread (pageSize : UInt32) (line : Bytes) : Reader :=
  if isFileHeader line then { r with threadPid := pidOfPath (line.drop 4) }
  else if r.threadPid = 0 then r
  else
    { r with
      frame := match parseStat conv line pageSize with
        | none => r.frame
        | some t => { r.frame with threads := r.frame.threads ++ [t.thread r.threadPid] }
      threadPid := 0 }

/-- A mark ends the section before it. -/
def enter (line : Bytes) (next : Section) : Reader :=
  let r := if r.current = .cmdline then r.flushCmdline conv else r
  { r with
    current := next
    frame := if next = .thread then { r.frame with hasThreads := true } else r.frame
    ended := line = ascii "#E" }

def readLine (pageSize : UInt32) (line : Bytes) : Reader :=
  if r.ended then r
  else if line = ascii "#F" then { r with current := .header, header := true }
  else
    match sectionOf line with
    | some next => r.enter conv line next
    | none =>
      match r.current with
      | .none => r
      | .header => r.readHeader conv line
      | .stat => r.readStat conv pageSize line
      | .uid => r.readUid line
      | .cmdline => r.readCmdline conv line
      | .thread => r.readThread conv pageSize line

/-- The loop over the lines; nothing after the end mark is looked at. -/
def readLines (pageSize : UInt32) (ls : List Bytes) : Reader :=
  ls.foldl (fun r line => r.readLine conv pageSize line) r

end Reader

end Parsing

/-! ## who is left out -/

/-- A constant name. -/
def relayPrefix : WString := wide "Relay("

def sessionLeader : WString := wide "SessionLeader"

def findProcess (ps : List WslProcess) (pid : UInt32) : Option WslProcess :=
  ps.find? fun p => p.pid = pid

/-- The helper's session: its relay, and the relay's leader. -/
def sessionPids (ps : List WslProcess) (helperPid : UInt32) : List UInt32 :=
  match findProcess ps helperPid with
  | none => []
  | some helper =>
    match findProcess ps helper.parentPid with
    | none => []
    | some relay =>
      if relayPrefix <+: relay.name then
        match findProcess ps relay.parentPid with
        | none => [relay.pid]
        | some leader =>
          if leader.name = sessionLeader then [relay.pid, leader.pid] else [relay.pid]
      else []

/-- The helper, the processes it runs and its session. -/
def hiddenPids (ps : List WslProcess) (helperPid : UInt32) : List UInt32 :=
  if helperPid = 0 then []
  else helperPid :: (ps.filter fun p => p.parentPid = helperPid).map WslProcess.pid
    ++ sessionPids ps helperPid

/-- The user, and the command line, of a process by its ID. -/
def WslProcess.join (system : WslSystem) (uids : Finmap fun _ : UInt32 => UInt32)
    (commandLines : Finmap fun _ : UInt32 => WString) (p : WslProcess) : WslProcess :=
  let p := match uids.lookup p.pid with
    | none => p
    | some uid => { p with uid := uid, user := (system.users.lookup uid).getD (decimal uid.toNat) }
  match commandLines.lookup p.pid with
  | none => p
  | some commandLine => { p with commandLine := commandLine }

/-- What is made of the lines read. -/
def Reader.finish (system : WslSystem) (r : Reader) : Option WslFrame :=
  if ¬ r.ended ∨ ¬ r.header then none
  else
    let hidden := hiddenPids r.frame.processes system.helperPid
    some { r.frame with
      processes := (r.frame.processes.filter fun p => p.pid ∉ hidden).map
        (WslProcess.join system r.uids r.commandLines)
      threads := r.frame.threads.filter fun t => t.pid ∉ hidden }

def parseFrame (conv : Conversions) (text : Bytes) (system : WslSystem) : Option WslFrame :=
  (({} : Reader).readLines conv system.pageSize (textLines text)).finish system

/-! ## the stream -/

/-- The text to the end of the first frame, and the text after it. -/
def cutFrame : Bytes → Option (Bytes × Bytes)
  | [] => none
  | ch :: rest =>
    if ascii "\n#E\n" <+: ch :: rest then some ((ch :: rest).take 4, (ch :: rest).drop 4)
    else (cutFrame rest).map fun cut => (ch :: cut.1, cut.2)

end WinSys.Wsl
