import WinSys.Wsl.Protocol

/-!
# What the helper prints

The Linux side: processes as `/proc` shows them, and the text that `cat`, `grep`, `head` and `tr`
make of their files for a frame.
-/

namespace WinSys.Wsl

open Infra

/-! ## processes -/

/-- A number as the kernel prints it. -/
def isNumeric (ch : UInt8) : Bool := isDigit ch || ch = 45 || ch = 46

abbrev Field := { bs : Bytes // bs ≠ [] ∧ ∀ ch ∈ bs, isNumeric ch = true }

abbrev Fields (n : ℕ) := { fs : List Field // fs.length = n }

def isLetter (ch : UInt8) : Bool := (65 ≤ ch && ch ≤ 90) || (97 ≤ ch && ch ≤ 122)

/-- A stat file's fields after the name. -/
structure Stat where
  state : { ch : UInt8 // isLetter ch = true }
  ppid : UInt32
  /-- From the process group to the major faults. -/
  group : Fields 9
  utime : UInt64
  stime : UInt64
  /-- The children's times, the priority and the nice value. -/
  children : Fields 4
  threads : UInt32
  timer : Field
  starttime : UInt64
  vsize : UInt64
  rss : UInt64
  rest : List Field

structure LinuxThread where
  tid : UInt32
  comm : Bytes
  stat : Stat
  tid_ne : tid ≠ 0

structure LinuxProcess where
  pid : UInt32
  comm : Bytes
  stat : Stat
  uid : UInt32
  /-- The effective, the saved and the file system user ID. -/
  uids : List UInt32
  cmdline : Bytes
  threads : List LinuxThread
  pid_ne : pid ≠ 0
  threads_ne : threads ≠ []

/-- The system as the header shows it. -/
structure Machine where
  uptime : Field
  idle : Field
  cpu : List UInt64
  memTotal : UInt64
  memAvailable : UInt64

/-- What a frame is of; the helper and a program that it runs are two of the processes. -/
structure Listing where
  machine : Machine
  processes : List LinuxProcess
  distinct : (processes.map LinuxProcess.pid).Nodup
  two : 2 ≤ processes.length

/-! ## files -/

def decimalText (n : ℕ) : Bytes := (decimal n).map UInt16.toUInt8

def Stat.fields (s : Stat) : List Bytes :=
  [s.state.val] :: decimalText s.ppid.toNat :: s.group.val.map Subtype.val
    ++ decimalText s.utime.toNat :: decimalText s.stime.toNat :: s.children.val.map Subtype.val
    ++ decimalText s.threads.toNat :: s.timer.val :: decimalText s.starttime.toNat
    :: decimalText s.vsize.toNat :: decimalText s.rss.toNat :: s.rest.map Subtype.val

/-- A stat file without its line end: `pid (comm) state ppid ...`. -/
def statText (pid : UInt32) (comm : Bytes) (s : Stat) : Bytes :=
  decimalText pid.toNat ++ (ascii " (" ++ (comm ++ 41 :: s.fields.flatMap (space :: ·)))

namespace LinuxProcess

variable (p : LinuxProcess)

def statFile : Bytes := statText p.pid p.comm p.stat

def uidLine : Bytes :=
  ascii "/proc/" ++ decimalText p.pid.toNat ++ ascii "/status" ++ ascii ":Uid:"
    ++ (p.uid :: p.uids).flatMap fun uid => tab :: decimalText uid.toNat

def cmdlinePath : Bytes := ascii "/proc/" ++ decimalText p.pid.toNat ++ ascii "/cmdline"

/-- The first bytes, the NULs made spaces. -/
def cmdlineText : Bytes := (p.cmdline.take 512).map fun ch => if ch = 0 then space else ch

def threadPath (t : LinuxThread) : Bytes :=
  ascii "/proc/" ++ decimalText p.pid.toNat ++ ascii "/task/" ++ decimalText t.tid.toNat
    ++ ascii "/stat"

end LinuxProcess

def LinuxThread.statFile (t : LinuxThread) : Bytes := statText t.tid t.comm t.stat

/-- The first line, without its end. -/
def firstLine (text : Bytes) : Bytes := text.takeWhile (· ≠ newline)

/-! ## the frame -/

/-- `head` of some files' texts: a header before each, but not for one file alone. -/
def headFiles : List (Bytes × Bytes) → Bytes
  | [file] => file.2
  | files => [newline].intercalate (files.map fun file =>
      ascii "==> " ++ file.1 ++ ascii " <==" ++ newline :: file.2)

/-- Spaces before a number of kilobytes, which has eight places. -/
def padding (width : ℕ) (kilobytes : UInt64) : Bytes :=
  List.replicate (width + (8 - (decimalText kilobytes.toNat).length)) space

def Machine.lines (m : Machine) : List Bytes :=
  [m.uptime.val ++ space :: m.idle.val,
    ascii "cpu " ++ m.cpu.flatMap fun ticks => space :: decimalText ticks.toNat,
    ascii "MemTotal:" ++ (padding 7 m.memTotal ++ (decimalText m.memTotal.toNat ++ ascii " kB")),
    ascii "MemAvailable:"
      ++ (padding 3 m.memAvailable ++ (decimalText m.memAvailable.toNat ++ ascii " kB"))]

namespace Listing

variable (l : Listing)

def cmdlineFiles : List (Bytes × Bytes) :=
  l.processes.map fun p => (p.cmdlinePath, p.cmdlineText)

def threadFiles : List (Bytes × Bytes) :=
  l.processes.flatMap fun p => p.threads.map fun t =>
    (p.threadPath t, firstLine t.statFile ++ [newline])

/-- A frame's text, with the threads if they are asked for. -/
def script (threads : Bool) : Bytes :=
  unlines newline (ascii "#F" :: l.machine.lines)
    ++ unlines newline (ascii "#S" :: l.processes.map LinuxProcess.statFile)
    ++ unlines newline (ascii "#U" :: l.processes.map LinuxProcess.uidLine)
    ++ unlines newline [ascii "#C"] ++ headFiles l.cmdlineFiles ++ [newline]
    ++ (if threads then unlines newline [ascii "#T"] ++ headFiles l.threadFiles else [])
    ++ unlines newline [ascii "#E"]

end Listing

end WinSys.Wsl
