import WinSys.Autoruns.CommandLine
import WinSys.Autoruns.Image
import WinSys.Autoruns.Listing
import WinSys.Autoruns.OneEntry
import WinSys.Autoruns.Registry
import WinSys.Autoruns.Sources
import WinSys.Autoruns.Startup
import WinSys.CLibrary
import WinSys.Com.Access
import WinSys.Com.Paths
import WinSys.Com.Replace
import WinSys.Com.Rundll
import WinSys.Com.Servers
import WinSys.Com.Writable
import WinSys.Devices.Tree
import WinSys.DotNet.Gc
import WinSys.DotNet.Ipc
import WinSys.DotNet.ProcessInfo
import WinSys.DotNet.Rundown
import WinSys.Driver.Control
import WinSys.Driver.Safety
import WinSys.Driver.Types
import WinSys.Etw.Sessions
import WinSys.EventLog.Characters
import WinSys.EventLog.Cut
import WinSys.EventLog.Data
import WinSys.EventLog.Elements
import WinSys.EventLog.Markup
import WinSys.EventLog.Roundtrip
import WinSys.EventLog.Tags
import WinSys.FileIo.Names
import WinSys.FileIo.Prune
import WinSys.FileIo.Tracker
import WinSys.Firmware.Boot
import WinSys.Firmware.LoadOption
import WinSys.Gpu.Adapters
import WinSys.Handles.Answers
import WinSys.Handles.NameQuery
import WinSys.Infra.Attempts
import WinSys.Infra.Bits
import WinSys.Infra.Bytes
import WinSys.Infra.Chain
import WinSys.Infra.Copy
import WinSys.Infra.Dict
import WinSys.Infra.Diff
import WinSys.Infra.EndAround
import WinSys.Infra.Fields
import WinSys.Infra.First
import WinSys.Infra.Forest
import WinSys.Infra.Gather
import WinSys.Infra.Greedy
import WinSys.Infra.Json
import WinSys.Infra.JsonSearch
import WinSys.Infra.KeyedList
import WinSys.Infra.Layout
import WinSys.Infra.Loads
import WinSys.Infra.Masks
import WinSys.Infra.Memo
import WinSys.Infra.MultiSz
import WinSys.Infra.Payload
import WinSys.Infra.Preorder
import WinSys.Infra.Reads
import WinSys.Infra.Run
import WinSys.Infra.Runs
import WinSys.Infra.Split
import WinSys.Infra.Stream
import WinSys.Infra.Sweep
import WinSys.Infra.Tally
import WinSys.Infra.Text
import WinSys.Infra.Ticks
import WinSys.Infra.Transfer
import WinSys.Infra.TwoBuffers
import WinSys.Infra.Wide
import WinSys.Ipc.Exchanges
import WinSys.Ipc.Forget
import WinSys.Ipc.Messages
import WinSys.Ipc.Tracker
import WinSys.Job.Find
import WinSys.Memory.Collected
import WinSys.Memory.Find
import WinSys.Memory.Listed
import WinSys.Memory.Occurs
import WinSys.Memory.PageUse
import WinSys.Memory.Strings
import WinSys.Memory.TextRuns
import WinSys.Modules.Changes
import WinSys.Modules.Tracker
import WinSys.Network.Connections
import WinSys.Network.Counts
import WinSys.Network.Tracker
import WinSys.PE.Checksum
import WinSys.PE.Directories
import WinSys.PE.Exports
import WinSys.PE.Headers
import WinSys.PE.Imports
import WinSys.PE.Integrity
import WinSys.PE.Placed
import WinSys.PE.Resources
import WinSys.PE.Safety
import WinSys.Power.Bounds
import WinSys.Power.Requests
import WinSys.Process.Cpu
import WinSys.Process.Creation
import WinSys.Process.Detach
import WinSys.Process.Environment
import WinSys.Process.Exits
import WinSys.Process.Figures
import WinSys.Process.Held
import WinSys.Process.Manager
import WinSys.Process.Pointers
import WinSys.Process.Processes
import WinSys.Process.Queries
import WinSys.Process.Threads
import WinSys.Process.Tree
import WinSys.Process.ZombieOrder
import WinSys.Process.Zombies
import WinSys.Registry.Alike
import WinSys.Registry.AnyOrder
import WinSys.Registry.Attribution
import WinSys.Registry.Bases
import WinSys.Registry.Bookkeeping
import WinSys.Registry.Conservation
import WinSys.Registry.Delivery
import WinSys.Registry.Drain
import WinSys.Registry.Event
import WinSys.Registry.Forget
import WinSys.Registry.Frame
import WinSys.Registry.Orderly
import WinSys.Registry.OwnBase
import WinSys.Registry.Parser
import WinSys.Registry.Prune
import WinSys.Registry.Queue
import WinSys.Registry.Reorder
import WinSys.Registry.Resolver
import WinSys.Registry.Seen
import WinSys.Registry.Table
import WinSys.Registry.Tokens
import WinSys.Security.AccessMask
import WinSys.Security.Decoded
import WinSys.Services.Dependencies
import WinSys.Symbols.StackCopies
import WinSys.SystemDetails.Hardware
import WinSys.SystemDetails.Smbios
import WinSys.SystemInfo.Buffer
import WinSys.SystemInfo.PoolTags
import WinSys.SystemInfo.Processes
import WinSys.SystemInfo.Processors
import WinSys.SystemInfo.Query
import WinSys.SystemInfo.Relationships
import WinSys.VirusTotal.Analysis
import WinSys.VirusTotal.Lookup
import WinSys.Windows.Tree
import WinSys.Wsl.Forgery
import WinSys.Wsl.Frame
import WinSys.Wsl.Hidden
import WinSys.Wsl.Monitor
import WinSys.Wsl.Own
import WinSys.Wsl.Protocol
import WinSys.Wsl.Reading
import WinSys.Wsl.Script
import WinSys.Wsl.Stat
import WinSys.Wsl.StatLine
import WinSys.Wsl.Weight
