import NimrodOS.MemorySafety
import NimrodOS.Interrupts
import NimrodOS.TaskKill
import NimrodOS.TaskSlots
import NimrodOS.TaskTurns
import NimrodOS.TaskSleep
import NimrodOS.RamfsRuns
import NimrodOS.RamfsReach
import NimrodOS.RamfsNames
import NimrodOS.NetViews
import NimrodOS.NetSend
import NimrodOS.NetRound
import NimrodOS.DnsReplies
import NimrodOS.ElfReads
import NimrodOS.ElfWrites
import NimrodOS.ElfTrace
import NimrodOS.ElfEntries
import NimrodOS.ElfOwners
import NimrodOS.NetCache
import NimrodOS.PagingRights
import NimrodOS.SyscallRead
import NimrodOS.CalcTraps
import NimrodOS.TaskResume
import NimrodOS.NetPings
import NimrodOS.NetWaits
import NimrodOS.Keyboard
import NimrodOS.Waiting
import NimrodOS.Vga
import NimrodOS.Lib.OrderedMap
import NimrodOS.Env
import NimrodOS.EnvMap
import NimrodOS.EditorLines
import NimrodOS.Lib.RecordRing
import NimrodOS.Rtl8139
import NimrodOS.Rtl8139Runs
import NimrodOS.E1000
import NimrodOS.E1000Ring
import NimrodOS.NetResolve
import NimrodOS.NetResolves
import NimrodOS.Lib.Gaps
import NimrodOS.MemoryGaps
import NimrodOS.ElfHeap
import NimrodOS.TaskCount
import NimrodOS.NetChecksum
import NimrodOS.NetEcho
import NimrodOS.PagingMmio
import NimrodOS.DnsEncode
import NimrodOS.EditorSaves
import NimrodOS.Pci
import NimrodOS.KeyHistory
import NimrodOS.VgaColors
import NimrodOS.RamfsHeld
import NimrodOS.ShellFiles
import NimrodOS.ShellNames
import NimrodOS.Lib.Lines
import NimrodOS.ShellLines
import NimrodOS.ShellGrep
import NimrodOS.EditorText
import NimrodOS.Lib.Tape
import NimrodOS.VgaTape
import NimrodOS.KeyScreen
import NimrodOS.Lib.Numerals
import NimrodOS.LibcBuffers
import NimrodOS.DottedQuad
import NimrodOS.Hexadecimal
import NimrodOS.Rtc
import NimrodOS.Xhci
import NimrodOS.ShellKill
import NimrodOS.DnsBounds
import NimrodOS.Lib.Turning
import NimrodOS.Snake
import NimrodOS.Lib.RowMap
import NimrodOS.AliasMap
import NimrodOS.ShellAliases
import NimrodOS.InterruptFrame
import NimrodOS.Lib.Medium
import NimrodOS.NetSegment
import NimrodOS.NetTrip
import NimrodOS.E1000Send
import NimrodOS.InterruptLines
import NimrodOS.Lib.Orbit
import NimrodOS.Lib.XorLinear
import NimrodOS.Rand
import NimrodOS.ShellDump
import NimrodOS.ShellStore
import NimrodOS.DnsTrip
import NimrodOS.ElfLinked
import NimrodOS.TaskDelays
import NimrodOS.SyscallService
