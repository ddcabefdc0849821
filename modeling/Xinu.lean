import Xinu.PageTables
import Xinu.PageTableArea
import Xinu.PriorityLaw
import Xinu.MailboxRefinement
import Xinu.ProcessLifetimes
import Xinu.SemaphoreAccounting
import Xinu.SleepQueue
import Xinu.HeapHistory
import Xinu.RemoteDiskCoherence
import Xinu.LocalFileOpens
import Xinu.Effects
import Xinu.ShellWait
import Xinu.RemoteExchange
import Xinu.IcmpSlots
import Xinu.UdpSlots
import Xinu.IpOutput
import Xinu.ArpCache
import Xinu.TtyOutput
import Xinu.TtyInput
import Xinu.PacketDisposal
import Xinu.KilledPermits
import Xinu.AllocatorUndo
import Xinu.EthTransmit
import Xinu.EthReceive
import Xinu.InputBuffers
import Xinu.NamePrefixes
import Xinu.TftpTransfer
import Xinu.ProcessSwitches
import Xinu.FreeRequests
import Xinu.UdpClients
import Xinu.PacketChecksums
import Xinu.DiskFormat
import Xinu.RemoteDiskRequests
import Xinu.PortCapacity
import Xinu.DnsQueries
import Xinu.FilePermissions
import Xinu.RemoteDiskOpen
import Xinu.DhcpOptions
import Xinu.NameTable
import Xinu.CommandLines
import Xinu.ShellCommands
import Xinu.ShellErrors
import Xinu.RemoteFiles
import Xinu.EthFrames
import Xinu.PacketLengths
import Xinu.InterruptMasks
import Xinu.Numerals
import Xinu.FormattedOutput
import Xinu.FormattedNumbers
import Xinu.FormatterLaw
import Xinu.FormatterAgreement
import Xinu.FormattedInput
import Xinu.QueueHistories
import Xinu.DeferredRescheduling
import Xinu.TtyLookahead
import Xinu.TtyReads
import Xinu.TtyEcho
import Xinu.MemoryMarks
import Xinu.Calendar
import Xinu.AscDate
import Xinu.KernelStacks
import Xinu.ExtentCover
import Xinu.StraddledHeap
import Xinu.StackReturns
import Xinu.FreePools
import Xinu.OutputRuns
import Xinu.LocalFileVolumes
import Xinu.LocalFileCaches
import Xinu.LocalFileSetup
import Xinu.LocalFileCalls
import Xinu.LocalFileTruncate
import Xinu.LocalFileContents
import Xinu.LocalFileNames
import Xinu.LocalFileSpace
import Xinu.LocalFileSystem
import Xinu.LocalFileFormat
import Xinu.LocalFileDirectory
import Xinu.LocalFileRestarts
import Xinu.LocalFileRuns
import Xinu.SegmentSorting
import Xinu.QuickSort
import Xinu.RepeatedRequests
import Xinu.RemoteFileCalls
import Xinu.RemoteFileMessages
import Xinu.RemoteFileServer
import Xinu.RemoteFileRuns
