import Ucore.Lib.Run
import Ucore.Mm.PmmRun
import Ucore.Fs.Sfs.Correctness.Load
import Ucore.Fs.Sfs.Correctness.BitmapRuns
import Ucore.Fs.Sfs.Correctness.IoLoop
import Ucore.Fs.Sfs.Correctness.IoSize
import Ucore.Fs.Sfs.Correctness.Atomic
import Ucore.Fs.Sfs.Correctness.Rounds
import Ucore.Fs.Sfs.Correctness.Trunc
import Ucore.Fs.Sfs.Correctness.SizeBlocks
import Ucore.Fs.Sfs.Correctness.Xfers
import Ucore.Fs.Sfs.Correctness.Limit
import Ucore.Fs.File
import Ucore.Fs.Sfs.Correctness.GrowZero
import Ucore.Fs.Sfs.Correctness.Sync
import Ucore.Fs.Correctness.Sharing
import Ucore.Fs.Correctness.Enumerate
import Ucore.Tools.Correctness.MkRun
import Ucore.Fs.Sfs.Correctness.Mount
import Ucore.Fs.Sfs.Correctness.BlockStore
import Ucore.Tools.Correctness.Close
import Ucore.Tools.Correctness.Image
import Ucore.Fs.Sfs.Correctness.Dirent
import Ucore.Tools.Correctness.Served
import Ucore.Tools.Correctness.RoundTrip
import Ucore.Mm.PageTable
import Ucore.Mm.Correctness.Tables
import Ucore.Mm.Correctness.Walk
import Ucore.Lib.Tally
import Ucore.Mm.Correctness.Counts
import Ucore.Mm.Correctness.Insert
import Ucore.Mm.Correctness.Ranges
import Ucore.Mm.Correctness.RefRun
import Ucore.Mm.Vmm
import Ucore.Mm.Correctness.Cut
import Ucore.Mm.Correctness.Exit
import Ucore.Mm.Correctness.Copy
import Ucore.Mm.Correctness.VmRun
import Ucore.Mm.Correctness.Teardown
import Ucore.Process.Kern
import Ucore.Schedule.Sched
import Ucore.Process.Proc
import Ucore.Process.Correctness.GetPid
import Ucore.Schedule.Correctness.Sched
import Ucore.Schedule.Correctness.Timers
import Ucore.Process.System
import Ucore.Schedule.Correctness.RunQueue
import Ucore.Process.Correctness.KernInv
import Ucore.Sync.Correctness.Sem
import Ucore.Process.Correctness.Interrupts
import Ucore.Process.Correctness.Tree
import Ucore.Process.Correctness.Fork
import Ucore.Process.Correctness.Exit
import Ucore.Process.Correctness.Wait
import Ucore.Process.Correctness.System
import Ucore.Schedule.Correctness.RoundRobin
import Ucore.Process.Correctness.Runs
import Ucore.Sync.Correctness.SemRuns
import Ucore.Sync.Monitor
import Ucore.Sync.Correctness.Monitor
import Ucore.Sync.Correctness.Protocol
import Ucore.Sync.CheckSync
import Ucore.Sync.Correctness.PhiSema
import Ucore.Sync.Correctness.PhiCondvar
import Ucore.Fs.Vfs.Inode
import Ucore.Fs.Vfs.Path
import Ucore.Fs.Vfs.Correctness.Resolve
import Ucore.Fs.Vfs.Correctness.OpenFile
import Ucore.Fs.Vfs.Correctness.CreatePath
import Ucore.Fs.Vfs.Correctness.Namefile
import Ucore.Lib.Runs
import Ucore.Lib.SkewTree
import Ucore.Lib.Window
import Ucore.Libs.Correctness.SkewHeap
import Ucore.Libs.ListRing
import Ucore.Mm.BestFitPmm
import Ucore.Mm.Correctness.BestFit
import Ucore.Mm.Correctness.FreeRuns
import Ucore.Mm.Correctness.MmMap
import Ucore.Schedule.Correctness.Stride
import Ucore.Schedule.Correctness.StrideFair
import Ucore.Schedule.Correctness.StridePicks
import Ucore.Mm.Correctness.SlubLifo
import Ucore.Mm.Correctness.SlubSizes
import Ucore.Mm.Correctness.SlobSize
import Ucore.Lib.TwoRuns
import Ucore.Process.LoadIcode
import Ucore.Process.Correctness.ExecLoad
import Ucore.Process.Correctness.LoadSegments
import Ucore.Process.Correctness.LoadArgv
import Ucore.Process.Correctness.LoadCleanup
import Ucore.Mm.Correctness.CopyString
import Ucore.Mm.Correctness.ProtectionFault
import Ucore.Process.Correctness.CowRights
import Ucore.Fs.Devs.Correctness.Stdin
import Ucore.Libs.Correctness.Snprintf
import Ucore.User.Correctness.GetToken
import Ucore.Driver.Correctness.DtbMemory
import Ucore.Fs.Correctness.FdFailing
import Ucore.Fs.Correctness.SysfileCounts
import Ucore.Fs.Sfs.Correctness.VolumeDurable
import Ucore.Tools.Correctness.Volume
import Ucore.Mm.Correctness.CowMemory
