import Frog.Lib.Prog
import Frog.Fs.FileRead
import Frog.Fs.DirLookup
import Frog.Fs.DirList
import Frog.Fs.FormatLayout
import Frog.Fs.InodeTable
import Frog.Ipc.Fork
import Frog.Proc.Wait
import Frog.Thread.Queued
import Frog.Thread.Mutex
import Frog.Thread.Stream
import Frog.PackageFs.RoundTrip
import Frog.PackageFs.Framing
import Frog.Timer.FifoRuns
import Frog.Descr.StandardRuns
import Frog.Descr.WriterRuns
import Frog.Structs.ListHead
import Frog.Structs.HashRuns
import Frog.Mm.FailedFork
import Frog.Compositor.RedrawRuns
import Frog.Device.Partitions
import Frog.Device.ScanEnds
import Frog.Device.Kbd
import Frog.Device.Mouse
import Frog.Fs.WriteIndices
import Frog.Fs.WriteFailure
import Frog.Fs.Getcwd
import Frog.Fs.Rmdir
import Frog.PackageFs.Staging
import Frog.Mm.Queues
import Frog.Thread.Capacity
import Frog.Compositor.Equeue
import Frog.Descr.PipeFails
import Frog.Fs.StatZones
import Frog.Fs.TwoSearches
import Frog.Fs.Uninitialised
import Frog.Fs.PathSplit
import Frog.Lib.Commute
import Frog.Interrupt.Softirq
import Frog.Libc.Stdio
import Frog.Wait.Queue
import Frog.Mm.InstallCalls
import Frog.Mm.FailedMalloc
import Frog.Wait.PollTrace
import Frog.FirstFit
import Frog.Structs.Fifo
import Frog.Device.Clock
import Frog.Device.Rtc
import Frog.Device.Chunks
import Frog.Compositor.Blend
import Frog.Compositor.Creation
import Frog.Compositor.SpriteBounds
import Frog.Thread.Members
import Frog.Libc.RoundTrip
import Frog.Fs.FailedOpen
import Frog.Ipc.Rendezvous
import Frog.Thread.Attended
import Frog.Proc.Ancestry
import Frog.Device.Ide
import Frog.Device.IdeCalls
import Frog.Device.IdeInside
import Frog.Device.IdeRuns
import Frog.Device.IdeSectors
