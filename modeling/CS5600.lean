import CS5600.Lib.Runs
import CS5600.Lib.Bytes
import CS5600.Lib.Chains
import CS5600.Lib.Interleave
import CS5600.Lib.Words
import CS5600.Lib.Slots
import CS5600.Lib.DoublyLinked
import CS5600.Lib.Extents
import CS5600.Lib.Latest
import CS5600.Lib.Ownership
import CS5600.Lib.Packed
import CS5600.Lib.Redo
import CS5600.Lib.Ring
import CS5600.Lib.Banks
import CS5600.Lib.Recency
import CS5600.Lib.Fifo
import CS5600.Lib.Lines
import CS5600.Lib.X86
import CS5600.Data.QueueArray
import CS5600.Alloc.Block
import CS5600.Alloc.Sbrk
import CS5600.Alloc.SbrkProofs
import CS5600.Alloc.Rounds
import CS5600.Alloc.FreeList
import CS5600.Alloc.Arenas
import CS5600.Alloc.ArenasInit
import CS5600.Alloc.ArenasProofs
import CS5600.Alloc.ArenasPayload
import CS5600.Alloc.Requests
import CS5600.Alloc.Threads
import CS5600.Alloc.ThreadsInit
import CS5600.Alloc.ThreadsRace
import CS5600.Alloc.ThreadsAlone
import CS5600.Alloc.Exhausted
import CS5600.Alloc.Locks
import CS5600.Cache.Binary
import CS5600.Cache.SimulatorFifo
import CS5600.Cache.TraceFile
import CS5600.Cache.FifoMain
import CS5600.Cache.Generators
import CS5600.Cache.FifoRuns
import CS5600.Cache.FifoBounds
import CS5600.Cache.DirectMapped
import CS5600.Cache.MySimulator
import CS5600.Cache.MySimulatorLru
import CS5600.Cache.MySimulatorSets
import CS5600.Cache.MySimulatorTrace
import CS5600.Shell.ParseLine
import CS5600.Shell.ShellLoop
import CS5600.Shell.Argv
import CS5600.Shell.Tokenisers
import CS5600.Shell.Stale
import CS5600.Shell.Bounds
import CS5600.Shell.DraftParse
import CS5600.Shell.DraftReadLine
import CS5600.Shell.DraftJobs
import CS5600.Shell.DraftRuns
import CS5600.Sort.BubbleSort
import CS5600.Sort.BubbleAsm
import CS5600.Sort.InsertionSort
import CS5600.Scripts.FilterSort
import CS5600.Xv6.Bio
import CS5600.Xv6.BioProofs
import CS5600.Xv6.BioRuns
import CS5600.Xv6.BioLog
import CS5600.Xv6.Cp
import CS5600.Xv6.Fs
import CS5600.Xv6.FsProofs
import CS5600.Xv6.FsFiles
import CS5600.Xv6.FsIcache
import CS5600.Xv6.FsRuns
import CS5600.Xv6.Log
import CS5600.Xv6.LogProofs
import CS5600.Xv6.LogRuns
import CS5600.Xv6.Param
import CS5600.Xv6.Pipes
import CS5600.Xv6.Proc
import CS5600.Xv6.ProcPids
import CS5600.Artists.TestThreads
