import MCertikos.Lib.Transition
import MCertikos.Lib.LinkedList
import MCertikos.Lib.Ring
import MCertikos.Lib.BitField
import MCertikos.Lib.Ownership
import MCertikos.Lib.Table
import MCertikos.Lib.Prog
import MCertikos.Lib.Threads
import MCertikos.Flock.Basic
import MCertikos.Flock.System
import MCertikos.Flock.Invariant
import MCertikos.Flock.Waiting
import MCertikos.Flock.File
import MCertikos.Flock.Ownership
import MCertikos.Flock.Accounting
import MCertikos.Thread.Queue
import MCertikos.Thread.Sched
import MCertikos.Thread.ReadyQueue
import MCertikos.Thread.Spinlock
import MCertikos.Fs.Ops
import MCertikos.Fs.Log
import MCertikos.Fs.InodeCache
import MCertikos.Fs.State
import MCertikos.Fs.Store
import MCertikos.Fs.BufCache
import MCertikos.Fs.SharedCache
import MCertikos.Fs.Coherence
import MCertikos.Fs.CacheCalls
import MCertikos.Fs.Rules
import MCertikos.Fs.Crash
import MCertikos.Fs.Block
import MCertikos.Fs.Inode
import MCertikos.Fs.Path
import MCertikos.Fs.File
import MCertikos.Fs.Sysfile
import MCertikos.Fs.Mkfs
import MCertikos.Fs.Low
import MCertikos.Fs.Owning
import MCertikos.Fs.References
import MCertikos.Fs.Volume
import MCertikos.Fs.Layout
import MCertikos.Fs.Alloc
import MCertikos.Mem.AllocTable
import MCertikos.Mem.Container
import MCertikos.Mem.Quota
import MCertikos.Mem.PageTable
import MCertikos.Mem.Isolation
import MCertikos.Fs.Holding
import MCertikos.Fs.Balance
import MCertikos.Fs.Pointers
import MCertikos.Fs.Growing
import MCertikos.Fs.Contents
import MCertikos.Fs.Mount
import MCertikos.Fs.ByteArray
import MCertikos.Fs.Handles
import MCertikos.Fs.Directory
import MCertikos.Fs.DirMap
import MCertikos.Fs.Freeing
import MCertikos.Fs.BlockUse
import MCertikos.Flock.Failure
import MCertikos.Mem.Process
import MCertikos.Mem.AllocPage
import MCertikos.Mem.Copy
import MCertikos.Mem.UserCopy
import MCertikos.Fs.FileIo
import MCertikos.Fs.FailedWrite
import MCertikos.Fs.PathWalk
import MCertikos.Fs.MkfsImage
import MCertikos.Fs.MkfsLookup
import MCertikos.Fs.DataRegion
import MCertikos.Lib.CString
import MCertikos.Shell.Tokenize
import MCertikos.Shell.Path
import MCertikos.Shell.Canonical
import MCertikos.Shell.Cwd
import MCertikos.Fs.PathArgument
import MCertikos.Fs.MkfsBlocks
import MCertikos.Lib.Memory
import MCertikos.Mem.UserMemory
import MCertikos.Mem.RoundTrip
import MCertikos.Mem.ElfLoad
import MCertikos.Fs.Nodes
import MCertikos.Fs.Session
import MCertikos.Fs.FileTree
import MCertikos.Fs.FileCalls
import MCertikos.Fs.TreeCalls
import MCertikos.Fs.TreeRuns
import MCertikos.Flock.WaitArray
import MCertikos.Mem.Pmmap
import MCertikos.Mem.Readline
import MCertikos.Lib.RingBuffer
import MCertikos.Dev.Console
