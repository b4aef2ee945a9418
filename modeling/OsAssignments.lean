import OsAssignments.Library.LittleEndian
import OsAssignments.Library.ByteMemory
import OsAssignments.Library.LinkedList
import OsAssignments.Library.Transition
import OsAssignments.Library.Coalescing
import OsAssignments.Library.ByteRecord
import OsAssignments.Library.CString
import OsAssignments.Library.Text
import OsAssignments.Library.Scanning
import OsAssignments.Library.Pieces
import OsAssignments.Library.PathWalk
import OsAssignments.Library.Keyed
import OsAssignments.MmAlloc.Header
import OsAssignments.MmAlloc.Alloc
import OsAssignments.MmAlloc.Arena
import OsAssignments.MmAlloc.Layout
import OsAssignments.MmAlloc.Fusion
import OsAssignments.MmAlloc.Carving
import OsAssignments.MmAlloc.Refine
import OsAssignments.MmAlloc.Session
import OsAssignments.MmAlloc.BlockList
import OsAssignments.MmAlloc.Isolation
import OsAssignments.MmAlloc.Clearing
import OsAssignments.MmAlloc.OtherCode
import OsAssignments.MmAlloc.Freeing
import OsAssignments.MmAlloc.Realloc
import OsAssignments.MmAlloc.Ownership
import OsAssignments.MmAlloc.Undoing
import OsAssignments.MmAlloc.FirstFit
import OsAssignments.MmAlloc.Refusal
import OsAssignments.MmAlloc.Sizes
import OsAssignments.MmAlloc.Resizing
import OsAssignments.MmAlloc.Fragmentation
import OsAssignments.Kvfs.Fnode
import OsAssignments.Kvfs.Table
import OsAssignments.Kvfs.Superblock
import OsAssignments.Kvfs.Operations
import OsAssignments.Kvfs.Effects
import OsAssignments.Kvfs.Recovery
import OsAssignments.Kvfs.Frames
import OsAssignments.Kvfs.Names
import OsAssignments.Kvfs.Durability
import OsAssignments.Kvfs.Reading
import OsAssignments.Kvfs.Writing
import OsAssignments.Kvfs.Rewriting
import OsAssignments.Kvfs.ShortWrites
import OsAssignments.Kvfs.LongNames
import OsAssignments.Kvfs.SizeBounds
import OsAssignments.Kvfs.FileStore
import OsAssignments.Kvfs.ReadingBack
import OsAssignments.HttpServer.Request
import OsAssignments.HttpServer.Files
import OsAssignments.HttpServer.Responses
import OsAssignments.HttpServer.PathBounds
import OsAssignments.HttpServer.Containment
import OsAssignments.HttpServer.Links
import OsAssignments.HttpServer.Relay
import OsAssignments.HttpServer.HangUp
import OsAssignments.HttpServer.Priority
import OsAssignments.HttpServer.Grammar
import OsAssignments.HttpServer.Segments
import OsAssignments.HttpServer.Client
import OsAssignments.HttpServer.Serving
import OsAssignments.HttpServer.Conversations
import OsAssignments.Shell.CommandLine
import OsAssignments.Shell.RoundTrip
import OsAssignments.Shell.ProcessList
import OsAssignments.HttpServer.Options
import OsAssignments.Shell.Session
import OsAssignments.Shell.JobList
import OsAssignments.Shell.Jobs
import OsAssignments.Shell.Leaks
import OsAssignments.Shell.Purging
import OsAssignments.Shell.TokenArrays
import OsAssignments.Shell.Script
import OsAssignments.Shell.Redirection
import OsAssignments.Shell.PathSearch
import OsAssignments.Shell.Lookup
import OsAssignments.Shell.LineBounds
import OsAssignments.Shell.Waiting
import OsAssignments.Shell.Terminal
import OsAssignments.Shell.Modes
import OsAssignments.Shell.FailedFork
import OsAssignments.Shell.WaitCommand
import OsAssignments.Shell.JobControl
