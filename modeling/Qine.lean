import Qine.Lib.Memory
import Qine.Lib.Endian
import Qine.Lib.Walk
import Qine.Lib.Slots
import Qine.Lib.Transducer
import Qine.Lib.Terminated
import Qine.Lib.Moves
import Qine.Lib.Tables
import Qine.Lib.LinkRing
import Qine.Lib.Strtol
import Qine.Lib.Signed
import Qine.Types
import Qine.CmdOpts
import Qine.IdMap
import Qine.IdMap.Refinement
import Qine.Segment
import Qine.Host
import Qine.Segment.Grow
import Qine.Msg.Iterator
import Qine.Msg.Iovec
import Qine.Msg.Read
import Qine.Msg.Write
import Qine.Path.Normalize
import Qine.Path.Mapper
import Qine.Path.Containment
import Qine.Pid.Map
import Qine.Pid.Alloc
import Qine.Pid.Invariant
import Qine.Pid.Fork
import Qine.Fd.Map
import Qine.Fd.AssignFds
import Qine.Fd.Messages
import Qine.Fd.Invariant
import Qine.Signal.Sigset
import Qine.Signal.Context
import Qine.Signal.Emu
import Qine.Signal.Frames
import Qine.Signal.Messages
import Qine.Signal.Pending
import Qine.Pid.Calls
import Qine.Signal.Dispatch
import Qine.Term.Timespec
import Qine.Term.Filter
import Qine.Term.Chunks
import Qine.Term.Read
import Qine.Startup
import Qine.Spawn
import Qine.Space
import Qine.Loader
import Qine.Loader.Lmf
import Qine.Segment.Shape
import Qine.Loader.Layout
import Qine.Loader.Image
import Qine.Loader.Load
import Qine.Loader.Stack
import Qine.Startup.Bounds
import Qine.Space.Calls
import Qine.Space.Coherence
import Qine.Loader.Safety
import Qine.Signal.Selectors
import Qine.Lifetime
import Qine.Space.Totality
import Qine.Signal.Counts
import Qine.Fd.Handlers
import Qine.Fd.Answers
import Qine.Pid.Tree
import Qine.Path.Identity
import Qine.Startup.Context
import Qine.Startup.Strings
import Qine.Startup.Image
import Qine.Term.Process
import Qine.Term.Waiting
import Qine.Term.HangUp
import Qine.Term.Deadline
import Qine.Space.Limits
import Qine.Space.Translate
import Qine.Path.AddMap
import Qine.Term.Settings
import Qine.Term.Status
import Qine.Fd.Readdir
import Qine.Fd.Redirect
import Qine.Fd.Flags
import Qine.Signal.Sigact
import Qine.IntrusiveList
import Qine.Exec
import Qine.CmdOpts.Integer
import Qine.CmdOpts.Parse
import Qine.Signal.HostMask
import Qine.Loader.Shebang
import Qine.Startup.Sbrk
import Qine.Loader.Records
import Qine.Startup.WellKnown
import Qine.Pid.MagicIds
import Qine.Lib.Getopt
import Qine.Main
import Qine.Main.Reexec
import Qine.Main.RoundTrip
import Qine.Io.File
import Qine.Io.Pipe
import Qine.Io.Regular
import Qine.Pid.Wait
import Qine.Pid.Names
import Qine.Signal.Semaphores
import Qine.Signal.Enter
import Qine.Fd.Inherit
import Qine.Lib.Tiling
import Qine.Qmsg
import Qine.Qmsg.Layout
import Qine.Qmsg.Dump
import Qine.Qmsg.Dispatch
import Qine.Path.Links
import Qine.Io.Trap
