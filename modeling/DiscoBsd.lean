import DiscoBsd.Alloc.Blocks
import DiscoBsd.Alloc.FreeList
import DiscoBsd.Alloc.Ialloc
import DiscoBsd.Alloc.Mount
import DiscoBsd.Alloc.Search
import DiscoBsd.Asm.Addresses
import DiscoBsd.Asm.Agreement
import DiscoBsd.Asm.Ascii
import DiscoBsd.Asm.Assemble
import DiscoBsd.Asm.Encode
import DiscoBsd.Asm.Encoded
import DiscoBsd.Asm.Line
import DiscoBsd.Asm.Names
import DiscoBsd.Asm.Operands
import DiscoBsd.Asm.Passes
import DiscoBsd.Asm.RegLists
import DiscoBsd.Asm.Syntax
import DiscoBsd.Asm.Text
import DiscoBsd.Asm.Words
import DiscoBsd.Audio.Driver
import DiscoBsd.Audio.Runs
import DiscoBsd.Audio.Sound
import DiscoBsd.Bio.Cache
import DiscoBsd.Bio.Coherence
import DiscoBsd.Bio.Interleave
import DiscoBsd.Bio.Linked
import DiscoBsd.Bio.OneBuffer
import DiscoBsd.Bio.OneBufferRuns
import DiscoBsd.Bio.Runs
import DiscoBsd.Bmap.Bmap
import DiscoBsd.Bmap.Exact
import DiscoBsd.Bmap.Faithful
import DiscoBsd.Bmap.Itrunc
import DiscoBsd.Bmap.Mapping
import DiscoBsd.Bmap.ReadExact
import DiscoBsd.Bmap.Released
import DiscoBsd.Bmap.Rwip
import DiscoBsd.Bmap.Truncate
import DiscoBsd.Clib.Division
import DiscoBsd.Clib.Moves
import DiscoBsd.Clib.Routine
import DiscoBsd.Clib.SignedDivision
import DiscoBsd.Clists.Chars
import DiscoBsd.Clists.Fifo
import DiscoBsd.Clists.Getc
import DiscoBsd.Clists.Putc
import DiscoBsd.Clists.Refinement
import DiscoBsd.Clists.Routines
import DiscoBsd.Clists.Sound
import DiscoBsd.Clists.Unputc
import DiscoBsd.Clock.CalloutRuns
import DiscoBsd.Clock.Callouts
import DiscoBsd.Clock.CatchUp
import DiscoBsd.Clock.Hzto
import DiscoBsd.Clock.SelectRuns
import DiscoBsd.Clock.TimeOfDay
import DiscoBsd.Console.Cursor
import DiscoBsd.Console.Putc
import DiscoBsd.Console.Repaint
import DiscoBsd.Console.Restore
import DiscoBsd.Console.Safe
import DiscoBsd.Console.Screen
import DiscoBsd.Dir.Directory
import DiscoBsd.Dir.Enter
import DiscoBsd.Dir.Layout
import DiscoBsd.Dir.Lookup
import DiscoBsd.Dir.Modify
import DiscoBsd.Dir.Namei
import DiscoBsd.Dir.Runs
import DiscoBsd.Dir.Search
import DiscoBsd.Elf2aout.Conversion
import DiscoBsd.Exec.ArgLists
import DiscoBsd.Exec.Args
import DiscoBsd.Exec.Confined
import DiscoBsd.Exec.Loader
import DiscoBsd.Exec.StackBuilt
import DiscoBsd.File.Copen
import DiscoBsd.File.CopenOutcome
import DiscoBsd.File.CountRuns
import DiscoBsd.File.Counts
import DiscoBsd.File.Descriptors
import DiscoBsd.File.Flock
import DiscoBsd.File.FlockRuns
import DiscoBsd.Fsutil.Block
import DiscoBsd.Fsutil.Directory
import DiscoBsd.Inode.ReadFailure
import DiscoBsd.Inode.Runs
import DiscoBsd.Inode.Sound
import DiscoBsd.Inode.Table
import DiscoBsd.Kern.SelectBits
import DiscoBsd.Kern.Uio
import DiscoBsd.Kern.UserCopy
import DiscoBsd.Klog.Ring
import DiscoBsd.Klog.Runs
import DiscoBsd.Lib.ArmMachine
import DiscoBsd.Lib.ArmRun
import DiscoBsd.Lib.Armv4
import DiscoBsd.Lib.Assoc
import DiscoBsd.Lib.Bytes
import DiscoBsd.Lib.Chains
import DiscoBsd.Lib.Circular
import DiscoBsd.Lib.Emit
import DiscoBsd.Lib.EndAround
import DiscoBsd.Lib.ForwardCopy
import DiscoBsd.Lib.Holders
import DiscoBsd.Lib.Int32
import DiscoBsd.Lib.Memory
import DiscoBsd.Lib.NullList
import DiscoBsd.Lib.Plane
import DiscoBsd.Lib.Pointers
import DiscoBsd.Lib.Refs
import DiscoBsd.Lib.Ring
import DiscoBsd.Lib.Segments
import DiscoBsd.Lib.Serial
import DiscoBsd.Lib.Stateful
import DiscoBsd.Lib.Steps
import DiscoBsd.Lib.TailQueue
import DiscoBsd.Lib.Timed
import DiscoBsd.Mml.Agree
import DiscoBsd.Mml.Commands
import DiscoBsd.Mml.Nesting
import DiscoBsd.Mml.Parse
import DiscoBsd.Mml.Play
import DiscoBsd.Mml.Progress
import DiscoBsd.Mml.Repeats
import DiscoBsd.Mml.Tune
import DiscoBsd.Output.Complete
import DiscoBsd.Output.Expansion
import DiscoBsd.Output.Ttwrite
import DiscoBsd.Pathname.Buffer
import DiscoBsd.Pathname.Expansion
import DiscoBsd.Pipe.Fifo
import DiscoBsd.Pipe.Pipe
import DiscoBsd.Pipe.Transfer
import DiscoBsd.Proc.Backout
import DiscoBsd.Proc.Newproc
import DiscoBsd.Proc.PidRuns
import DiscoBsd.Proc.Pids
import DiscoBsd.Psg.Driver
import DiscoBsd.Psg.Runs
import DiscoBsd.Psg.Sound
import DiscoBsd.Psg.Stream
import DiscoBsd.Rmap.Malloc
import DiscoBsd.Rmap.Malloc3
import DiscoBsd.Rmap.Map
import DiscoBsd.Rmap.Mfree
import DiscoBsd.Rmap.Runs
import DiscoBsd.Rmap.SwapMap
import DiscoBsd.Rmap.WellFormed
import DiscoBsd.Rtc.Calendar
import DiscoBsd.Signal.Delivery
import DiscoBsd.Signal.Killable
import DiscoBsd.Signal.Masks
import DiscoBsd.Signal.Numbers
import DiscoBsd.Signal.Restored
import DiscoBsd.Slip.Checksum
import DiscoBsd.Slip.Framing
import DiscoBsd.Slip.Packets
import DiscoBsd.Smlrc.Constants
import DiscoBsd.Smlrc.ConstantsKept
import DiscoBsd.Smlrc.Effects
import DiscoBsd.Smlrc.Lines
import DiscoBsd.Smlrc.Output
import DiscoBsd.Stdio.File
import DiscoBsd.Stdio.Refinement
import DiscoBsd.Stdio.Runs
import DiscoBsd.Stdio.Stream
import DiscoBsd.Tcp.Answers
import DiscoBsd.Tcp.Armed
import DiscoBsd.Tcp.Options
import DiscoBsd.Tcp.Quiet
import DiscoBsd.Tcp.Receive
import DiscoBsd.Tcp.Send
import DiscoBsd.Tcp.SendRuns
import DiscoBsd.Tcp.Sized
import DiscoBsd.Tcp.Tcb
import DiscoBsd.Telnet.Segmentation
import DiscoBsd.Telnet.Session
import DiscoBsd.Telnet.WellFormed
import DiscoBsd.Terminal.Editor
import DiscoBsd.Terminal.Input
import DiscoBsd.Terminal.Order
import DiscoBsd.Terminal.Pty
import DiscoBsd.Ufs.LinkRuns
import DiscoBsd.Ufs.Links
import DiscoBsd.Ufs.Namei
import DiscoBsd.Ufs.Syscalls
