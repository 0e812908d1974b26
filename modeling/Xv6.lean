import Xv6.Lib.Bytes
import Xv6.Lib.Run
import Xv6.Lib.CList
import Xv6.Lib.Wp
import Xv6.Lib.Tally
import Xv6.Lib.Ring
import Xv6.Lib.Monitor
import Xv6.Lib.Links
import Xv6.Param
import Xv6.Log.Recovery
import Xv6.Log.Ops
import Xv6.Log.GroupCommit
import Xv6.Log.Progress
import Xv6.Log.Reservation
import Xv6.Bio.Cache
import Xv6.Bio.Lru
import Xv6.Bio.System
import Xv6.Bio.MemInv
import Xv6.Bio.Relation
import Xv6.Bio.CommitSteps
import Xv6.Bio.FlatStore
import Xv6.Vm.Riscv
import Xv6.Vm.Kalloc
import Xv6.Vm.Overlap
import Xv6.Vm.Vm
import Xv6.Vm.Tree
import Xv6.Vm.Map
import Xv6.Vm.Image
import Xv6.Vm.Space
import Xv6.Vm.Uvm
import Xv6.Vm.Cow
import Xv6.Vm.Access
import Xv6.Process.Exec
import Xv6.Process.Kernel
import Xv6.Process.Tables
import Xv6.Process.RefExec
import Xv6.Process.ExecSpec
import Xv6.Process.Reference
import Xv6.Process.Inv
import Xv6.Process.Calls
import Xv6.Process.Pages
import Xv6.Process.Boot
import Xv6.Process.System
import Xv6.Process.Fault
import Xv6.Process.Fetch
import Xv6.Process.Copyout
import Xv6.Process.Grow
import Xv6.Process.Lookup
import Xv6.Process.Isolation
import Xv6.Fs.Inode
import Xv6.Fs.Blocks
import Xv6.Fs.Dinode
import Xv6.Fs.Dir
import Xv6.Fs.Path
import Xv6.Fs.Volume
import Xv6.Fs.Content
import Xv6.Fs.UserWrite
import Xv6.Fs.Directory
import Xv6.Fs.Refs
import Xv6.Fs.Trunc
import Xv6.Fs.Sane
import Xv6.Fs.Calls
import Xv6.Fs.Itable
import Xv6.Files.Calls
import Xv6.Files.Inv
import Xv6.Files.System
import Xv6.Files.Offset
import Xv6.Files.Storage
import Xv6.Sched.Machine
import Xv6.Sched.Owner
import Xv6.Sched.Cpus
import Xv6.Sched.Slots
import Xv6.Sched.Sleep
import Xv6.Sched.Parents
import Xv6.Sched.Wait
import Xv6.Sched.Pids
import Xv6.Virtio.Machine
import Xv6.Virtio.Protocol
import Xv6.Virtio.System
import Xv6.Sync.Sleeplock
import Xv6.Sync.Pipe
import Xv6.Sync.Piperead
import Xv6.Console.Driver
import Xv6.Console.Editor
import Xv6.Sh.Parser
import Xv6.Sh.Grammar
import Xv6.Sh.Buffer
import Xv6.Grep.Matcher
import Xv6.Grep.Lines
import Xv6.Umalloc.Malloc
import Xv6.Umalloc.Inv
import Xv6.Umalloc.System
import Xv6.Umalloc.Joined
import Xv6.Umalloc.Sbrk
import Xv6.Mkfs.Mkfs
import Xv6.Mkfs.Inv
import Xv6.Mkfs.Image
import Xv6.Mkfs.Kernel
