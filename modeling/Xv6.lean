import Xv6.Framework.RingBuffer
import Xv6.Framework.BitRange
import Xv6.Framework.WriteSeq
import Xv6.Param
import Xv6.Klog
import Xv6.Log.Commit
import Xv6.Log.Crash
import Xv6.Framework.LTS
import Xv6.Log.Concurrent
import Xv6.Log.GroupCommit
import Xv6.Log.Admission
import Xv6.Framework.Op
import Xv6.Framework.Ownership
import Xv6.Framework.Search
import Xv6.Fs.Disk
import Xv6.Fs.Inode
import Xv6.Fs.Image
import Xv6.Fs.Contents
import Xv6.Fs.ReadWrite
import Xv6.Fs.Trunc
import Xv6.Framework.Prog
import Xv6.Fs.Dir
import Xv6.Fs.Syscall
import Xv6.Fs.Files
import Xv6.Framework.RelyGuarantee
import Xv6.Fs.Volume
import Xv6.Fs.DirOps
import Xv6.Framework.Accounts
import Xv6.Fs.Ghost
import Xv6.Fs.Trans
import Xv6.Fs.Coherence
import Xv6.Fs.Exec
import Xv6.Fs.Put
import Xv6.Bio.Cache
import Xv6.Bio.Structure
import Xv6.Bio.Transparent
import Xv6.Fs.ExecFile
import Xv6.Fs.ExecName
import Xv6.Fs.ExecCreate
import Xv6.Fs.Atomic
import Xv6.Framework.Machine
import Xv6.Kern.Proc
import Xv6.Kern.Ghost
import Xv6.Kern.Trans
import Xv6.Kern.Coherence
import Xv6.Kern.Exec
import Xv6.Kern.Family
import Xv6.Kern.ExecCpu
import Xv6.Kern.OneCpu
import Xv6.Kern.Lifecycle
import Xv6.Kern.Kill
import Xv6.Kern.Monitor
import Xv6.Kern.SleepWakeup
import Xv6.Kern.Console
import Xv6.Kern.Ipc
import Xv6.Kern.IpcExec
import Xv6.Kern.IpcProg
import Xv6.Kern.Pipes
import Xv6.Fs.FileWrite
import Xv6.Framework.Allotment
import Xv6.Vm.Memory
import Xv6.Vm.PageTable
import Xv6.Vm.Mapping
import Xv6.Vm.Uvm
import Xv6.Vm.Shrink
import Xv6.Vm.Grow
import Xv6.Vm.Kernel
import Xv6.Vm.Copyout
import Xv6.Vm.Exec
import Xv6.Vm.Image
import Xv6.Vm.Stack
import Xv6.Vm.ExecCall
import Xv6.User.Grep
import Xv6.Framework.SlotMap
import Xv6.Fs.DirMap
import Xv6.Fs.Walk
import Xv6.Mkfs.Main
import Xv6.Mkfs.Layout
import Xv6.Fs.Failed
import Xv6.Framework.Copy
import Xv6.Lib.Memmove
import Xv6.Fs.Bitmap
import Xv6.Kern.Mp
import Xv6.Framework.Simulation
import Xv6.Kern.LineDiscipline
import Xv6.Kern.Cli
import Xv6.User.GrepLines
import Xv6.Vm.Translate
import Xv6.Vm.Dealloc
import Xv6.Vm.Syscall
import Xv6.Framework.Chain
import Xv6.Bio.Ide
import Xv6.Framework.Extents
import Xv6.Framework.Ring
import Xv6.User.Umalloc
import Xv6.User.Heap
