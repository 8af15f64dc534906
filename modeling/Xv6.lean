import Xv6.Spec.Param
import Xv6.Spec.Str
import Xv6.Spec.Proc
import Xv6.Lib.Scan
import Xv6.Lib.Run
import Xv6.Spec.Machine
import Xv6.Proofs.Kill
import Xv6.Proofs.Sched
import Xv6.Proofs.Ticks
import Xv6.Lib.ByteMem
import Xv6.Lib.Except
import Xv6.Spec.Vm
import Xv6.Spec.Kernel
import Xv6.Proofs.UserMem
import Xv6.Lib.Store
import Xv6.Spec.Log
import Xv6.Proofs.LogSpace
import Xv6.Proofs.LogCrash
import Xv6.Spec.Fs
import Xv6.Spec.Path
import Xv6.Spec.Sysfile
import Xv6.Proofs.Footprint
import Xv6.Spec.Pipe
import Xv6.Lib.Counter
import Xv6.Proofs.Pipe
import Xv6.Proofs.ProcTree
import Xv6.Lib.DList
import Xv6.Spec.Bio
import Xv6.Proofs.Bio
import Xv6.Spec.Mkfs
import Xv6.Proofs.Mkfs
import Xv6.Proofs.Naming
import Xv6.Lib.Tally
import Xv6.Spec.File
import Xv6.Proofs.FileRef
import Xv6.Proofs.Sbrk
import Xv6.Lib.RingBuf
import Xv6.Spec.Console
import Xv6.Proofs.Console
import Xv6.Proofs.WriteFault
import Xv6.Spec.Umalloc
import Xv6.Proofs.Umalloc
import Xv6.Lib.Gather
import Xv6.Spec.Virtio
import Xv6.Proofs.Virtio
import Xv6.Proofs.ReadWrite
import Xv6.Proofs.Kalloc
import Xv6.Spec.Grep
import Xv6.Proofs.Grep
import Xv6.Proofs.Copy
import Xv6.Spec.Exec
import Xv6.Proofs.Exec
import Xv6.Proofs.Dirent
import Xv6.Proofs.Namex
import Xv6.Spec.Sh
import Xv6.Proofs.Sh
import Xv6.Spec.Ulib
import Xv6.Proofs.Memmove
import Xv6.Spec.Printf
import Xv6.Proofs.Printf
import Xv6.Lib.Lines
import Xv6.Proofs.GrepLoop
import Xv6.Proofs.PageTable
import Xv6.Proofs.Mapping
import Xv6.Proofs.Uvmalloc
import Xv6.Proofs.Uvmcopy
import Xv6.Spec.Spinlock
import Xv6.Proofs.Spinlock
import Xv6.Proofs.Uvmfree
