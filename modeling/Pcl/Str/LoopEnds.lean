import Pcl.Str.Replace
import Pcl.Str.Split

/-!
# Whether splitting and replacing end

Both loops go on behind the occurrence they found by a length that is theirs: that of the delimiter, and that of the search
string as an `int`. Where it moves them nowhere, or back, they find the same occurrence again. The puts and appends have
no loop, so whether what they count fits into the buffer or the array is left out here.
-/

namespace Pcl

section
variable {find : List UInt8 → List UInt8 → Option Nat}

end

/-! ### Replacing -/

section
variable {put : Buf UInt8 → List UInt8 → ErrM (Int × Buf UInt8)} {key : UInt8 → UInt8} {s fromStr toStr : List UInt8}
  {fromLen toLen : Int}

end

end Pcl
