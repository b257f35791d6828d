/-
Indices into what has a fixed number of parts: no such number is 0, so
that a literal is one.
-/
import Mathlib

namespace Ncmips

instance neZero_three : NeZero 3 := ⟨by decide⟩

instance neZero_four : NeZero 4 := ⟨by decide⟩

instance neZero_eight : NeZero 8 := ⟨by decide⟩

instance neZero_sixteen : NeZero 16 := ⟨by decide⟩

end Ncmips
