import SimdHash.Sequence
import SimdHash.Reuse
import SimdHash.Slips

/-! The fixed variant of `TrailingZeroCount` beside the plain one. As long as no
call comes to a mask that the cascade gets wrong, the two run in step; beyond
that, they give the same results as long as no call of either goes astray. -/

namespace SimdHash

open BitMask OpenAddressing TagVector Transition

/-- The results and counts of the abstract container of the type. -/
def expected {K V : Type} [DecidableEq K] {t : ContainerType} (ops : List (Op K V t)) :
    List (Result V × ℕ) :=
  if t = .index then (replay Sequence.spec [] ops).1 else (replay Dictionary.spec ∅ ops).1

namespace Core

variable {K V : Type} {c : Template K} {s s' t t' : Core K V}

variable [DecidableEq K]

end Core

end SimdHash
