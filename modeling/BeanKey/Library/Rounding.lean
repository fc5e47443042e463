import Mathlib.Data.Rat.Floor
import Mathlib.Algebra.Order.Field.Rat

/-! Arithmetic on rationals whose results are rounded. -/
namespace BeanKey

class Rounding where
  rounded : ℚ → ℚ

namespace Rounding

/-- Exact arithmetic, where no other is named. -/
instance (priority := low) exact : Rounding := ⟨id⟩

@[simp] theorem rounded_exact (value : ℚ) : exact.rounded value = value := rfl

def nearestEven (value : ℚ) : Int :=
  let below := value.floor
  if value - below < 1 / 2 then below
  else if 1 / 2 < value - below then below + 1
  else below + below % 2

def leadingExponent (value : ℚ) : Int :=
  -- the estimate from both lengths is one too great at most
  let estimate : Int := value.num.natAbs.log2 - value.den.log2
  if |value| < 2 ^ estimate then estimate - 1 else estimate

/-- Single precision: 24 significant bits, none of them below `2 ^ (-149)`, and ties to the even
number. The exponent has no upper end, so nothing becomes infinite. -/
@[reducible] def binary32 : Rounding where
  rounded value :=
    let unit : ℚ := 2 ^ max (leadingExponent value - 23) (-149)
    nearestEven (value / unit) * unit

end Rounding

end BeanKey
