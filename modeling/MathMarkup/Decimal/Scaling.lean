import MathMarkup.Decimal.Binary64

/-!
# Scaling doubles by powers of ten

A product or a quotient of two doubles is computed as a fraction and rounded once, so it is the
double nearest to the exact value. Scaling by a power of ten is such a product or quotient with the
double nearest to that power; it rounds a value that was itself rounded, so it may miss the double
nearest to the decimal number that was meant.
-/

namespace MathMarkup.Binary64

/-- The magnitude as a fraction. -/
def magnitude (x : Binary64) : Nat × Nat :=
  scaled x.mantissa 2 x.exponent

/-- The double nearest to a product, unless that is infinite. -/
def mul? (x y : Binary64) : Option Binary64 :=
  let negative := x.negative != y.negative
  if x.mantissa = 0 ∨ y.mantissa = 0 then some (zero negative)
  else
    let (a, b) := x.magnitude
    let (c, d) := y.magnitude
    ofFraction? negative (a * c) (b * d)

/-- The double nearest to a quotient, unless that is infinite or the divisor is zero. -/
def div? (x y : Binary64) : Option Binary64 :=
  let negative := x.negative != y.negative
  if y.mantissa = 0 then none
  else if x.mantissa = 0 then some (zero negative)
  else
    let (a, b) := x.magnitude
    let (c, d) := y.magnitude
    ofFraction? negative (a * d) (b * c)

/-- The exponent of the greatest power of ten in the range of doubles. -/
def greatestTenExponent : Nat := 308

/-- The double nearest to a power of ten, unless that is infinite. -/
def powerOfTen? (n : Nat) : Option Binary64 :=
  ofDecimal? false 1 n

/-- A double times `10 ^ e`, unless that is out of range: one product or quotient with a power of
ten. A quotient with a power beyond the greatest one takes several, each by the greatest one until
the rest is in range; that ends at the latest where zero is reached, since zero stays zero. -/
def scaleByTen? (x : Binary64) (e : Int) : Option Binary64 :=
  if x.mantissa = 0 then some x
  else if greatestTenExponent < e then none
  else if 0 ≤ e then (powerOfTen? e.toNat).bind x.mul?
  else if -greatestTenExponent ≤ e then (powerOfTen? (-e).toNat).bind x.div?
  else
    ((powerOfTen? greatestTenExponent).bind x.div?).bind fun y =>
      y.scaleByTen? (e + greatestTenExponent)
termination_by (-e).toNat
decreasing_by simp only [greatestTenExponent] at *; omega

end MathMarkup.Binary64
