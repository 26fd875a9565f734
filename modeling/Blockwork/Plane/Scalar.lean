/-! # Scalars

Coordinates are taken from any type with the operations of a drawing: arithmetic, comparison, the
lesser and the larger of two values, and a test for finiteness. Doubles are the scalars that
programs run on; there the lesser and the larger ignore a value that is no number.
-/

set_option autoImplicit false

namespace Blockwork

class Scalar (K : Type) extends
    Add K, Sub K, Mul K, Div K, Neg K, NatCast K, LT K, LE K, Min K, Max K where
  decidableLT : DecidableLT K
  decidableLE : DecidableLE K
  abs : K → K
  isFinite : K → Bool

namespace Scalar

instance {K : Type} [Scalar K] : DecidableLT K := decidableLT

instance {K : Type} [Scalar K] : DecidableLE K := decidableLE

/-- The lesser of two doubles, the second of two equal ones. -/
def lesserFloat (a b : Float) : Float :=
  if a.isNaN then b else if b.isNaN then a else if a < b then a else b

def largerFloat (a b : Float) : Float :=
  if a.isNaN then b else if b.isNaN then a else if b < a then a else b

instance : Scalar Float where
  natCast := Float.ofNat
  min := lesserFloat
  max := largerFloat
  decidableLT := Float.decLt
  decidableLE := Float.decLe
  abs := Float.abs
  isFinite := Float.isFinite

end Scalar

end Blockwork
