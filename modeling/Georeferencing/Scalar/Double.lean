import Georeferencing.Scalar
import Georeferencing.Scalar.Hypotenuse

/-! # Doubles

The arithmetic that runs: IEEE double precision, every operation rounded to nearest on its own.
-/

namespace Georeferencing

instance : Scalar Float where
  zero := 0.0
  one := 1.0
  decidableLT := inferInstance
  decidableLE := inferInstance

instance : BitPattern Float where
  bits := Float.toBits

instance : Elementary Float where
  pi := 3.141592653589793
  sqrt := Float.sqrt
  hypot := Double.hypotenuse
  sin := Float.sin
  cos := Float.cos
  tan := Float.tan
  atan := Float.atan
  exp := Float.exp
  log := Float.log
  pow := Float.pow

end Georeferencing
