import Mathlib.Algebra.GroupWithZero.Nat
import Mathlib.Algebra.Ring.Int.Defs
import Mathlib.Order.Basic
import Mathlib.Order.Fin.Basic

/-!
# Words

Bytes and 32-bit words are numbers below a bound that is not zero, so that literals of them are
words. Maps and sets order their keys by a linear order.
-/

namespace SmartCore

instance neZero_byte : NeZero 256 := ⟨by decide⟩

instance neZero_uint32 : NeZero (2 ^ 32) := ⟨by decide⟩

/-- A linear order gives a comparison that tables can be ordered by. -/
instance transOrd_of_linearOrder {κ : Type} [LinearOrder κ] : Std.TransOrd κ := inferInstance

end SmartCore
