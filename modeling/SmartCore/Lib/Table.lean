import Mathlib.Algebra.BigOperators.Group.List.Basic
import Mathlib.Data.List.Perm.Basic
import Mathlib.Order.Basic
import Mathlib.Tactic.Common
import SmartCore.Lib.Words

/-!
# Tables

A table is a finite map with its keys in a linear order.
-/

namespace SmartCore

/-- A finite map from keys to rows. -/
abbrev Table (κ α : Type) [LinearOrder κ] := Std.ExtTreeMap κ α

namespace Table

variable {κ α : Type} [LinearOrder κ]

theorem getElem?_insert_of_ne {t : Table κ α} {k : κ} {v : α} :
    ∀ k' ≠ k, (t.insert k v)[k']? = t[k']? := by
  intro k' hk'
  rw [Std.ExtTreeMap.getElem?_insert]
  simp [hk'.symm]

theorem getElem?_erase_of_ne {t : Table κ α} {k : κ} : ∀ k' ≠ k, (t.erase k)[k']? = t[k']? := by
  intro k' hk'
  rw [Std.ExtTreeMap.getElem?_erase]
  simp [hk'.symm]

end Table

end SmartCore
