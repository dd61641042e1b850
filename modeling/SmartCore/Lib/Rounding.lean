import Mathlib.Algebra.Order.Ring.Int
import Mathlib.Tactic.Common

/-!
# Amounts and prices

`a * n / d` is what `a` is worth at the price `n / d`, rounded down. Going there and back never
gains anything.
-/

namespace SmartCore.Rounding

variable {a b n d : ℤ}

theorem worth_nonneg (ha : 0 ≤ a) (hn : 0 ≤ n) (hd : 0 < d) : 0 ≤ a * n / d :=
  Int.ediv_nonneg (mul_nonneg ha hn) hd.le

/-- What is worth at most `b` for `a`, in the other direction. -/
theorem mul_le_mul_of_le_worth (hd : 0 < d) (h : b ≤ a * n / d) : b * d ≤ a * n :=
  (Int.le_ediv_iff_mul_le hd).mp h

/-- Rounding down is to the disadvantage of who gets it. -/
theorem worth_mul_le (a n : ℤ) (hd : 0 < d) : a * n / d * d ≤ a * n :=
  Int.ediv_mul_le _ hd.ne'

/-- By less than one. -/
theorem lt_worth_add_one_mul (a n : ℤ) (hd : 0 < d) : a * n < (a * n / d + 1) * d :=
  Int.lt_ediv_add_one_mul_self _ hd

theorem worth_le (hd : 0 < d) (h : a * n ≤ b * d) : a * n / d ≤ b := by
  rw [← Int.mul_ediv_cancel b hd.ne']
  exact Int.ediv_le_ediv hd h

/-- **There and back.** What can be paid with the worth of `a` is at most `a`. -/
theorem worth_back_le (hn : 0 < n) (hd : 0 < d) (h : b ≤ a * n / d) : b * d / n ≤ a :=
  worth_le hn (mul_le_mul_of_le_worth hd h)

/-- A bound by a price is one by any price that is not better. -/
theorem mul_lt_mul_of_price_le {n' d' : ℤ} (h : a * d < b * n) (hprice : n * n' ≤ d * d')
    (hb : 0 ≤ b) (hd : 0 < d) (hn' : 0 < n') : a * n' < b * d' := by
  refine lt_of_mul_lt_mul_right ?_ hd.le
  calc a * n' * d = a * d * n' := mul_right_comm a n' d
    _ < b * n * n' := mul_lt_mul_of_pos_right h hn'
    _ = b * (n * n') := mul_assoc b n n'
    _ ≤ b * (d * d') := mul_le_mul_of_nonneg_left hprice hb
    _ = b * d' * d := by rw [mul_comm d d', mul_assoc]

end SmartCore.Rounding
