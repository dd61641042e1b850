import Mathlib.Data.List.Chain
import Mathlib.Data.List.Sort
import Mathlib.Data.Nat.Bitwise
import Mathlib.Data.Nat.Factorization.Basic
import Mathlib.Tactic.Ring
import Mathlib.Tactic.Linarith

/-!
# The next number with as many ones

`nextPermutation` is the well-known sequence of machine instructions that leads from a word to the
next larger word with as many ones. In a word that ends in a zero, a run of ones up to `2 ^ j` and
then zeros below `2 ^ i`, the zero becomes a one, and the others go to the bottom
(`toNat_nextPermutation`).

`combinations n k` lists the numbers below `2 ^ n` with `k` ones, in their order. From each of them
`nextPermutation` leads to the next (`isChain_combinations`), and from the last one out of the range
(`nextPermutation_last`), from where there is no way back (`le_nextPermutation`).
-/

namespace SmartCore

/-! ## Bits -/

section Bits

variable {H i j b w X : ℕ}

theorem testBit_high_low (hX : X < 2 ^ j) :
    (2 ^ j * H + X).testBit b = if b < j then X.testBit b else H.testBit (b - j) := by
  by_cases hb : b < j
  · rw [if_pos hb, Nat.testBit_two_pow_mul_add _ hX, if_pos hb]
  · rw [if_neg hb, Nat.testBit_two_pow_mul_add _ hX, if_neg hb]

/-- A run of ones, and below it zeros. -/
theorem testBit_run (hij : i < j) : (2 ^ j - 2 ^ i).testBit b = decide (b < j ∧ i ≤ b) := by
  have hpos : 0 < 2 ^ i := Nat.two_pow_pos i
  have hlt : 2 ^ i < 2 ^ j := Nat.pow_lt_pow_right (by decide) hij
  have heq : 2 ^ j - 2 ^ i = 2 ^ j - ((2 ^ i - 1) + 1) := by omega
  rw [heq, Nat.testBit_two_pow_sub_succ (by omega), Nat.testBit_two_pow_sub_one]
  by_cases hb : b < i <;> simp [hb]
  · omega

/-- One less. -/
theorem testBit_run_pred (hij : i < j) :
    (2 ^ j - 2 ^ i - 1).testBit b = decide (b < j ∧ b ≠ i) := by
  have hlt : 2 ^ i < 2 ^ j := Nat.pow_lt_pow_right (by decide) hij
  have heq : 2 ^ j - 2 ^ i - 1 = 2 ^ j - (2 ^ i + 1) := by omega
  rw [heq, Nat.testBit_two_pow_sub_succ hlt, Nat.testBit_two_pow]
  by_cases hb : i = b
  · simp [hb]
  · have hb' : b ≠ i := Ne.symm hb
    simp [hb, hb']

theorem run_lt (hij : i < j) : 2 ^ j - 2 ^ i < 2 ^ (j + 1) := by
  have hpos : 0 < 2 ^ i := Nat.two_pow_pos i
  have hsucc : 2 ^ (j + 1) = 2 ^ j * 2 := pow_succ 2 j
  have hlt : 2 ^ i < 2 ^ j := Nat.pow_lt_pow_right (by decide) hij
  omega

/-- The trailing zeros become ones. -/
theorem run_or_pred (hij : i < j) (hX : X = 2 ^ (j + 1) * H + (2 ^ j - 2 ^ i)) :
    X ||| (X - 1) = 2 ^ (j + 1) * H + (2 ^ j - 1) := by
  have hlt : 2 ^ i < 2 ^ j := Nat.pow_lt_pow_right (by decide) hij
  have hrun := run_lt hij
  have hpred : X - 1 = 2 ^ (j + 1) * H + (2 ^ j - 2 ^ i - 1) := by omega
  apply Nat.eq_of_testBit_eq
  intro b
  rw [Nat.testBit_or, hpred, hX, testBit_high_low hrun, testBit_high_low (by omega),
    testBit_high_low (by omega), testBit_run hij, testBit_run_pred hij,
    Nat.testBit_two_pow_sub_one]
  by_cases hb : b < j + 1
  · simp only [if_pos hb]
    by_cases hbi : b < i
    · have : b ≠ i := by omega
      have : b < j := by omega
      simp [*]
    · simp only [Nat.not_lt] at hbi
      by_cases hbj : b < j <;> simp [hbi, hbj]
  · simp only [if_neg hb, Bool.or_self]

/-- The lowest one. -/
theorem and_neg (hX : X = 2 ^ (i + 1) * H + 2 ^ i) (hw : X < 2 ^ w) :
    X &&& (2 ^ w - X) = 2 ^ i := by
  have hpos : 0 < 2 ^ i := Nat.two_pow_pos i
  have hsucc : 2 ^ (i + 1) = 2 ^ i * 2 := pow_succ 2 i
  have hpred : X - 1 = 2 ^ (i + 1) * H + (2 ^ i - 1) := by omega
  have hneg : 2 ^ w - X = 2 ^ w - ((X - 1) + 1) := by omega
  have hiw : i < w := by
    by_contra hge
    have := Nat.pow_le_pow_right (n := 2) (by decide) (Nat.not_lt.mp hge)
    omega
  apply Nat.eq_of_testBit_eq
  intro b
  rw [Nat.testBit_and, hneg, Nat.testBit_two_pow_sub_succ (by omega), hpred, hX,
    testBit_high_low (by omega), testBit_high_low (by omega), Nat.testBit_two_pow,
    Nat.testBit_two_pow_sub_one]
  by_cases hb : b < i + 1
  · simp only [if_pos hb]
    by_cases hbi : i = b
    · simp [← hbi, hiw]
    · simp [hbi]
  · have hbi : i ≠ b := by omega
    simp only [if_neg hb, hbi, decide_false]
    cases H.testBit (b - (i + 1)) <;> simp

/-- Every number but zero ends in a run of ones and zeros below it. -/
theorem exists_run (hX : X ≠ 0) : ∃ i j H, i < j ∧ X = 2 ^ (j + 1) * H + (2 ^ j - 2 ^ i) := by
  obtain ⟨i, A, hA, rfl⟩ := Nat.exists_eq_two_pow_mul_odd hX
  obtain ⟨m, B, hB, hAB⟩ := Nat.exists_eq_two_pow_mul_odd (Nat.succ_ne_zero A)
  obtain ⟨H, rfl⟩ := hB
  have hm : 0 < m := by
    by_contra h0
    obtain rfl : m = 0 := by omega
    obtain ⟨K, rfl⟩ := hA
    omega
  refine ⟨i, i + m, H, by omega, ?_⟩
  have hA' : A = 2 ^ (m + 1) * H + (2 ^ m - 1) := by
    have : 2 ^ (m + 1) * H + 2 ^ m = 2 ^ m * (2 * H + 1) := by ring
    have := Nat.two_pow_pos m
    omega
  have hpow : 2 ^ i * (2 ^ m - 1) = 2 ^ (i + m) - 2 ^ i := by
    rw [Nat.mul_sub, ← pow_add, Nat.mul_one]
  rw [hA', Nat.mul_add, hpow, ← Nat.mul_assoc, ← pow_add, Nat.add_assoc]

end Bits

/-! ## The next permutation -/

section Next

variable {w : ℕ} {x : BitVec w} {H i j n k a : ℕ}

/-- The negative of an unsigned number. -/
def uneg (x : BitVec w) : BitVec w := ~~~x + 1#w

def nextPermutation (x : BitVec w) : BitVec w :=
  let t := (x ||| (x - 1#w)) + 1#w
  t ||| ((((t &&& uneg t) / (x &&& uneg x)) >>> 1) - 1#w)

theorem toNat_uneg (hx : x.toNat ≠ 0) : (uneg x).toNat = 2 ^ w - x.toNat := by
  have hlt := x.isLt
  rw [uneg, ← BitVec.neg_eq_not_add, BitVec.toNat_neg, Nat.mod_eq_of_lt (by omega)]

/-- The lowest one of a word. -/
theorem toNat_and_uneg (hx : x.toNat = 2 ^ (i + 1) * H + 2 ^ i) : (x &&& uneg x).toNat = 2 ^ i := by
  have hpos : 0 < 2 ^ i := Nat.two_pow_pos i
  rw [BitVec.toNat_and, toNat_uneg (by omega)]
  exact and_neg hx x.isLt

theorem toNat_pred (hx : x.toNat ≠ 0) : (x - 1#w).toNat = x.toNat - 1 := by
  have hlt := x.isLt
  have hw : 0 < w := by
    by_contra h0
    obtain rfl : w = 0 := by omega
    omega
  rw [BitVec.toNat_sub_of_le, BitVec.toNat_one hw]
  rw [BitVec.le_def, BitVec.toNat_one hw]
  omega

/-- The one that is carried out of the run stays in the word. -/
theorem carry_lt (hj : j < w) (hx : 2 ^ (j + 1) * H < 2 ^ w) :
    2 ^ (j + 1) * H + 2 ^ (j + 1) ≤ 2 ^ w := by
  obtain ⟨d, rfl⟩ : ∃ d, w = j + 1 + d := ⟨w - (j + 1), by omega⟩
  rw [pow_add 2 (j + 1) d] at hx ⊢
  have hH : H < 2 ^ d := Nat.lt_of_mul_lt_mul_left hx
  calc 2 ^ (j + 1) * H + 2 ^ (j + 1) = 2 ^ (j + 1) * (H + 1) := by ring
    _ ≤ 2 ^ (j + 1) * 2 ^ d := Nat.mul_le_mul_left _ hH

/-- The zero above the run becomes a one, the other ones go to the bottom. -/
theorem toNat_nextPermutation (hij : i < j) (hj : j < w)
    (hx : x.toNat = 2 ^ (j + 1) * H + (2 ^ j - 2 ^ i)) :
    (nextPermutation x).toNat = 2 ^ (j + 1) * H + 2 ^ j + (2 ^ (j - i - 1) - 1) := by
  have hxw := x.isLt
  have hi : 0 < 2 ^ i := Nat.two_pow_pos i
  have hlt : 2 ^ i < 2 ^ j := Nat.pow_lt_pow_right (by decide) hij
  have hsucc : 2 ^ (j + 1) = 2 ^ j * 2 := pow_succ 2 j
  have hcarry : 2 ^ (j + 1) * H + 2 ^ (j + 1) ≤ 2 ^ w := carry_lt hj (by omega)
  let t := (x ||| (x - 1#w)) + 1#w
  have ht : t.toNat = 2 ^ (j + 1) * H + 2 ^ j := by
    have hor : (x ||| (x - 1#w)).toNat = 2 ^ (j + 1) * H + (2 ^ j - 1) := by
      rw [BitVec.toNat_or, toNat_pred (by omega)]
      exact run_or_pred hij hx
    rw [BitVec.toNat_add, hor, BitVec.toNat_one (by omega), Nat.mod_eq_of_lt] <;> omega
  have hlow : (t &&& uneg t).toNat = 2 ^ j := toNat_and_uneg ht
  have hlow' : (x &&& uneg x).toNat = 2 ^ i := by
    -- the run ends in a one
    obtain ⟨d, rfl⟩ : ∃ d, j = i + 1 + d := ⟨j - i - 1, by omega⟩
    refine toNat_and_uneg (H := 2 ^ (d + 1) * H + (2 ^ d - 1)) ?_
    rw [hx]
    have hd : 0 < 2 ^ d := Nat.two_pow_pos d
    have h₁ : 2 ^ (i + 1 + d) = 2 ^ (i + 1) * 2 ^ d := pow_add 2 (i + 1) d
    have h₂ : 2 ^ (i + 1 + d + 1) * H = 2 ^ (i + 1) * (2 ^ (d + 1) * H) := by ring
    have h₃ : 2 ^ (i + 1) * (2 ^ d - 1) = 2 ^ (i + 1) * 2 ^ d - 2 ^ (i + 1) := by
      rw [Nat.mul_sub, Nat.mul_one]
    have h₄ : 2 ^ (i + 1) = 2 ^ i * 2 := pow_succ 2 i
    have h₅ : 2 ^ (i + 1) ≤ 2 ^ (i + 1) * 2 ^ d := Nat.le_mul_of_pos_right _ hd
    rw [Nat.mul_add, h₂, h₃, h₁]
    omega
  have hquot : (((t &&& uneg t) / (x &&& uneg x)) >>> 1).toNat = 2 ^ (j - i - 1) := by
    rw [BitVec.toNat_ushiftRight, BitVec.toNat_udiv, hlow, hlow', Nat.pow_div hij.le (by decide),
      Nat.shiftRight_one]
    obtain ⟨d, hd⟩ : ∃ d, j - i = d + 1 := ⟨j - i - 1, by omega⟩
    rw [hd, pow_succ, Nat.mul_div_cancel _ (by decide), Nat.add_sub_cancel]
  have hones : 2 ^ (j - i - 1) - 1 < 2 ^ j := by
    have := Nat.pow_le_pow_right (n := 2) (by decide) (show j - i - 1 ≤ j by omega)
    have := Nat.two_pow_pos (j - i - 1)
    omega
  have hpos := Nat.two_pow_pos (j - i - 1)
  show (t ||| ((((t &&& uneg t) / (x &&& uneg x)) >>> 1) - 1#w)).toNat = _
  rw [BitVec.toNat_or, toNat_pred (by omega), hquot, ht]
  have hmul : 2 ^ (j + 1) * H + 2 ^ j = 2 ^ j * (2 * H + 1) := by ring
  rw [hmul, Nat.two_pow_add_eq_or_of_lt hones]

/-- There is no way back below a power of two. -/
theorem le_nextPermutation (hn : n < w) (hx : 2 ^ n ≤ x.toNat) :
    2 ^ n ≤ (nextPermutation x).toNat := by
  have hxw := x.isLt
  have hpos : 0 < 2 ^ n := Nat.two_pow_pos n
  let t := (x ||| (x - 1#w)) + 1#w
  show 2 ^ n ≤ (t ||| ((((t &&& uneg t) / (x &&& uneg x)) >>> 1) - 1#w)).toNat
  rw [BitVec.toNat_or]
  have hle : x.toNat ≤ (x ||| (x - 1#w)).toNat := by
    rw [BitVec.toNat_or]
    exact Nat.left_le_or
  by_cases hmax : (x ||| (x - 1#w)).toNat + 1 < 2 ^ w
  · have ht : t.toNat = (x ||| (x - 1#w)).toNat + 1 := by
      rw [BitVec.toNat_add, BitVec.toNat_one (by omega), Nat.mod_eq_of_lt hmax]
    refine le_trans ?_ Nat.left_le_or
    omega
  · -- nothing is left but ones
    have ht : t = 0#w := by
      apply BitVec.eq_of_toNat_eq
      have := (x ||| (x - 1#w)).isLt
      rw [BitVec.toNat_add, BitVec.toNat_one (by omega),
        show (x ||| (x - 1#w)).toNat + 1 = 2 ^ w by omega, Nat.mod_self]
      simp
    refine le_trans ?_ Nat.right_le_or
    rw [ht]
    have hzero : (((0#w &&& uneg 0#w) / (x &&& uneg x)) >>> 1) = 0#w := by
      rw [BitVec.zero_and, BitVec.zero_udiv]
      simp
    rw [hzero, BitVec.zero_sub, BitVec.toNat_neg, BitVec.toNat_one (by omega)]
    have := Nat.pow_lt_pow_right (a := 2) (by decide) hn
    rw [Nat.mod_eq_of_lt (by omega)]
    omega

end Next

/-! ## Combinations -/

/-- The numbers below `2 ^ n` with `k` ones. -/
def combinations : ℕ → ℕ → List ℕ
  | _, 0 => [0]
  | 0, _ + 1 => []
  | n + 1, k + 1 => combinations n (k + 1) ++ (combinations n k).map (2 ^ n + ·)

/-- The number of ones below `2 ^ n`. -/
def ones (n a : ℕ) : ℕ := (List.range n).countP fun i => a.testBit i

section Combinations

variable {n k a w : ℕ}

theorem ones_succ : ones (n + 1) a = ones n a + if a.testBit n then 1 else 0 := by
  rw [ones, List.range_succ, List.countP_append, ones]
  simp

theorem ones_two_pow_add (ha : a < 2 ^ n) : ones (n + 1) (2 ^ n + a) = ones n a + 1 := by
  have hself : (2 ^ n + a).testBit n = true := by
    rw [Nat.testBit_two_pow_add_eq, Nat.testBit_lt_two_pow ha]
    rfl
  rw [ones_succ, hself, if_pos rfl, ones, ones]
  congr 1
  refine List.countP_congr fun i hi => ?_
  rw [Nat.testBit_two_pow_add_gt (List.mem_range.mp hi)]

theorem ones_lt (ha : a < 2 ^ n) : ones (n + 1) a = ones n a := by
  rw [ones_succ, Nat.testBit_lt_two_pow ha]
  simp

theorem ones_zero (ha : a < 2 ^ n) (h : ones n a = 0) : a = 0 := by
  rw [ones, List.countP_eq_zero] at h
  apply Nat.eq_of_testBit_eq
  intro i
  rw [Nat.zero_testBit]
  by_cases hi : i < n
  · simpa using h i (List.mem_range.mpr hi)
  · exact Nat.testBit_lt_two_pow (ha.trans_le (Nat.pow_le_pow_right (by decide) (by omega)))

theorem mem_combinations : a ∈ combinations n k ↔ a < 2 ^ n ∧ ones n a = k := by
  induction n generalizing k a with
  | zero =>
    cases k with
    | zero => simp [combinations, ones]
    | succ k => simp [combinations, ones]
  | succ n ih =>
    cases k with
    | zero =>
      simp only [combinations, List.mem_singleton]
      constructor
      · rintro rfl
        exact ⟨Nat.two_pow_pos _, by simp [ones]⟩
      · exact fun h => ones_zero h.1 h.2
    | succ k =>
      have hsucc : 2 ^ (n + 1) = 2 ^ n * 2 := pow_succ 2 n
      simp only [combinations, List.mem_append, List.mem_map, ih]
      constructor
      · rintro (⟨hlt, hones⟩ | ⟨b, ⟨hlt, hones⟩, rfl⟩)
        · exact ⟨by omega, (ones_lt hlt).trans hones⟩
        · exact ⟨by omega, by rw [ones_two_pow_add hlt, hones]⟩
      · rintro ⟨hlt, hones⟩
        by_cases ha : a < 2 ^ n
        · exact Or.inl ⟨ha, (ones_lt ha).symm.trans hones⟩
        · obtain ⟨b, rfl⟩ : ∃ b, a = 2 ^ n + b := ⟨a - 2 ^ n, by omega⟩
          rw [ones_two_pow_add (by omega)] at hones
          exact Or.inr ⟨b, ⟨by omega, by omega⟩, rfl⟩

theorem pairwise_combinations : (combinations n k).Pairwise (· < ·) := by
  induction n generalizing k with
  | zero => cases k <;> simp [combinations]
  | succ n ih =>
    cases k with
    | zero => simp [combinations]
    | succ k =>
      rw [combinations, List.pairwise_append]
      refine ⟨ih, List.pairwise_map.mpr (ih.imp fun hlt => by omega), fun a ha b hb => ?_⟩
      obtain ⟨c, -, rfl⟩ := List.mem_map.mp hb
      have halt := (mem_combinations.mp ha).1
      omega

theorem combinations_eq_nil (h : n < k) : combinations n k = [] := by
  induction n generalizing k with
  | zero =>
    cases k with
    | zero => omega
    | succ k => rfl
  | succ n ih =>
    cases k with
    | zero => omega
    | succ k => rw [combinations, ih (by omega), ih (by omega)]; rfl

theorem head?_combinations (h : k ≤ n) : (combinations n k).head? = some (2 ^ k - 1) := by
  induction n generalizing k with
  | zero =>
    obtain rfl : k = 0 := by omega
    rfl
  | succ n ih =>
    cases k with
    | zero => rfl
    | succ k =>
      rw [combinations, List.head?_append]
      by_cases hk : k + 1 ≤ n
      · rw [ih hk]
        rfl
      · obtain rfl : k = n := by omega
        rw [combinations_eq_nil (by omega), List.head?_map, ih (by omega)]
        have hpos : 0 < 2 ^ k := Nat.two_pow_pos k
        have hsucc : 2 ^ (k + 1) = 2 ^ k * 2 := pow_succ 2 k
        simp only [List.head?_nil, Option.map_some, Option.none_or, Option.some.injEq]
        omega

theorem getLast?_combinations (h : k ≤ n) :
    (combinations n k).getLast? = some (2 ^ n - 2 ^ (n - k)) := by
  induction n generalizing k with
  | zero =>
    obtain rfl : k = 0 := by omega
    rfl
  | succ n ih =>
    cases k with
    | zero => simp [combinations]
    | succ k =>
      have hsucc : 2 ^ (n + 1) = 2 ^ n * 2 := pow_succ 2 n
      have hle : 2 ^ (n - k) ≤ 2 ^ n := Nat.pow_le_pow_right (by decide) (by omega)
      rw [combinations, List.getLast?_append, List.getLast?_map, ih (by omega)]
      simp only [Option.map_some, Option.some_or, Option.some.injEq]
      rw [Nat.add_sub_add_right]
      omega

/-- From a number to the next one. -/
def Next (w a b : ℕ) : Prop := (nextPermutation (BitVec.ofNat w a)).toNat = b

theorem toNat_ofNat_of_lt (hn : n ≤ w) (ha : a < 2 ^ n) : (BitVec.ofNat w a).toNat = a := by
  rw [BitVec.toNat_ofNat, Nat.mod_eq_of_lt]
  exact ha.trans_le (Nat.pow_le_pow_right (by decide) hn)

/-- From the last number out of the range. -/
theorem nextPermutation_last (hk : 0 < k) (hkn : k ≤ n) (hn : n < w) :
    Next w (2 ^ n - 2 ^ (n - k)) (2 ^ n + (2 ^ (k - 1) - 1)) := by
  have hlt : 2 ^ (n - k) < 2 ^ n := Nat.pow_lt_pow_right (by decide) (by omega)
  have hpos : 0 < 2 ^ (n - k) := Nat.two_pow_pos _
  have hx : (BitVec.ofNat w (2 ^ n - 2 ^ (n - k))).toNat =
      2 ^ (n + 1) * 0 + (2 ^ n - 2 ^ (n - k)) := by
    rw [toNat_ofNat_of_lt hn.le (by omega)]
    omega
  rw [Next, toNat_nextPermutation (by omega) hn hx, show n - (n - k) - 1 = k - 1 by omega]
  omega

/-- A one far above makes no difference. -/
theorem Next.two_pow_add {b : ℕ} (h : Next w a b) (hn : n < w) (ha : a ≠ 0) (han : a < 2 ^ n)
    (hb : b < 2 ^ n) : Next w (2 ^ n + a) (2 ^ n + b) := by
  obtain ⟨i, j, H, hij, hrun⟩ := exists_run ha
  have hi : 2 ^ i < 2 ^ j := Nat.pow_lt_pow_right (by decide) hij
  have hx : (BitVec.ofNat w a).toNat = 2 ^ (j + 1) * H + (2 ^ j - 2 ^ i) := by
    rw [toNat_ofNat_of_lt hn.le han, hrun]
  have hjw : j < w := by
    have hjn : j - 1 < n := by
      rw [← Nat.pow_lt_pow_iff_right (a := 2) (by decide)]
      have hsucc : 2 ^ j = 2 ^ (j - 1) * 2 := by
        rw [← pow_succ, Nat.sub_add_cancel (by omega)]
      have hle : 2 ^ i ≤ 2 ^ (j - 1) := Nat.pow_le_pow_right (by decide) (by omega)
      omega
    omega
  rw [Next, toNat_nextPermutation hij hjw hx] at h
  have hjn : j < n := by
    rw [← Nat.pow_lt_pow_iff_right (a := 2) (by decide)]
    omega
  obtain ⟨d, rfl⟩ : ∃ d, n = j + 1 + d := ⟨n - (j + 1), by omega⟩
  have hpow : 2 ^ (j + 1 + d) = 2 ^ (j + 1) * 2 ^ d := pow_add 2 (j + 1) d
  have hx' : (BitVec.ofNat w (2 ^ (j + 1 + d) + a)).toNat =
      2 ^ (j + 1) * (2 ^ d + H) + (2 ^ j - 2 ^ i) := by
    have hsucc : 2 ^ (j + 1 + d + 1) = 2 ^ (j + 1 + d) * 2 := pow_succ 2 _
    rw [toNat_ofNat_of_lt (n := j + 1 + d + 1) hn (by omega), hrun, hpow]
    ring
  rw [Next, toNat_nextPermutation hij hjw hx', ← h, hpow]
  ring

theorem ne_zero_of_mem_combinations (ha : a ∈ combinations n k) (hk : 0 < k) : a ≠ 0 := by
  rintro rfl
  have hones : ones n 0 = 0 := by simp [ones]
  rw [(mem_combinations.mp ha).2] at hones
  omega

theorem isChain_combinations (hk : 0 < k) (hn : n ≤ w) :
    (combinations n k).IsChain (Next w) := by
  induction n generalizing k with
  | zero =>
    obtain ⟨k, rfl⟩ : ∃ k', k = k' + 1 := ⟨k - 1, by omega⟩
    exact .nil
  | succ n ih =>
    obtain ⟨k, rfl⟩ : ∃ k', k = k' + 1 := ⟨k - 1, by omega⟩
    rw [combinations, List.isChain_append]
    refine ⟨ih (by omega) (by omega), ?_, fun a ha b hb => ?_⟩
    · -- with the top bit set
      rw [List.isChain_map]
      cases k with
      | zero => simp [combinations]
      | succ k =>
        refine (ih (k := k + 1) (by omega) (by omega)).imp_of_mem_imp ?_
        intro a b ha hb hab
        exact hab.two_pow_add (by omega) (ne_zero_of_mem_combinations ha (by omega))
          (mem_combinations.mp ha).1 (mem_combinations.mp hb).1
    · by_cases hkn : k + 1 ≤ n
      · rw [getLast?_combinations hkn] at ha
        rw [List.head?_map, head?_combinations (by omega)] at hb
        obtain rfl := Option.some.inj ha
        obtain rfl := Option.some.inj hb
        exact nextPermutation_last (by omega) hkn (by omega)
      · rw [combinations_eq_nil (by omega)] at ha
        cases ha

/-- The one that comes after it in the list. -/
theorem Next.of_suffix {b : ℕ} {as : List ℕ} (hk : 0 < k) (hn : n ≤ w)
    (h : a :: b :: as <:+ combinations n k) : Next w a b := by
  have hchain := (isChain_combinations hk hn).suffix h
  rw [List.isChain_cons_cons] at hchain
  exact hchain.1

/-- Nothing comes after it in the list. -/
theorem two_pow_le_of_suffix (hk : 0 < k) (hkn : k ≤ n) (hn : n < w)
    (h : [a] <:+ combinations n k) : 2 ^ n ≤ (nextPermutation (BitVec.ofNat w a)).toNat := by
  obtain ⟨pre, hpre⟩ := h
  have hlast := getLast?_combinations hkn
  rw [← hpre, List.getLast?_concat] at hlast
  obtain rfl := Option.some.inj hlast
  have hnext : (nextPermutation (BitVec.ofNat w (2 ^ n - 2 ^ (n - k)))).toNat = _ :=
    nextPermutation_last hk hkn hn
  omega

end Combinations

end SmartCore
