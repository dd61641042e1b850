import SmartCore.Util.BitsetEnumerator

/-!
# Permutations, with what can go wrong

The constructor admits choices from 64 bits, but then `operator bool` shifts by 64, which is
undefined. Whatever `one << 64` comes to, the loop does not show the combinations: if it is zero,
there is no end, and otherwise some of them are not shown (`enumeratesCombinations_iff`). Below 64 all
combinations are shown, in their order, and no assertion or division fails.
-/

namespace SmartCore.Util

inductive Fault where
  | assertion
  | divisionByZero
  | running
deriving DecidableEq, Repr

/-- `bits.count()` -/
def count (bits : Bits) : ℕ := ones 64 bits.toNat

structure Permutations where
  mCur : Bits
  mSet : ℕ
  mTot : ℕ

namespace Permutations

/-- The constructor. -/
def build (nSet nTotal : ℕ) : Except Fault Permutations :=
  if nSet ≤ nTotal ∧ (0 < nSet ∧ nSet ≤ 64) ∧ 0 < nTotal ∧ nTotal ≤ 64 then
    .ok ⟨lowOnes nSet, nSet, nTotal⟩
  else .error .assertion

def reset (p : Permutations) : Permutations := { p with mCur := lowOnes p.mSet }

/-- `one << n`, which is undefined from 64 on. -/
def oneShl (beyond : Bits) (n : ℕ) : Bits := if n < 64 then 1#64 <<< n else beyond

def bool (beyond : Bits) (p : Permutations) : Bool :=
  p.mCur &&& ~~~(oneShl beyond p.mTot - 1#64) == 0#64

def deref (p : Permutations) : Except Fault Bits :=
  if count p.mCur = p.mSet then .ok p.mCur else .error .assertion

def next (p : Permutations) : Except Fault Permutations :=
  let t := (p.mCur ||| (p.mCur - 1#64)) + 1#64
  let divisor := p.mCur &&& uneg p.mCur
  if divisor = 0#64 then .error .divisionByZero
  else .ok { p with mCur := t ||| ((((t &&& uneg t) / divisor) >>> 1) - 1#64) }

/-- What a loop sees that is stopped after so many rounds. -/
def collect (beyond : Bits) : ℕ → Permutations → Except Fault (List Bits)
  | 0, p => if p.bool beyond then .error .running else .ok []
  | n + 1, p =>
    if p.bool beyond then do
      let bits ← p.deref
      let p ← p.next
      let rest ← collect beyond n p
      return bits :: rest
    else .ok []

/-- The words with `nSet` ones that are all among the low `nTotal` bits. -/
def IsCombination (nSet nTotal : ℕ) (bits : Bits) : Prop :=
  count bits = nSet ∧ ∀ i, nTotal ≤ i → bits.getLsbD i = false

/-- A loop from the state comes to its end without a fault, and shows each combination once, in
increasing order. -/
def Shows (beyond : Bits) (p : Permutations) : Prop :=
  ∃ n vs, p.collect beyond n = .ok vs ∧ vs.Pairwise (· < ·) ∧
    ∀ bits, bits ∈ vs ↔ IsCombination p.mSet p.mTot bits

variable {beyond : Bits} {p q : Permutations} {nSet nTotal n a : ℕ} {vs : List Bits}

theorem build_eq (hset : 0 < nSet) (hle : nSet ≤ nTotal) (htot : nTotal ≤ 64) :
    build nSet nTotal = .ok ⟨lowOnes nSet, nSet, nTotal⟩ := by
  rw [build, if_pos ⟨hle, ⟨hset, by omega⟩, by omega, htot⟩]

/-! ## A step -/

theorem next_eq (h : p.mCur &&& uneg p.mCur ≠ 0#64) :
    p.next = .ok { p with mCur := nextPermutation p.mCur } := by
  rw [next]
  exact if_neg h

/-- The lowest one of a word is not zero. -/
theorem and_uneg_ne_zero {x : Bits} (hx : x ≠ 0#64) : x &&& uneg x ≠ 0#64 := by
  have hx' : x.toNat ≠ 0 := by simpa [BitVec.toNat_eq] using hx
  obtain ⟨i, A, ⟨H, rfl⟩, hA⟩ := Nat.exists_eq_two_pow_mul_odd hx'
  have hsplit : x.toNat = 2 ^ (i + 1) * H + 2 ^ i := by
    rw [hA, pow_succ]
    ring
  intro h
  have hlow := toNat_and_uneg hsplit
  rw [h] at hlow
  exact absurd hlow.symm (Nat.two_pow_pos i).ne'

theorem next_of_ne_zero (h : p.mCur ≠ 0#64) :
    p.next = .ok { p with mCur := nextPermutation p.mCur } :=
  next_eq (and_uneg_ne_zero h)

theorem next_ok (h : p.next = .ok q) : q = { p with mCur := nextPermutation p.mCur } := by
  by_cases hzero : p.mCur &&& uneg p.mCur = 0#64
  · simp [next, hzero] at h
  · rw [next_eq hzero] at h
    exact (Except.ok.inj h).symm

theorem deref_eq {bits : Bits} (h : p.deref = .ok bits) : p.mCur = bits := by
  rw [deref] at h
  split_ifs at h
  exact Except.ok.inj h

theorem bind_ok {α β : Type} {x : Except Fault α} {f : α → Except Fault β} {b : β}
    (h : (x >>= f) = .ok b) : ∃ a, x = .ok a ∧ f a = .ok b := by
  cases x with
  | error e => cases h
  | ok a => exact ⟨a, rfl, h⟩

theorem bool_iff (htot : p.mTot < 64) : p.bool beyond = decide (p.mCur.toNat < 2 ^ p.mTot) := by
  rw [bool, oneShl, if_pos htot, below_iff htot]

/-! ## Combinations -/

theorem ones_eq_of_lt {m : ℕ} (ha : a < 2 ^ n) (hnm : n ≤ m) : ones m a = ones n a := by
  induction hnm with
  | refl => rfl
  | @step m hnm ih =>
    rw [ones_lt (ha.trans_le (Nat.pow_le_pow_right (by decide) hnm)), ih]

theorem count_ofNat (htot : nTotal ≤ 64) (ha : a < 2 ^ nTotal) :
    count (BitVec.ofNat 64 a) = ones nTotal a := by
  rw [count, toNat_ofNat_of_lt htot ha, ones_eq_of_lt ha htot]

/-- The bits above are zero if the word is small. -/
theorem high_zero_iff {bits : Bits} :
    (∀ i, nTotal ≤ i → bits.getLsbD i = false) ↔ bits.toNat < 2 ^ nTotal := by
  constructor
  · intro h
    exact Nat.lt_pow_two_of_testBit _ fun i hi => h i hi
  · intro h i hi
    exact Nat.testBit_lt_two_pow (h.trans_le (Nat.pow_le_pow_right (by decide) hi))

theorem isCombination_iff {bits : Bits} (htot : nTotal ≤ 64) :
    IsCombination nSet nTotal bits ↔
      bits ∈ (combinations nTotal nSet).map (BitVec.ofNat 64) := by
  rw [IsCombination, high_zero_iff, List.mem_map]
  constructor
  · rintro ⟨hcount, hlt⟩
    refine ⟨bits.toNat, mem_combinations.mpr ⟨hlt, ?_⟩, BitVec.ofNat_toNat ..⟩
    rw [← hcount, count, ones_eq_of_lt hlt htot]
  · rintro ⟨a, ha, rfl⟩
    obtain ⟨hlt, hones⟩ := mem_combinations.mp ha
    exact ⟨by rw [count_ofNat htot hlt, hones], by rwa [toNat_ofNat_of_lt htot hlt]⟩

theorem pairwise_words (htot : nTotal ≤ 64) :
    ((combinations nTotal nSet).map (BitVec.ofNat 64)).Pairwise (· < ·) := by
  rw [List.pairwise_map]
  refine pairwise_combinations.imp_of_mem ?_
  intro a b ha hb hab
  rw [BitVec.lt_def, toNat_ofNat_of_lt htot (mem_combinations.mp ha).1,
    toNat_ofNat_of_lt htot (mem_combinations.mp hb).1]
  exact hab

/-! ## Below 64 bits -/

/-- At a combination, the loop shows it and moves on. -/
theorem collect_step (ha : a ∈ combinations nTotal nSet) (hset : 0 < nSet) (htot : nTotal < 64) :
    collect beyond (n + 1) ⟨BitVec.ofNat 64 a, nSet, nTotal⟩ =
      (collect beyond n ⟨nextPermutation (BitVec.ofNat 64 a), nSet, nTotal⟩).map
        (BitVec.ofNat 64 a :: ·) := by
  obtain ⟨hlt, hones⟩ := mem_combinations.mp ha
  have htoNat := toNat_ofNat_of_lt htot.le hlt
  have hbool : (⟨BitVec.ofNat 64 a, nSet, nTotal⟩ : Permutations).bool beyond = true := by
    rw [bool_iff htot]
    simpa [htoNat] using hlt
  have hderef : (⟨BitVec.ofNat 64 a, nSet, nTotal⟩ : Permutations).deref =
      .ok (BitVec.ofNat 64 a) := if_pos ((count_ofNat htot.le hlt).trans hones)
  have hne : BitVec.ofNat 64 a ≠ 0#64 := by
    intro h0
    rw [h0] at htoNat
    exact ne_zero_of_mem_combinations ha hset htoNat.symm
  rw [collect, if_pos hbool, hderef, next_of_ne_zero hne]
  dsimp only [bind, Except.bind]
  cases collect beyond n ⟨nextPermutation (BitVec.ofNat 64 a), nSet, nTotal⟩ <;> rfl

/-- From one of the combinations, the loop shows it and those after it. -/
theorem collect_suffix (hset : 0 < nSet) (hle : nSet ≤ nTotal) (htot : nTotal < 64) {as : List ℕ}
    (hsuffix : a :: as <:+ combinations nTotal nSet) :
    collect beyond (as.length + 1) ⟨BitVec.ofNat 64 a, nSet, nTotal⟩ =
      .ok ((a :: as).map (BitVec.ofNat 64)) := by
  induction as generalizing a with
  | nil =>
    have hmem := hsuffix.subset List.mem_cons_self
    rw [List.length_nil, collect_step hmem hset htot]
    have hend : (⟨nextPermutation (BitVec.ofNat 64 a), nSet, nTotal⟩ : Permutations).bool beyond =
        false := by
      rw [bool_iff htot]
      simpa using two_pow_le_of_suffix hset hle htot hsuffix
    rw [collect, if_neg (by simp [hend])]
    rfl
  | cons b as ih =>
    have hmem := hsuffix.subset List.mem_cons_self
    have hnext : nextPermutation (BitVec.ofNat 64 a) = BitVec.ofNat 64 b := by
      apply BitVec.eq_of_toNat_eq
      have hb := (mem_combinations.mp (hsuffix.subset (show b ∈ a :: b :: as by simp))).1
      rw [toNat_ofNat_of_lt htot.le hb]
      exact Next.of_suffix hset htot.le hsuffix
    rw [List.length_cons, collect_step hmem hset htot, hnext,
      ih ((List.suffix_cons a _).trans hsuffix)]
    rfl

theorem shows_of_lt (hset : 0 < nSet) (hle : nSet ≤ nTotal) (htot : nTotal < 64) :
    Shows beyond ⟨lowOnes nSet, nSet, nTotal⟩ := by
  obtain ⟨as, has⟩ := List.head?_eq_some_iff.mp (head?_combinations hle)
  refine ⟨as.length + 1, (combinations nTotal nSet).map (BitVec.ofNat 64), ?_,
    pairwise_words htot.le, fun bits => (isCombination_iff htot.le).symm⟩
  rw [lowOnes_eq nSet (by omega), has]
  exact collect_suffix hset hle htot (by rw [has])

/-! ## At 64 bits -/

/-- What the loop has shown was shown while it had something to show, and it ended where it had
not. -/
theorem bool_of_collect (h : p.collect beyond n = .ok vs) :
    (∀ bits ∈ vs, bool beyond { p with mCur := bits } = true) ∧
      ∃ bits, bool beyond { p with mCur := bits } = false := by
  induction n generalizing p vs with
  | zero =>
    rw [collect] at h
    split_ifs at h with hbool
    obtain rfl := Except.ok.inj h
    exact ⟨by simp, p.mCur, by simpa using hbool⟩
  | succ n ih =>
    rw [collect] at h
    split_ifs at h with hbool
    · obtain ⟨bits, hderef, h⟩ := bind_ok h
      obtain ⟨q, hnext, h⟩ := bind_ok h
      obtain ⟨rest, hrest, hvs⟩ := bind_ok h
      obtain rfl := deref_eq hderef
      obtain rfl := next_ok hnext
      obtain rfl := Except.ok.inj hvs
      obtain ⟨hshown, hend⟩ := ih hrest
      refine ⟨?_, hend⟩
      intro bits hbits
      cases hbits with
      | head => exact hbool
      | tail _ hbits => exact hshown bits hbits
    · obtain rfl := Except.ok.inj h
      exact ⟨by simp, p.mCur, by simpa using hbool⟩

/-- Every bit is in a combination. -/
theorem exists_combination {i : ℕ} (hset : 0 < nSet) (hle : nSet ≤ nTotal) (htot : nTotal ≤ 64)
    (hi : i < nTotal) : ∃ bits, IsCombination nSet nTotal bits ∧ bits.getLsbD i = true := by
  have hlow (n k : ℕ) (hk : k ≤ n) : 2 ^ k - 1 < 2 ^ n ∧ ones n (2 ^ k - 1) = k :=
    mem_combinations.mp (List.mem_of_head? (head?_combinations hk))
  obtain ⟨k, rfl⟩ : ∃ k, nSet = k + 1 := ⟨nSet - 1, by omega⟩
  suffices ∃ a, a < 2 ^ nTotal ∧ ones nTotal a = k + 1 ∧ a.testBit i = true by
    obtain ⟨a, hlt, hones, hbit⟩ := this
    refine ⟨BitVec.ofNat 64 a, (isCombination_iff htot).mpr (List.mem_map.mpr
      ⟨a, mem_combinations.mpr ⟨hlt, hones⟩, rfl⟩), ?_⟩
    rw [BitVec.getLsbD, toNat_ofNat_of_lt htot hlt, hbit]
  by_cases hik : i < k + 1
  · obtain ⟨hlt, hones⟩ := hlow nTotal (k + 1) hle
    exact ⟨2 ^ (k + 1) - 1, hlt, hones, by rw [Nat.testBit_two_pow_sub_one]; simpa using hik⟩
  · -- the bit itself, and the others at the bottom
    obtain ⟨hlt, hones⟩ := hlow i k (by omega)
    have hsum : 2 ^ i + (2 ^ k - 1) < 2 ^ (i + 1) := by
      rw [pow_succ]
      omega
    refine ⟨2 ^ i + (2 ^ k - 1), hsum.trans_le (Nat.pow_le_pow_right (by decide) hi), ?_, ?_⟩
    · rw [ones_eq_of_lt hsum hi, ones_two_pow_add hlt, hones]
    · rw [Nat.testBit_two_pow_add_eq, Nat.testBit_lt_two_pow hlt]
      rfl

theorem not_shows (hset : 0 < nSet) (hle : nSet ≤ 64) :
    ¬ Shows beyond ⟨lowOnes nSet, nSet, 64⟩ := by
  rintro ⟨n, vs, hcollect, -, hmem⟩
  obtain ⟨hshown, bits, hend⟩ := bool_of_collect hcollect
  -- a bit that is not masked is in no combination
  have hmask : ~~~(oneShl beyond 64 - 1#64) = 0#64 := by
    apply BitVec.eq_of_getLsbD_eq
    intro i hi
    obtain ⟨word, hword, hbit⟩ := exists_combination hset hle (le_refl 64) hi
    have hbool := hshown word ((hmem word).mpr hword)
    have hand : word &&& ~~~(oneShl beyond 64 - 1#64) = 0#64 := by simpa [bool] using hbool
    have hbit' := congrArg (fun x : Bits => x.getLsbD i) hand
    simp only [BitVec.getLsbD_and, hbit, Bool.true_and] at hbit'
    exact hbit'
  simp [bool, hmask] at hend

end Permutations

open Permutations

/-- At the start and after each reset, the loop shows all combinations. -/
def EnumeratesCombinations (beyond : Bits) (nSet nTotal : ℕ) : Prop :=
  ∃ p, build nSet nTotal = .ok p ∧ p.Shows beyond ∧
    ∀ mCur, (reset { p with mCur := mCur }).Shows beyond

/-- All the combinations are shown, each once and in order, and no assertion or division fails, just
if the choice is not from 64 bits. -/
theorem enumeratesCombinations_iff (beyond : Bits) {nSet nTotal : ℕ} (hset : 1 ≤ nSet)
    (hle : nSet ≤ nTotal) (htot : nTotal ≤ 64) :
    EnumeratesCombinations beyond nSet nTotal ↔ nTotal < 64 := by
  rw [EnumeratesCombinations, build_eq hset hle htot]
  constructor
  · rintro ⟨p, hp, hshows, -⟩
    obtain rfl := Except.ok.inj hp
    by_contra hge
    obtain rfl : nTotal = 64 := by omega
    exact not_shows hset hle hshows
  · intro hlt
    have hshows : Shows beyond ⟨lowOnes nSet, nSet, nTotal⟩ := shows_of_lt hset hle hlt
    exact ⟨_, rfl, hshows, fun _ => hshows⟩

theorem enumeratesCombinations_four_six : EnumeratesCombinations 1#64 4 6 :=
  (enumeratesCombinations_iff 1#64 (by decide) (by decide) (by decide)).mpr (by decide)

/-- On a machine that takes the shift modulo 64, nothing is shown of the 64 single bits. -/
theorem not_enumeratesCombinations_one : build 1 64 = .ok ⟨1#64, 1, 64⟩ ∧
    collect 1#64 0 ⟨1#64, 1, 64⟩ = .ok [] ∧ ¬ EnumeratesCombinations 1#64 1 64 := by
  refine ⟨rfl, rfl, ?_⟩
  rintro ⟨p, hp, hshows, -⟩
  obtain rfl := Except.ok.inj hp
  exact not_shows (by decide) (by decide) hshows

end SmartCore.Util
