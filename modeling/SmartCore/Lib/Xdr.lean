import Mathlib.Algebra.Order.Ring.Nat
import Mathlib.Tactic.Common
import Mathlib.Tactic.Ring
import SmartCore.Lib.Words

/-!
# External data representation

A `Format` says how values of a type are written as bytes and read back. Reading takes the bytes of
one value from the front of a list. What is written of a value that fits is read as that value, in
front of any other bytes (`get_put`), and what is read fits (`fits_get`).

Formats are put together from unsigned integers, sequences of two, opaque data and arrays of
variable length; `conv` is for structures, enumerations and unions.

All of these are `Canonical`: nothing but what is written of a value is read as it.
-/

namespace SmartCore

abbrev Byte := Fin 256

structure Format (α : Type) where
  Fits : α → Prop
  put : α → List Byte
  get : List Byte → Option (α × List Byte)
  get_put : ∀ a rest, Fits a → get (put a ++ rest) = some (a, rest)
  fits_get : ∀ bytes a rest, get bytes = some (a, rest) → Fits a

namespace Format

variable {α β : Type}

/-! ## Unsigned integers -/

/-- The last `k` digits, the highest first. -/
def putNat : ℕ → ℕ → List Byte
  | 0, _ => []
  | k + 1, n => ⟨n / 256 ^ k % 256, Nat.mod_lt _ (by decide)⟩ :: putNat k n

def getNat : ℕ → ℕ → List Byte → Option (ℕ × List Byte)
  | 0, n, bytes => some (n, bytes)
  | _ + 1, _, [] => none
  | k + 1, n, b :: bytes => getNat k (n * 256 + b.val) bytes

theorem length_putNat (k n : ℕ) : (putNat k n).length = k := by
  induction k with
  | zero => rfl
  | succ k ih => rw [putNat, List.length_cons, ih]

theorem getNat_putNat (k n m : ℕ) (rest : List Byte) :
    getNat k m (putNat k n ++ rest) = some (m * 256 ^ k + n % 256 ^ k, rest) := by
  induction k generalizing m with
  | zero =>
    show some (m, rest) = _
    rw [pow_zero, mul_one, Nat.mod_one, add_zero]
  | succ k ih =>
    show getNat k (m * 256 + n / 256 ^ k % 256) (putNat k n ++ rest) = _
    rw [ih, pow_succ, Nat.mod_mul]
    congr 2
    ring

theorem lt_of_getNat {k m n : ℕ} {bytes rest : List Byte}
    (h : getNat k m bytes = some (n, rest)) : n < (m + 1) * 256 ^ k := by
  induction k generalizing m bytes with
  | zero =>
    obtain ⟨rfl, -⟩ := Prod.mk.inj (Option.some.inj h)
    rw [pow_zero, mul_one]
    exact Nat.lt_succ_self m
  | succ k ih =>
    cases bytes with
    | nil => cases h
    | cons b bytes =>
      have hb : m * 256 + b.val + 1 ≤ (m + 1) * 256 := by
        have := b.isLt
        omega
      calc n < (m * 256 + b.val + 1) * 256 ^ k := ih h
        _ ≤ (m + 1) * 256 * 256 ^ k := Nat.mul_le_mul_right _ hb
        _ = (m + 1) * 256 ^ (k + 1) := by ring

/-- An unsigned integer of `k` bytes. -/
def uint (k : ℕ) : Format ℕ where
  Fits n := n < 256 ^ k
  put := putNat k
  get := getNat k 0
  get_put n rest h := by
    rw [getNat_putNat, zero_mul, zero_add, Nat.mod_eq_of_lt h]
  fits_get _ _ _ h := by
    have := lt_of_getNat h
    rwa [zero_add, one_mul] at this

/-! ## Sequences -/

/-- One value after the other. -/
def seq (f : Format α) (g : Format β) : Format (α × β) where
  Fits x := f.Fits x.1 ∧ g.Fits x.2
  put x := f.put x.1 ++ g.put x.2
  get bytes := do
    let (a, bytes) ← f.get bytes
    let (b, bytes) ← g.get bytes
    return ((a, b), bytes)
  get_put x rest h := by
    rw [List.append_assoc, f.get_put _ _ h.1]
    show (g.get (g.put x.2 ++ rest)).bind _ = _
    rw [g.get_put _ _ h.2]
    rfl
  fits_get bytes x rest h := by
    obtain ⟨⟨a, bytes'⟩, ha, h⟩ := Option.bind_eq_some_iff.mp h
    obtain ⟨⟨b, bytes''⟩, hb, h⟩ := Option.bind_eq_some_iff.mp h
    cases h
    exact ⟨f.fits_get _ _ _ ha, g.fits_get _ _ _ hb⟩

/-- Values that stand for values of another format; not all of those need to have one. -/
def conv (f : Format α) (ofRaw : α → Option β) (raw : β → α)
    (ofRaw_raw : ∀ b, ofRaw (raw b) = some b) (raw_ofRaw : ∀ a b, ofRaw a = some b → raw b = a) :
    Format β where
  Fits b := f.Fits (raw b)
  put b := f.put (raw b)
  get bytes := do
    let (a, bytes) ← f.get bytes
    return (← ofRaw a, bytes)
  get_put b rest h := by
    rw [f.get_put _ _ h]
    show (ofRaw (raw b)).bind _ = _
    rw [ofRaw_raw]
    rfl
  fits_get bytes b rest h := by
    obtain ⟨⟨a, bytes'⟩, ha, h⟩ := Option.bind_eq_some_iff.mp h
    obtain ⟨b', hb, h⟩ := Option.bind_eq_some_iff.mp h
    cases h
    rw [raw_ofRaw a b hb]
    exact f.fits_get _ _ _ ha

/-! ## Variable length -/

/-- As many values as there are. -/
def getMany (f : Format α) : ℕ → List Byte → Option (List α × List Byte)
  | 0, bytes => some ([], bytes)
  | n + 1, bytes => do
    let (a, bytes) ← f.get bytes
    let (l, bytes) ← getMany f n bytes
    return (a :: l, bytes)

theorem getMany_put {f : Format α} {l : List α} (h : ∀ a ∈ l, f.Fits a) (rest : List Byte) :
    getMany f l.length (l.flatMap f.put ++ rest) = some (l, rest) := by
  induction l with
  | nil => rfl
  | cons a l ih =>
    obtain ⟨ha, hl⟩ := List.forall_mem_cons.mp h
    rw [List.flatMap_cons, List.append_assoc, List.length_cons, getMany, f.get_put a _ ha]
    show (getMany f l.length (l.flatMap f.put ++ rest)).bind _ = _
    rw [ih hl]
    rfl

theorem fits_of_getMany {f : Format α} {n : ℕ} {bytes rest : List Byte} {l : List α}
    (h : getMany f n bytes = some (l, rest)) : l.length = n ∧ ∀ a ∈ l, f.Fits a := by
  induction n generalizing bytes l with
  | zero =>
    cases h
    exact ⟨rfl, nofun⟩
  | succ n ih =>
    obtain ⟨⟨a, bytes'⟩, ha, h⟩ := Option.bind_eq_some_iff.mp h
    obtain ⟨⟨l', bytes''⟩, hl, h⟩ := Option.bind_eq_some_iff.mp h
    cases h
    obtain ⟨hlength, hfits⟩ := ih hl
    refine ⟨congrArg (· + 1) hlength, ?_⟩
    exact List.forall_mem_cons.mpr ⟨f.fits_get _ _ _ ha, hfits⟩

/-- An array of at most `max` elements, after their number. -/
def array (max : ℕ) (f : Format α) : Format (List α) where
  Fits l := l.length < 256 ^ 4 ∧ l.length ≤ max ∧ ∀ a ∈ l, f.Fits a
  put l := putNat 4 l.length ++ l.flatMap f.put
  get bytes := do
    let (n, bytes) ← (uint 4).get bytes
    if n ≤ max then getMany f n bytes else none
  get_put l rest h := by
    rw [List.append_assoc]
    show ((uint 4).get ((uint 4).put l.length ++ _)).bind _ = _
    rw [(uint 4).get_put _ _ h.1]
    exact (if_pos h.2.1).trans (getMany_put h.2.2 rest)
  fits_get bytes l rest h := by
    obtain ⟨⟨n, bytes'⟩, hn, h⟩ := Option.bind_eq_some_iff.mp h
    dsimp only at h
    split_ifs at h with hmax
    obtain ⟨rfl, hfits⟩ := fits_of_getMany h
    exact ⟨(uint 4).fits_get _ _ _ hn, hmax, hfits⟩

/-- The zeros that fill up a block of four. -/
def padding (n : ℕ) : List Byte := List.replicate ((4 - n % 4) % 4) 0

/-- At most `max` bytes, filled up with zeros. -/
def bytes (max : ℕ) : Format (List Byte) where
  Fits l := l.length < 256 ^ 4 ∧ l.length ≤ max
  put l := putNat 4 l.length ++ (l ++ padding l.length)
  get input := do
    let (n, input) ← (uint 4).get input
    if n ≤ max ∧ n ≤ input.length ∧ padding n <+: input.drop n then
      return (input.take n, (input.drop n).drop (padding n).length)
    else none
  get_put l rest h := by
    rw [List.append_assoc, List.append_assoc]
    show ((uint 4).get ((uint 4).put l.length ++ _)).bind _ = _
    rw [(uint 4).get_put _ _ h.1]
    dsimp only [Option.bind_some]
    rw [List.drop_left, List.take_left, List.drop_left, if_pos]
    · rfl
    · refine ⟨h.2, ?_, List.prefix_append _ _⟩
      rw [List.length_append]
      exact Nat.le_add_right _ _
  fits_get input l rest h := by
    obtain ⟨⟨n, input'⟩, hn, h⟩ := Option.bind_eq_some_iff.mp h
    dsimp only at h
    split_ifs at h with hif
    cases h
    rw [List.length_take_of_le hif.2.1]
    exact ⟨(uint 4).fits_get _ _ _ hn, hif.1⟩

/-! ## Whole values -/

def xdrToOpaque (f : Format α) (a : α) : List Byte := f.put a

/-- All bytes have to be read. -/
def xdrFromOpaque (f : Format α) (input : List Byte) : Option α :=
  match f.get input with
  | some (a, []) => some a
  | _ => none

@[simp] theorem xdrFromOpaque_xdrToOpaque (f : Format α) {a : α} (h : f.Fits a) :
    f.xdrFromOpaque (f.xdrToOpaque a) = some a := by
  have hget := f.get_put a [] h
  rw [List.append_nil] at hget
  rw [xdrFromOpaque, xdrToOpaque, hget]

theorem fits_of_xdrFromOpaque (f : Format α) {input : List Byte} {a : α}
    (h : f.xdrFromOpaque input = some a) : f.Fits a := by
  unfold xdrFromOpaque at h
  split at h
  · rename_i a' hget
    obtain rfl := Option.some.inj h
    exact f.fits_get _ _ _ hget
  · cases h

/-! ## One way to write a value -/

/-- What is read is what is written of the value. -/
def Canonical (f : Format α) : Prop :=
  ∀ input a rest, f.get input = some (a, rest) → f.put a ++ rest = input

theorem le_of_getNat {k m n : ℕ} {input rest : List Byte}
    (h : getNat k m input = some (n, rest)) : m * 256 ^ k ≤ n := by
  induction k generalizing m input with
  | zero =>
    obtain ⟨rfl, -⟩ := Prod.mk.inj (Option.some.inj h)
    rw [pow_zero, mul_one]
  | succ k ih =>
    cases input with
    | nil => cases h
    | cons b input =>
      calc m * 256 ^ (k + 1) = m * 256 * 256 ^ k := by ring
        _ ≤ (m * 256 + b.val) * 256 ^ k := Nat.mul_le_mul_right _ (Nat.le_add_right _ _)
        _ ≤ n := ih h

theorem putNat_of_getNat {k m n : ℕ} {input rest : List Byte}
    (h : getNat k m input = some (n, rest)) : putNat k n ++ rest = input := by
  induction k generalizing m input with
  | zero =>
    obtain ⟨-, rfl⟩ := Prod.mk.inj (Option.some.inj h)
    rfl
  | succ k ih =>
    cases input with
    | nil => cases h
    | cons b input =>
      have hrest : getNat k (m * 256 + b.val) input = some (n, rest) := h
      have hdiv : n / 256 ^ k = m * 256 + b.val :=
        Nat.div_eq_of_lt_le (le_of_getNat hrest) (lt_of_getNat hrest)
      have hdigit : (⟨n / 256 ^ k % 256, Nat.mod_lt _ (by decide)⟩ : Byte) = b := by
        apply Fin.ext
        show n / 256 ^ k % 256 = b.val
        rw [hdiv]
        have hlt := b.isLt
        omega
      rw [putNat, hdigit, List.cons_append, ih hrest]

theorem canonical_uint (k : ℕ) : Canonical (uint k) := fun _ _ _ h => putNat_of_getNat h

theorem Canonical.seq {f : Format α} {g : Format β} (hf : Canonical f) (hg : Canonical g) :
    Canonical (f.seq g) := by
  intro input x rest h
  obtain ⟨⟨a, input'⟩, ha, h⟩ := Option.bind_eq_some_iff.mp h
  obtain ⟨⟨b, input''⟩, hb, h⟩ := Option.bind_eq_some_iff.mp h
  cases h
  show (f.put a ++ g.put b) ++ rest = input
  rw [List.append_assoc, hg _ _ _ hb, hf _ _ _ ha]

theorem Canonical.conv {f : Format α} (hf : Canonical f) {ofRaw : α → Option β} {raw : β → α}
    (ofRaw_raw : ∀ b, ofRaw (raw b) = some b) (raw_ofRaw : ∀ a b, ofRaw a = some b → raw b = a) :
    Canonical (f.conv ofRaw raw ofRaw_raw raw_ofRaw) := by
  intro input b rest h
  obtain ⟨⟨a, input'⟩, ha, h⟩ := Option.bind_eq_some_iff.mp h
  obtain ⟨b', hb, h⟩ := Option.bind_eq_some_iff.mp h
  cases h
  show f.put (raw b) ++ rest = input
  rw [raw_ofRaw a b hb]
  exact hf _ _ _ ha

theorem put_of_getMany {f : Format α} (hf : Canonical f) {n : ℕ} {input rest : List Byte}
    {l : List α} (h : getMany f n input = some (l, rest)) : l.flatMap f.put ++ rest = input := by
  induction n generalizing input l with
  | zero =>
    cases h
    rfl
  | succ n ih =>
    obtain ⟨⟨a, input'⟩, ha, h⟩ := Option.bind_eq_some_iff.mp h
    obtain ⟨⟨l', input''⟩, hl, h⟩ := Option.bind_eq_some_iff.mp h
    cases h
    rw [List.flatMap_cons, List.append_assoc, ih hl, hf _ _ _ ha]

theorem Canonical.array {f : Format α} (hf : Canonical f) (max : ℕ) :
    Canonical (f.array max) := by
  intro input l rest h
  obtain ⟨⟨n, input'⟩, hn, h⟩ := Option.bind_eq_some_iff.mp h
  dsimp only at h
  split_ifs at h
  obtain ⟨rfl, -⟩ := fits_of_getMany h
  show (putNat 4 l.length ++ l.flatMap f.put) ++ rest = input
  rw [List.append_assoc, put_of_getMany hf h]
  exact canonical_uint 4 _ _ _ hn

theorem canonical_bytes (max : ℕ) : Canonical (bytes max) := by
  intro input l rest h
  obtain ⟨⟨n, input'⟩, hn, h⟩ := Option.bind_eq_some_iff.mp h
  dsimp only at h
  split_ifs at h with hif
  obtain ⟨-, hlen, hpad⟩ := hif
  cases h
  show (putNat 4 (input'.take n).length ++ (input'.take n ++ padding (input'.take n).length)) ++
    (input'.drop n).drop (padding n).length = input
  rw [List.length_take_of_le hlen, List.append_assoc, List.append_assoc]
  have hdrop : padding n ++ (input'.drop n).drop (padding n).length = input'.drop n := by
    conv_rhs => rw [← List.prefix_iff_eq_append.mp hpad]
  rw [hdrop, List.take_append_drop]
  exact canonical_uint 4 _ _ _ hn

theorem xdrToOpaque_of_xdrFromOpaque {f : Format α} (hf : Canonical f) {input : List Byte} {a : α}
    (h : f.xdrFromOpaque input = some a) : f.xdrToOpaque a = input := by
  unfold xdrFromOpaque at h
  split at h
  · rename_i a' hget
    obtain rfl := Option.some.inj h
    have hput := hf _ _ _ hget
    rwa [List.append_nil] at hput
  · cases h

end Format

end SmartCore
