import Mathlib.Data.Nat.ModEq
import Mathlib.Data.Set.Basic
import Mathlib.Order.Bounds.Basic
import Mathlib.Tactic.Common

/-!
# Skip lists

The header of a ledger has a skip list: the hashes of the bucket lists of four earlier ledgers,
each farther back than the one before. `calculateSkipValues` shifts them when a ledger is closed:
every 50 ledgers the hash of the ledger itself goes to the first place, and one time in 100 the
hash that was there goes to the second place, and so on.

A value that is shifted is that of the ledger one shift ago. So what a place holds depends only on
the number of the ledger: the hash of the last multiple of its period which had the time to come
there (`latest`).

**Theorem (`skipList_latest`).** After the ledgers up to `n` this is what the four places hold.
-/

namespace SmartCore.Buckets

variable {Hash : Type} [Zero Hash]

def SKIP_1 : ℕ := 50
def SKIP_2 : ℕ := 5000
def SKIP_3 : ℕ := 50000
def SKIP_4 : ℕ := 500000

/-- The part of a header that is used here. -/
structure SkipHeader (Hash : Type) where
  ledgerSeq : ℕ
  bucketListHash : Hash
  skipList0 : Hash
  skipList1 : Hash
  skipList2 : Hash
  skipList3 : Hash

namespace SkipHeader

/-- `int v = ledgerSeq - back`: the difference of unsigned numbers as an `int`. -/
def minus (ledgerSeq back : ℕ) : ℤ := Int.bmod ((ledgerSeq : ℤ) - back) (2 ^ 32)

def calculateSkipValues (header : SkipHeader Hash) : SkipHeader Hash :=
  if header.ledgerSeq % SKIP_1 = 0 then
    let v := minus header.ledgerSeq SKIP_1
    let header' :=
      if 0 < v ∧ v.tmod SKIP_2 = 0 then
        let v := minus header.ledgerSeq (SKIP_2 + SKIP_1)
        let header' :=
          if 0 < v ∧ v.tmod SKIP_3 = 0 then
            let v := minus header.ledgerSeq (SKIP_3 + SKIP_2 + SKIP_1)
            let header' :=
              if 0 < v ∧ v.tmod SKIP_4 = 0 then { header with skipList3 := header.skipList2 }
              else header
            { header' with skipList2 := header.skipList1 }
          else header
        { header' with skipList1 := header.skipList0 }
      else header
    { header' with skipList0 := header.bucketListHash }
  else header

/-- `hash` is that of the bucket list. -/
def snapshotLedger (hash : Hash) (header : SkipHeader Hash) : SkipHeader Hash :=
  calculateSkipValues { header with bucketListHash := hash }

/-- Before the first ledger. -/
def genesis : SkipHeader Hash := ⟨0, 0, 0, 0, 0, 0⟩

/-- The header of the next ledger starts with that of the last one. -/
def nextHeader (header : SkipHeader Hash) : SkipHeader Hash :=
  { header with ledgerSeq := header.ledgerSeq + 1 }

/-- The header after the ledgers `1 .. n`, where `hash m` is the hash of the bucket list of the
ledger `m`. -/
def closed (hash : ℕ → Hash) : ℕ → SkipHeader Hash
  | 0 => genesis
  | n + 1 => snapshotLedger (hash (n + 1)) (nextHeader (closed hash n))

end SkipHeader

open SkipHeader

/-! ## The ledger in a place -/

/-- The hash of the largest positive multiple `m` of `period` with `m + lag ≤ n`; zero if there is
none. -/
def latest (hash : ℕ → Hash) (period lag n : ℕ) : Hash :=
  if period + lag ≤ n then hash ((n - lag) / period * period) else 0

section Latest

variable {hash : ℕ → Hash} {period lag n m : ℕ}

/-- In the ledger `n` a ledger comes to the place. -/
def Comes (n period lag : ℕ) : Prop := ∃ m, 0 < m ∧ period ∣ m ∧ n = m + lag

/-- A ledger that comes to the place is the latest. -/
theorem latest_of_eq (hm : 0 < m) (hdvd : period ∣ m) (hn : n = m + lag) :
    latest hash period lag n = hash m := by
  have hle : period ≤ m := Nat.le_of_dvd hm hdvd
  rw [latest, if_pos (by omega), hn, Nat.add_sub_cancel, Nat.div_mul_cancel hdvd]

/-- It stays there until the next one comes. -/
theorem latest_of_lt (hperiod : 0 < period) (hm : 0 < m) (hdvd : period ∣ m) (hle : m + lag ≤ n)
    (hlt : n < m + period + lag) : latest hash period lag n = hash m := by
  have hpm : period ≤ m := Nat.le_of_dvd hm hdvd
  obtain ⟨k, rfl⟩ := hdvd
  have hdiv : (n - lag) / period = k := by
    rw [Nat.div_eq_iff hperiod, Nat.mul_comm k period]
    omega
  rw [latest, if_pos (by omega), hdiv, Nat.mul_comm]

/-- What comes to a place was in the place before until now. -/
theorem latest_shift {period' : ℕ} (hperiod : 0 < period) (hdvd : period ∣ period')
    (h : Comes (n + 1) period' (period + lag)) :
    latest hash period' (period + lag) (n + 1) = latest hash period lag n := by
  obtain ⟨m, hm, hdvd', hn⟩ := h
  rw [latest_of_eq hm hdvd' hn, latest_of_lt hperiod hm (hdvd.trans hdvd') (by omega) (by omega)]

/-- In all other ledgers nothing comes. -/
theorem latest_succ (hperiod : 0 < period) (h : ¬ Comes (n + 1) period lag) :
    latest hash period lag (n + 1) = latest hash period lag n := by
  replace h : ∀ m, 0 < m → period ∣ m → n + 1 ≠ m + lag :=
    fun m hm hdvd hn => h ⟨m, hm, hdvd, hn⟩
  rcases Nat.lt_or_ge n (period + lag) with hlt | hge
  · have hne := h period hperiod (dvd_refl _)
    rw [latest, latest, if_neg (by omega), if_neg (by omega)]
  · have hk : 0 < (n - lag) / period := Nat.div_pos (by omega) hperiod
    have hm : 0 < (n - lag) / period * period := Nat.mul_pos hk hperiod
    have hdvd : period ∣ (n - lag) / period * period := Dvd.intro_left _ rfl
    have hle : (n - lag) / period * period ≤ n - lag := Nat.div_mul_le_self _ _
    have hlt := Nat.lt_div_mul_add (a := n - lag) hperiod
    have hnext := h ((n - lag) / period * period + period) (by omega)
      (Nat.dvd_add hdvd (dvd_refl _))
    rw [latest_of_lt hperiod hm hdvd (by omega) (by omega),
      latest_of_lt hperiod hm hdvd (by omega) (by omega)]

/-- What the place holds, in other words. -/
def IsLatest (hash : ℕ → Hash) (period lag n : ℕ) (x : Hash) : Prop :=
  (∃ m, IsGreatest { m | 0 < m ∧ period ∣ m ∧ m + lag ≤ n } m ∧ x = hash m) ∨
    { m | 0 < m ∧ period ∣ m ∧ m + lag ≤ n } = ∅ ∧ x = 0

theorem isLatest_latest (hperiod : 0 < period) :
    IsLatest hash period lag n (latest hash period lag n) := by
  rcases Nat.lt_or_ge n (period + lag) with hlt | hge
  · refine Or.inr ⟨?_, by rw [latest, if_neg (by omega)]⟩
    rw [Set.eq_empty_iff_forall_notMem]
    rintro m ⟨hm, hdvd, hle⟩
    have hpm : period ≤ m := Nat.le_of_dvd hm hdvd
    omega
  · have hk : 0 < (n - lag) / period := Nat.div_pos (by omega) hperiod
    have hle : (n - lag) / period * period ≤ n - lag := Nat.div_mul_le_self _ _
    refine Or.inl ⟨_, ⟨⟨Nat.mul_pos hk hperiod, Dvd.intro_left _ rfl, by omega⟩, ?_⟩,
      by rw [latest, if_pos (by omega)]⟩
    rintro m ⟨-, ⟨k, rfl⟩, hm⟩
    have hkle : k ≤ (n - lag) / period := by
      rw [Nat.le_div_iff_mul_le hperiod, Nat.mul_comm]
      omega
    rw [Nat.mul_comm]
    exact Nat.mul_le_mul_right _ hkle

end Latest

/-! ## Closing ledgers -/

theorem minus_eq {n back : ℕ} (hn : n < 2 ^ 31) (hback : back < 2 ^ 31) :
    minus n back = (n : ℤ) - back := by
  rw [minus, Int.bmod_eq_of_le] <;> omega

/-- The conditions of `calculateSkipValues` say which ledger comes to a place. -/
theorem minus_pos_iff {n back period : ℕ} (hn : n < 2 ^ 31) (hback : back < 2 ^ 31) :
    (0 < minus n back ∧ (minus n back).tmod period = 0) ↔ Comes n period back := by
  rw [minus_eq hn hback]
  constructor
  · rintro ⟨hpos, hmod⟩
    have hle : back ≤ n := by omega
    rw [← Int.ofNat_sub hle, ← Int.ofNat_tmod, Int.natCast_eq_zero] at hmod
    exact ⟨n - back, by omega, Nat.dvd_of_mod_eq_zero hmod, by omega⟩
  · rintro ⟨m, hm, hdvd, rfl⟩
    have hcast : ((m + back : ℕ) : ℤ) - back = (m : ℤ) := by omega
    rw [hcast, ← Int.ofNat_tmod, Int.natCast_eq_zero]
    exact ⟨by omega, Nat.mod_eq_zero_of_dvd hdvd⟩

/-- What the four places hold after the ledgers up to `n`. -/
structure PlacesHold (hash : ℕ → Hash) (n : ℕ) (header : SkipHeader Hash) : Prop where
  ledgerSeq : header.ledgerSeq = n
  place0 : header.skipList0 = latest hash SKIP_1 0 n
  place1 : header.skipList1 = latest hash SKIP_2 SKIP_1 n
  place2 : header.skipList2 = latest hash SKIP_3 (SKIP_2 + SKIP_1) n
  place3 : header.skipList3 = latest hash SKIP_4 (SKIP_3 + SKIP_2 + SKIP_1) n

/-- A ledger comes to a place only when one comes to the place before. -/
theorem Comes.before {n period lag period' : ℕ} (hdvd : period ∣ period')
    (h : Comes n period' (period + lag)) : Comes n period lag := by
  obtain ⟨m, hm, hdvd', hn⟩ := h
  exact ⟨m + period, by omega, Nat.dvd_add (hdvd.trans hdvd') (dvd_refl _), by omega⟩

theorem mod_eq_zero_iff_comes {n period : ℕ} (hn : 0 < n) : n % period = 0 ↔ Comes n period 0 := by
  constructor
  · intro hmod
    exact ⟨n, hn, Nat.dvd_of_mod_eq_zero hmod, rfl⟩
  · rintro ⟨m, -, hdvd, rfl⟩
    exact Nat.mod_eq_zero_of_dvd hdvd

/-- Closing one ledger. -/
theorem PlacesHold.snapshotLedger {hash : ℕ → Hash} {n : ℕ} {header : SkipHeader Hash}
    (h : PlacesHold hash n header) (hn : n + 1 < 2 ^ 31) :
    PlacesHold hash (n + 1) (snapshotLedger (hash (n + 1)) (nextHeader header)) := by
  obtain ⟨n, bucketListHash, skipList0, skipList1, skipList2, skipList3⟩ := header
  obtain ⟨rfl, h0, h1, h2, h3⟩ := h
  -- which places get a new value
  have hif0 : (n + 1) % SKIP_1 = 0 ↔ Comes (n + 1) SKIP_1 0 :=
    mod_eq_zero_iff_comes (Nat.succ_pos n)
  have hif1 : _ ↔ Comes (n + 1) SKIP_2 SKIP_1 := minus_pos_iff hn (by decide)
  have hif2 : _ ↔ Comes (n + 1) SKIP_3 (SKIP_2 + SKIP_1) := minus_pos_iff hn (by decide)
  have hif3 : _ ↔ Comes (n + 1) SKIP_4 (SKIP_3 + SKIP_2 + SKIP_1) := minus_pos_iff hn (by decide)
  have hdvd1 : SKIP_1 ∣ SKIP_2 := by decide
  have hdvd2 : SKIP_2 ∣ SKIP_3 := by decide
  have hdvd3 : SKIP_3 ∣ SKIP_4 := by decide
  have hc1 : Comes (n + 1) SKIP_2 SKIP_1 → Comes (n + 1) SKIP_1 0 :=
    fun h => Comes.before hdvd1 (show Comes (n + 1) SKIP_2 (SKIP_1 + 0) from h)
  have hc2 : Comes (n + 1) SKIP_3 (SKIP_2 + SKIP_1) → Comes (n + 1) SKIP_2 SKIP_1 :=
    Comes.before hdvd2
  have hc3 : Comes (n + 1) SKIP_4 (SKIP_3 + SKIP_2 + SKIP_1) →
      Comes (n + 1) SKIP_3 (SKIP_2 + SKIP_1) :=
    fun h => Comes.before hdvd3 (show Comes (n + 1) SKIP_4 (SKIP_3 + (SKIP_2 + SKIP_1)) from h)
  -- the new value of a place, and the old one if nothing comes
  have hnew0 : Comes (n + 1) SKIP_1 0 → hash (n + 1) = latest hash SKIP_1 0 (n + 1) :=
    fun ⟨m, hm, hdvd, hnm⟩ => by rw [latest_of_eq hm hdvd hnm, hnm, Nat.add_zero]
  have hnew1 : Comes (n + 1) SKIP_2 SKIP_1 →
      skipList0 = latest hash SKIP_2 SKIP_1 (n + 1) :=
    fun h => h0.trans
      (latest_shift (by decide) hdvd1 (show Comes (n + 1) SKIP_2 (SKIP_1 + 0) from h)).symm
  have hnew2 : Comes (n + 1) SKIP_3 (SKIP_2 + SKIP_1) →
      skipList1 = latest hash SKIP_3 (SKIP_2 + SKIP_1) (n + 1) :=
    fun h => h1.trans (latest_shift (by decide) hdvd2 h).symm
  have hnew3 : Comes (n + 1) SKIP_4 (SKIP_3 + SKIP_2 + SKIP_1) →
      skipList2 = latest hash SKIP_4 (SKIP_3 + SKIP_2 + SKIP_1) (n + 1) :=
    fun h => h2.trans (latest_shift (by decide) hdvd3
      (show Comes (n + 1) SKIP_4 (SKIP_3 + (SKIP_2 + SKIP_1)) from h)).symm
  have hold0 : ¬ Comes (n + 1) SKIP_1 0 → skipList0 = latest hash SKIP_1 0 (n + 1) :=
    fun h => h0.trans (latest_succ (by decide) h).symm
  have hold1 : ¬ Comes (n + 1) SKIP_2 SKIP_1 →
      skipList1 = latest hash SKIP_2 SKIP_1 (n + 1) :=
    fun h => h1.trans (latest_succ (by decide) h).symm
  have hold2 : ¬ Comes (n + 1) SKIP_3 (SKIP_2 + SKIP_1) →
      skipList2 = latest hash SKIP_3 (SKIP_2 + SKIP_1) (n + 1) :=
    fun h => h2.trans (latest_succ (by decide) h).symm
  have hold3 : ¬ Comes (n + 1) SKIP_4 (SKIP_3 + SKIP_2 + SKIP_1) →
      skipList3 = latest hash SKIP_4 (SKIP_3 + SKIP_2 + SKIP_1) (n + 1) :=
    fun h => h3.trans (latest_succ (by decide) h).symm
  show PlacesHold hash (n + 1) (calculateSkipValues
    ⟨n + 1, hash (n + 1), skipList0, skipList1, skipList2, skipList3⟩)
  rw [calculateSkipValues]
  by_cases c0 : Comes (n + 1) SKIP_1 0
  · by_cases c1 : Comes (n + 1) SKIP_2 SKIP_1
    · by_cases c2 : Comes (n + 1) SKIP_3 (SKIP_2 + SKIP_1)
      · by_cases c3 : Comes (n + 1) SKIP_4 (SKIP_3 + SKIP_2 + SKIP_1)
        · simp only [if_pos (hif0.mpr c0), if_pos (hif1.mpr c1), if_pos (hif2.mpr c2),
            if_pos (hif3.mpr c3)]
          exact ⟨rfl, hnew0 c0, hnew1 c1, hnew2 c2, hnew3 c3⟩
        · simp only [if_pos (hif0.mpr c0), if_pos (hif1.mpr c1), if_pos (hif2.mpr c2),
            if_neg (mt hif3.mp c3)]
          exact ⟨rfl, hnew0 c0, hnew1 c1, hnew2 c2, hold3 c3⟩
      · simp only [if_pos (hif0.mpr c0), if_pos (hif1.mpr c1), if_neg (mt hif2.mp c2)]
        exact ⟨rfl, hnew0 c0, hnew1 c1, hold2 c2, hold3 (mt hc3 c2)⟩
    · simp only [if_pos (hif0.mpr c0), if_neg (mt hif1.mp c1)]
      exact ⟨rfl, hnew0 c0, hold1 c1, hold2 (mt hc2 c1), hold3 (mt hc3 (mt hc2 c1))⟩
  · simp only [if_neg (mt hif0.mp c0)]
    have c1 := mt hc1 c0
    exact ⟨rfl, hold0 c0, hold1 c1, hold2 (mt hc2 c1), hold3 (mt hc3 (mt hc2 c1))⟩

theorem placesHold_closed (hash : ℕ → Hash) {n : ℕ} (hn : n < 2 ^ 31) :
    PlacesHold hash n (closed hash n) := by
  induction n with
  | zero => exact ⟨rfl, rfl, rfl, rfl, rfl⟩
  | succ n ih => exact (ih (by omega)).snapshotLedger hn

/-- **The skip list.** After the ledgers up to `n`, each place holds the hash of the latest ledger
that had the time to come there. -/
theorem skipList_latest (hash : ℕ → Hash) (n : ℕ) (hn : n < 2 ^ 31) :
    IsLatest hash SKIP_1 0 n (closed hash n).skipList0 ∧
      IsLatest hash SKIP_2 SKIP_1 n (closed hash n).skipList1 ∧
        IsLatest hash SKIP_3 (SKIP_2 + SKIP_1) n (closed hash n).skipList2 ∧
          IsLatest hash SKIP_4 (SKIP_3 + SKIP_2 + SKIP_1) n (closed hash n).skipList3 := by
  obtain ⟨-, h0, h1, h2, h3⟩ := placesHold_closed hash hn
  rw [h0, h1, h2, h3]
  exact ⟨isLatest_latest (by decide), isLatest_latest (by decide), isLatest_latest (by decide),
    isLatest_latest (by decide)⟩

/-- Ledgers whose hash is their number: the second place of ledger 5100 holds that of ledger 5000. -/
theorem skipList_latest_5100 :
    5100 < 2 ^ 31 ∧ IsLatest id SKIP_2 SKIP_1 5100 (closed (id : ℕ → ℕ) 5100).skipList1 :=
  ⟨by decide, (skipList_latest id 5100 (by decide)).2.1⟩

end SmartCore.Buckets
